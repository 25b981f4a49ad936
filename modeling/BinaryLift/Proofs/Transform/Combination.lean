import BinaryLift.Proofs.Graph.Dominance
import BinaryLift.Proofs.Transform.CanonicalForms
import BinaryLift.Proofs.Transform.Forwarding
import BinaryLift.Proofs.Transform.Recasting
import BinaryLift.Proofs.Transform.Rounds
import Mathlib

/-!
# Combination of instructions

In `instcombine` one instruction after the other is brought into canonical form and replaced if another
value is equal to it. Each of these steps keeps what the function does, so every number of rounds does.
-/

namespace BinaryLift

theorem Kind.spares_of_pure {k : Kind} (hpure : k.isPure = true) {s : InstId} :
    k.Spares s ↔ .inst s ∉ k.operands := by
  cases k with
  | binary op x y => exact Iff.rfl
  | icmp p x y => exact Iff.rfl
  | cast op x => exact Iff.rfl
  | ptrAdd x y => exact Iff.rfl
  | select c x y => exact Iff.rfl
  | _ => cases hpure

/-- A pointer that becomes a number becomes a full word. -/
def Inst.widens : Inst → Bool
  | ⟨.cast .ptrtoint _, some ty⟩ => ty.bits = 64
  | _ => true

namespace Func

variable {f g : Func} {act : Activation} {d : DomTree} {id : InstId} {i : Inst} {k : Kind} {v : Value}
  {b : BlockId} {pre : List InstId} {c : Bool}

/-- The function is in SSA form, and the tree is right about dominance. -/
structure Framed (d : DomTree) (f : Func) : Prop where
  wellFormed : f.WellFormed
  dominates : ∀ a b, d.dominates a b = true → f.Dominates a b

/-- What the rules rely on besides: pointers become full words, and nothing comes in at the entry. -/
structure Combinable (d : DomTree) (f : Func) : Prop extends f.Framed d where
  wide : ∀ b id v t, f.Reachable b → id ∈ f.instsOf b →
    f.inst? id = some ⟨.cast .ptrtoint v, some t⟩ → t.bits = 64
  entry : ∀ e id, f.entry = some e → id ∈ f.instsOf e → f.isPhi id = false

/-- Live instructions make full words of pointers. -/
def WidePointers (f : Func) : Prop :=
  ∀ s ∈ f.arena.toList, s.block.isSome → s.inst.widens = true

instance (f : Func) : Decidable f.WidePointers :=
  inferInstanceAs (Decidable (∀ s ∈ f.arena.toList, s.block.isSome → s.inst.widens = true))

theorem WidePointers.bits (h : f.WidePointers) {ty : Ty} (hlive : f.isLive id = true)
    (hi : f.inst? id = some ⟨.cast .ptrtoint v, some ty⟩) : ty.bits = 64 := by
  obtain ⟨s, hs, hb, he⟩ := exists_slot hlive hi
  have hwidens := h s hs hb
  rw [he] at hwidens
  exact of_decide_eq_true hwidens

/-! ### Operands of operands -/

theorem Derives.atHand (h : f.Derives k v) (hwf : f.WellFormed) (hb : f.Reachable b)
    (hpre : pre <+: f.instsOf b) (hops : ∀ u ∈ k.operands, f.AtHand b pre u) :
    f.AtHand b pre v := by
  rcases h with ⟨c, rfl⟩ | hv | ⟨j, i, hj, hi, hpure, hv⟩
  · trivial
  · exact hops v hv
  · exact hwf.operand_atHand hb hpre (hops _ hj) hi (Kind.isPhi_of_pure hpure) hv

theorem Derives.own {own : InstId → Bool} (h : f.Derives k v) (ho : f.Orderly own)
    (hb : f.Reachable b) (hpre : pre <+: f.instsOf b) (hops : ∀ u ∈ k.operands, f.AtHand b pre u)
    (hk : ∀ s, own s = true → .inst s ∉ k.operands) : ∀ s, v = .inst s → own s = false := by
  rintro s rfl
  cases hs : own s with
  | false => rfl
  | true =>
    rcases h with ⟨c, hc⟩ | hv | ⟨j, i, hj, hi, hpure, hv⟩
    · cases hc
    · exact absurd hv (hk s hs)
    · have hcon := ho.wellFormed.consistent
      obtain ⟨c, hjc, hc, _⟩ := hcon.home_of_available hb hpre.subset (hops _ hj)
      have hspares := ho.spares s hs c j i hc (hcon.mem_instsOf.2 hjc) hi (Kind.isPhi_of_pure hpure)
      exact absurd hv ((Kind.spares_of_pure hpure).1 hspares)

/-- Where the operands of an instruction are at hand, they are settled. -/
theorem Visits.ready {memory : Memory} {m : Machine} (hvisit : f.Visits act memory b pre m)
    (hf : f.Combinable d) (hl : act.Leaves f) (ho : f.Orderly act.own)
    (hops : ∀ u ∈ k.operands, f.AtHand b pre u) : m.Ready act f k := by
  have hcon := hf.wellFormed.consistent
  have hhome : ∀ j, .inst j ∈ k.operands → ∃ c, f.Reachable c ∧ j ∈ f.instsOf c := by
    intro j hj
    obtain ⟨c, hjc, hc, _⟩ := hcon.home_of_available (hvisit.reachable hf.wellFormed hl)
      hvisit.pre_prefix.subset (hops _ hj)
    exact ⟨c, hc, hcon.mem_instsOf.2 hjc⟩
  refine ⟨hvisit.tame, ?_, ?_, ?_⟩
  · intro j i hj hi hpure
    obtain ⟨c, hc, hjc⟩ := hhome j hj
    exact ho.typed c j i hc hjc hi (Kind.isPhi_of_pure hpure)
  · intro j i hj hi hpure
    exact hvisit.settled hf.wellFormed hl hi hpure (hops _ hj)
  · intro j v t hj hi
    obtain ⟨c, hc, hjc⟩ := hhome j hj
    exact hf.wide c j v t hc hjc hi

/-! ### Canonical forms -/

theorem Framed.recast (hf : f.Framed d) (h : f.Recast g id i k) : g.Framed d where
  wellFormed := h.wellFormed hf.wellFormed
  dominates := fun a b hab p hp => hf.dominates a b hab p (h.subgraph.path hp)

theorem Combinable.recast (hf : f.Combinable d) (h : f.Recast g id i k)
    (hcast : ∀ op v, k ≠ .cast op v) : g.Combinable d where
  toFramed := hf.toFramed.recast h
  wide := by
    intro b j v t hb hj hi
    rw [h.instsOf] at hj
    by_cases hne : j = id
    · rw [hne, h.new] at hi
      exact absurd (congrArg Inst.kind (Option.some.inj hi)) (hcast _ _)
    · rw [h.others j hne] at hi
      exact hf.wide b j v t (h.reachable.1 hb) hj hi
  entry := by
    intro e j he hj
    rw [h.instsOf] at hj
    rw [h.isPhi]
    exact hf.entry e j (h.entry ▸ he) hj

/-- The operands of a canonical form are at hand where the instruction stands. -/
theorem Canonical.recast (h : f.Canonical id i k) (hwf : f.WellFormed) (hi : f.inst? id = some i) :
    f.Recast (f.modifyKind id fun _ => k) id i k := by
  have hphi := Kind.isPhi_of_pure h.pure
  refine recast_modifyKind hi hphi (Kind.isPhi_of_pure h.isPure) ?_ ?_
  · rw [Kind.isAlloca_of_pure h.isPure, Kind.isAlloca_of_pure h.pure]
  · intro b before after hb hsplit v hv
    exact (h.derives v hv).atHand hwf hb (prefix_of_split hsplit)
      fun u hu => hwf.use hb hsplit hi hphi hu

/-- A canonical form may take the place of an instruction. -/
theorem Canonical.keeps (h : f.Canonical id i k) (hf : f.Combinable d) (hi : f.inst? id = some i) :
    f.Keeps (f.modifyKind id fun _ => k) ∧ (f.modifyKind id fun _ => k).Combinable d := by
  have hwf := hf.wellFormed
  have hphi := Kind.isPhi_of_pure h.pure
  have hops : ∀ b before after, f.Reachable b → f.instsOf b = before ++ id :: after →
      ∀ u ∈ i.kind.operands, f.AtHand b before u :=
    fun b before after hb hsplit u hu => hwf.use hb hsplit hi hphi hu
  have hrecast := h.recast hwf hi
  refine ⟨hrecast.keeps hwf ?_ ?_ (fun _ _ _ _ _ => h.words) ?_, hf.recast hrecast h.noCast⟩
  · intro own ho b hb hid
    obtain ⟨before, after, hsplit⟩ := List.append_of_mem hid
    refine h.typed (ho.typed b id i hb hid hi hphi) fun j i' hj hi' hpure => ?_
    obtain ⟨c, hjc, hc, _⟩ := hwf.consistent.home_of_available hb (prefix_of_split hsplit).subset
      (hops b before after hb hsplit _ hj)
    exact ho.typed c j i' hc (hwf.consistent.mem_instsOf.2 hjc) hi' (Kind.isPhi_of_pure hpure)
  · intro own ho b s hb hid hs
    obtain ⟨before, after, hsplit⟩ := List.append_of_mem hid
    rw [Kind.spares_of_pure h.isPure]
    intro hv
    have hown := (h.derives _ hv).own ho hb (prefix_of_split hsplit) (hops b before after hb hsplit)
      (fun s hs => (Kind.spares_of_pure h.pure).1 (ho.spares s hs b id i hb hid hi hphi)) s rfl
    rw [hs] at hown
    cases hown
  · intro act hl ho memory b pre post m m₁ hvisit hb hsplit hm₁
    obtain ⟨w, hw, _, rfl⟩ := Machine.exec_of_pure hi h.pure hm₁
    have hready := hvisit.ready hf hl ho (hops b pre post hb hsplit)
    have hw' := h.value (ho.typed b id i hb (mem_of_split hsplit) hi hphi) act m w _ hrecast.new
      hrecast.typeOf hready hw
    rw [Machine.exec_of_compute hw', wordTy, hrecast.typeOf]
    rfl

theorem canonicalize_eq_ok (h : f.canonicalize id = .ok (g, c)) :
    (g = f ∧ c = false) ∨ ∃ i k, f.inst? id = some i ∧ f.canonical? i = .ok (some k) ∧
      f.Canonical id i k ∧ g = (f.modifyKind id fun _ => k) ∧ c = true := by
  unfold canonicalize at h
  cases hinst : f.inst id with
  | error e =>
    rw [hinst] at h
    cases h
  | ok i =>
    rw [hinst] at h
    simp only [bind, Except.bind] at h
    cases hcanon : f.canonical? i with
    | error e =>
      rw [hcanon] at h
      cases h
    | ok r =>
      rw [hcanon] at h
      cases r with
      | none =>
        cases h
        exact .inl ⟨rfl, rfl⟩
      | some k =>
        cases h
        have hi := inst_eq_ok hinst
        exact .inr ⟨i, k, hi, hcanon, canonical?_canonical hi hcanon, rfl, rfl⟩

theorem instBlock_canonicalize (h : f.canonicalize id = .ok (g, c)) (j : InstId) :
    g.instBlock j = f.instBlock j := by
  rcases canonicalize_eq_ok h with ⟨rfl, _⟩ | ⟨i, k, _, _, _, rfl, _⟩
  · rfl
  · exact instBlock_modifyKind f id j _

theorem canonicalize_framed (hf : f.Framed d) (h : f.canonicalize id = .ok (g, c)) :
    g.Framed d := by
  rcases canonicalize_eq_ok h with ⟨rfl, _⟩ | ⟨i, k, hi, _, hcanon, rfl, _⟩
  · exact hf
  · exact hf.recast (hcanon.recast hf.wellFormed hi)

theorem canonicalize_keeps (hf : f.Combinable d) (h : f.canonicalize id = .ok (g, c)) :
    f.Keeps g ∧ g.Combinable d := by
  rcases canonicalize_eq_ok h with ⟨rfl, _⟩ | ⟨i, k, hi, _, hcanon, rfl, _⟩
  · exact ⟨.refl hf.wellFormed, hf⟩
  · exact hcanon.keeps hf hi

/-! ### Replacements -/

theorem Framed.substituted {drop : InstId → Bool} {ρ : Value → Value} (hf : f.Framed d)
    (h : f.Substituted drop ρ g) (hr : f.Replaceable drop ρ) : g.Framed d where
  wellFormed := h.wellFormed (hr.supplied hf.wellFormed) hf.wellFormed
  dominates := fun a b hab p hp => hf.dominates a b hab p (h.subgraph.path hp)

theorem Combinable.substituted {drop : InstId → Bool} {ρ : Value → Value} (hf : f.Combinable d)
    (h : f.Substituted drop ρ g) (hr : f.Replaceable drop ρ) : g.Combinable d where
  toFramed := hf.toFramed.substituted h hr
  wide := by
    intro b j v t hb hj hi
    obtain ⟨hmem, _, ⟨kind, o⟩, hi', heq⟩ := h.inst_of_mem hf.wellFormed.consistent hj hi
    cases kind with
    | cast op u =>
      cases heq
      exact hf.wide b j u t (h.reachable.1 hb) hmem hi'
    | _ => cases heq
  entry := by
    intro e j he hj
    rw [h.instsOf] at hj
    have hmem := (List.mem_filter.1 hj).1
    rw [h.isPhi hf.wellFormed.consistent hmem]
    exact hf.entry e j (h.entry ▸ he) hmem

theorem Replaces.atHand (h : f.Replaces id i v) (hwf : f.WellFormed) (hi : f.inst? id = some i) :
    ∀ b before after, f.Reachable b → f.instsOf b = before ++ id :: after →
      f.AtHand b before v := fun _ _ _ hb hsplit =>
  h.derives.atHand hwf hb (prefix_of_split hsplit)
    fun _ hu => hwf.use hb hsplit hi (Kind.isPhi_of_pure h.pure) hu

/-- A value that replaces an instruction may stand in for it. -/
theorem Replaces.keeps (h : f.Replaces id i v) (hf : f.Combinable d) (hi : f.inst? id = some i)
    (hid : id ∈ f.instsOf b)
    (hsub : f.Substituted (fun j => decide (j = id)) (replaceResult id v) g) :
    f.Keeps g ∧ g.Combinable d := by
  have hwf := hf.wellFormed
  have hphi := Kind.isPhi_of_pure h.pure
  have hat := h.atHand hwf hi
  have hr := replaceable_of_atHand hwf.consistent hat
  refine ⟨hsub.keeps hwf hr (fun own ho => ?_) fun act hl ho => ?_, hf.substituted hsub hr⟩
  · refine standsIn_of_atHand ho hid hi (Kind.hasSideEffects_of_pure h.pure)
      (Kind.isAlloca_of_pure h.pure) hat (fun hb => ?_) fun hb => ?_
    · rw [typeOf_inst hi]
      exact h.typeOf (ho.typed b id i hb hid hi hphi)
    · obtain ⟨before, after, hsplit⟩ := List.append_of_mem hid
      exact h.derives.own ho hb (prefix_of_split hsplit)
        (fun u hu => hwf.use hb hsplit hi hphi hu)
        fun s hs => (Kind.spares_of_pure h.pure).1 (ho.spares s hs b id i hb hid hi hphi)
  · refine equals_of_visits fun memory c pre m w hvisit hav hw => ?_
    have hc := hvisit.reachable hwf hl
    have hpre := hvisit.pre_prefix
    obtain ⟨u, hu, hcompute⟩ := hvisit.settled hwf hl hi h.pure hav
    rw [hw] at hu
    cases hu
    have hready := hvisit.ready hf hl ho fun u hu => hwf.operand_atHand hc hpre hav hi hphi hu
    obtain ⟨a, hida, ha, _⟩ := hwf.consistent.home_of_available hc hpre.subset hav
    exact h.value (ho.typed a id i ha (hwf.consistent.mem_instsOf.2 hida) hi hphi) act m w hready
      hcompute

/-! ### Phis -/

/-- A phi receives another value than its own from a predecessor that can be reached. -/
theorem exists_source (hwf : f.WellFormed) (hb : f.Reachable b) (hentry : f.entry ≠ some b)
    (hid : id ∈ f.instsOf b) {inc : List (BlockId × Value)} {ty : Option Ty}
    (hi : f.inst? id = some ⟨.phi inc, ty⟩) :
    ∃ q u, f.Reachable q ∧ (q, u) ∈ inc ∧ u ≠ .inst id := by
  obtain ⟨q, p, hp, hnot, hedge⟩ := hb.first_edge hentry
  have hq : f.Reachable q := ⟨p, hp⟩
  obtain ⟨data, hdata, hmem⟩ := exists_block_of_mem hid
  have hcount := (hwf.incoming b data id inc ty hdata hmem hi).1 q hq hedge
  have hin : q ∈ inc.map (·.1) := List.count_pos_iff.1 (by omega)
  obtain ⟨⟨q', u⟩, he, rfl⟩ := List.mem_map.1 hin
  refine ⟨q', u, hq, he, ?_⟩
  rintro rfl
  -- the phi would be at hand on a way that has not come by its block
  rcases hwf.phiUse (v := .inst id) hb hid hi he hq with hav | ⟨c, cdata, hdom, hcdata, hav⟩
  · have hqb := hwf.consistent.same_block hav hid
    exact hnot (hqb ▸ hp.last_mem)
  · rw [← instsOf_eq hcdata] at hav
    have hcb := hwf.consistent.same_block hav hid
    exact hnot (hcb ▸ hdom.2 p hp)

theorem commonIncoming?_spec {me : Value} {inc : List (BlockId × Value)}
    (h : commonIncoming? me inc = some v) : ∀ e ∈ inc, e.2 = v ∨ e.2 = me := by
  intro e he
  by_cases hme : e.2 = me
  · exact .inr hme
  · have hmem : e.2 ∈ (inc.map (·.2)).filter (· ≠ me) :=
      List.mem_filter.2 ⟨List.mem_map.2 ⟨e, he, rfl⟩, by simpa using hme⟩
    unfold commonIncoming? at h
    split at h
    · cases h
    · rename_i u rest heq
      split at h
      · rename_i hall
        cases h
        rw [heq] at hmem
        rcases List.mem_cons.1 hmem with hv | hrest
        · exact .inl hv
        · exact .inl (by simpa using List.all_eq_true.1 hall _ hrest)
      · cases h

theorem atHand_of_availableAt (hf : f.Framed d) (hid : id ∈ f.instsOf b)
    (h : f.availableAt d id v = true) : f.AtHand b [] v := by
  cases v with
  | const c => trivial
  | arg n => trivial
  | inst j =>
    have hcon := hf.wellFormed.consistent
    simp only [availableAt, hcon.mem_instsOf.1 hid] at h
    cases hjc : f.instBlock j with
    | none =>
      rw [hjc] at h
      cases h
    | some c =>
      rw [hjc] at h
      simp only [ne_eq, Bool.and_eq_true, decide_eq_true_eq] at h
      obtain ⟨data, hdata, hmem⟩ := exists_block_of_mem (hcon.mem_instsOf.2 hjc)
      exact .inr ⟨c, data, ⟨h.1, hf.dominates c b h.2⟩, hdata, hmem⟩

/-- A phi that receives one value besides itself passes it on. -/
theorem passesOn_of_common (hf : f.Combinable d) (hid : id ∈ f.instsOf b)
    {inc : List (BlockId × Value)} {ty : Option Ty} (hi : f.inst? id = some ⟨.phi inc, ty⟩)
    (hcommon : commonIncoming? (.inst id) inc = some v) (hat : f.availableAt d id v = true) :
    f.PassesOn b id inc ty v where
  mem := hid
  inst := hi
  atHand := fun _ => atHand_of_availableAt hf.toFramed hid hat
  sources := fun q u he _ => commonIncoming?_spec hcommon (q, u) he
  source := by
    intro hb
    have hentry : f.entry ≠ some b := by
      intro he
      have hphi := hf.entry b id he hid
      rw [isPhi_inst hi] at hphi
      cases hphi
    obtain ⟨q, u, hq, he, hne⟩ := exists_source hf.wellFormed hb hentry hid hi
    rcases commonIncoming?_spec hcommon (q, u) he with hu | hu
    · exact ⟨q, hq, hu ▸ he⟩
    · exact absurd hu hne

/-! ### One instruction -/

theorem simplify?_phi {inc : List (BlockId × Value)} {ty : Option Ty}
    (hi : f.inst? id = some ⟨.phi inc, ty⟩) (h : f.simplify? d id = .ok (some v)) :
    commonIncoming? (.inst id) inc = some v ∧ f.availableAt d id v = true := by
  unfold simplify? inst at h
  rw [hi] at h
  simp only [bind, Except.bind] at h
  cases ty with
  | none => cases h
  | some ty => exact Option.filter_eq_some_iff.1 (Except.ok.inj h)

theorem simplify?_keeps (hf : f.Combinable d) (hid : id ∈ f.instsOf b)
    (h : f.simplify? d id = .ok (some v))
    (hg : (f.replaceAllUses (.inst id) v).removeInst id = .ok g) : f.Keeps g ∧ g.Combinable d := by
  have hcon := hf.wellFormed.consistent
  obtain ⟨g', hg', hsub⟩ := replace_spec hcon id v
  rw [hg] at hg'
  cases hg'
  obtain ⟨⟨kind, o⟩, hi⟩ := hcon.inst?_of_mem hid
  cases hphi : kind.isPhi with
  | false => exact (simplify?_replaces hi hphi h).keeps hf hi hid hsub
  | true =>
    cases kind with
    | phi inc =>
      obtain ⟨hcommon, hat⟩ := simplify?_phi hi h
      have hpass := passesOn_of_common hf hid hi hcommon hat
      exact ⟨hpass.keeps hf.wellFormed hsub,
        hf.substituted hsub (replaceable_of_atHand hcon (hpass.atHand_before hcon))⟩
    | _ => cases hphi

/-- Whatever replaces an instruction is at hand wherever it was. -/
theorem simplify?_framed (hf : f.Framed d) (hid : id ∈ f.instsOf b)
    (h : f.simplify? d id = .ok (some v))
    (hg : (f.replaceAllUses (.inst id) v).removeInst id = .ok g) : g.Framed d := by
  have hcon := hf.wellFormed.consistent
  obtain ⟨g', hg', hsub⟩ := replace_spec hcon id v
  rw [hg] at hg'
  cases hg'
  obtain ⟨⟨kind, o⟩, hi⟩ := hcon.inst?_of_mem hid
  refine hf.substituted hsub (replaceable_of_atHand hcon ?_)
  cases hphi : kind.isPhi with
  | false => exact (simplify?_replaces hi hphi h).atHand hf.wellFormed hi
  | true =>
    cases kind with
    | phi inc =>
      intro c before after _ hsplit
      rw [← hcon.same_block hid (mem_of_split hsplit)]
      exact (atHand_of_availableAt hf hid (simplify?_phi hi h).2).mono (List.nil_subset _)
    | _ => cases hphi

theorem combineInst_eq_ok (h : combineInst d f id = .ok (g, c)) :
    (g = f ∧ c = false) ∨ ∃ b f₁ c₁, f.instBlock id = some b ∧ f.canonicalize id = .ok (f₁, c₁) ∧
      ((g = f₁ ∧ c = c₁) ∨ ∃ v, f₁.simplify? d id = .ok (some v) ∧
        (f₁.replaceAllUses (.inst id) v).removeInst id = .ok g ∧ c = true) := by
  unfold combineInst at h
  split at h
  · cases h
    exact .inl ⟨rfl, rfl⟩
  · rename_i hlive
    obtain ⟨b, hb⟩ : ∃ b, f.instBlock id = some b :=
      Option.ne_none_iff_exists'.1 (by simpa [isLive] using hlive)
    cases hcanon : f.canonicalize id with
    | error e =>
      rw [hcanon] at h
      cases h
    | ok r =>
      obtain ⟨f₁, c₁⟩ := r
      rw [hcanon] at h
      simp only [bind, Except.bind] at h
      refine .inr ⟨b, f₁, c₁, hb, rfl, ?_⟩
      cases hsimp : f₁.simplify? d id with
      | error e =>
        rw [hsimp] at h
        cases h
      | ok r =>
        rw [hsimp] at h
        cases r with
        | none =>
          cases h
          exact .inl ⟨rfl, rfl⟩
        | some v =>
          simp only at h
          cases hremove : (f₁.replaceAllUses (.inst id) v).removeInst id with
          | error e =>
            rw [hremove] at h
            cases h
          | ok f₂ =>
            rw [hremove] at h
            cases h
            exact .inr ⟨v, rfl, hremove, rfl⟩

theorem combineInst_framed (hf : f.Framed d) (h : combineInst d f id = .ok (g, c)) :
    g.Framed d := by
  rcases combineInst_eq_ok h with ⟨rfl, _⟩ | ⟨b, f₁, c₁, hb, hcanon, hstep⟩
  · exact hf
  · have hf₁ := canonicalize_framed hf hcanon
    rcases hstep with ⟨rfl, _⟩ | ⟨v, hsimp, hremove, _⟩
    · exact hf₁
    · refine simplify?_framed hf₁ (b := b) ?_ hsimp hremove
      rw [hf₁.wellFormed.consistent.mem_instsOf, instBlock_canonicalize hcanon, hb]

theorem combineInst_keeps (hf : f.Combinable d) (h : combineInst d f id = .ok (g, c)) :
    f.Keeps g ∧ g.Combinable d := by
  rcases combineInst_eq_ok h with ⟨rfl, _⟩ | ⟨b, f₁, c₁, hb, hcanon, hstep⟩
  · exact ⟨.refl hf.wellFormed, hf⟩
  · obtain ⟨hkeeps, hf₁⟩ := canonicalize_keeps hf hcanon
    rcases hstep with ⟨rfl, _⟩ | ⟨v, hsimp, hremove, _⟩
    · exact ⟨hkeeps, hf₁⟩
    · have hid : id ∈ f₁.instsOf b := by
        rw [hf₁.wellFormed.consistent.mem_instsOf, instBlock_canonicalize hcanon, hb]
      obtain ⟨hkeeps₂, hg⟩ := simplify?_keeps hf₁ hid hsimp hremove
      exact ⟨hkeeps.trans hkeeps₂, hg⟩

/-! ### Rounds -/

/-- What one instruction's turn keeps is kept by however many rounds, if they come to an end. -/
theorem untilStable_combineOnce_induction {I : Func → Prop}
    (hstep : ∀ x g g' c, I g → combineInst d g x = .ok (g', c) → I g') (hf : I f) {n : Nat}
    (h : untilStable (combineOnce d) n f = .ok (g, c)) : I g :=
  untilStable_keeps (fun _ _ _ hg hround => sweepOver_keeps hstep hg hround) hf h

/-- However many rounds are made, if they come to an end the function does what it did. -/
theorem untilStable_combineOnce_keeps (hf : f.Combinable d) {n : Nat}
    (h : untilStable (combineOnce d) n f = .ok (g, c)) : f.Keeps g := by
  refine (untilStable_combineOnce_induction (I := fun g => f.Keeps g ∧ g.Combinable d) ?_
    ⟨.refl hf.wellFormed, hf⟩ h).1
  rintro x g g' c ⟨hkeeps, hg⟩ hstep
  obtain ⟨hkeeps', hg'⟩ := combineInst_keeps hg hstep
  exact ⟨hkeeps.trans hkeeps', hg'⟩

theorem dominates_of_compute (hwf : f.WellFormed) (hd : DomTree.compute f = .ok d) :
    ∀ a b, d.dominates a b = true → f.Dominates a b := by
  intro a b hab
  cases he : f.entry with
  | none =>
    intro p hp
    exact absurd he hp.entry_ne_none
  | some e =>
    obtain ⟨d', hd', hcorrect⟩ := DomTree.compute_correct he (hwf.entry e he)
    rw [hd] at hd'
    cases hd'
    exact hcorrect.dominates_of_eq_true hab

/-- However many rounds are made, if they come to an end the function is in SSA form. -/
theorem untilStable_combineOnce_wellFormed (hwf : f.WellFormed) (hd : DomTree.compute f = .ok d)
    {n : Nat} (h : untilStable (combineOnce d) n f = .ok (g, c)) : g.WellFormed :=
  (untilStable_combineOnce_induction (fun _ _ _ _ hf hstep => combineInst_framed hf hstep)
    (⟨hwf, dominates_of_compute hwf hd⟩ : f.Framed d) h).wellFormed

/-- A function whose entry has phis does not execute. -/
theorem run_of_entry_phi (hwf : f.WellFormed) {e : BlockId} (he : f.entry = some e)
    (hid : id ∈ f.instsOf e) (hphi : f.isPhi id = true) (act : Activation) (memory : Memory)
    (n : Nat) : f.run act memory n = none := by
  have hmem := hwf.mem_phisOf hid hphi
  have hnone : (Machine.start memory).enter act f none (f.phisOf e) = none := by
    rw [Option.eq_none_iff_forall_ne_some]
    intro m henter
    rw [(Machine.enter_none henter).1] at hmem
    cases hmem
  obtain ⟨data, hdata, _⟩ := exists_block_of_mem hid
  rw [run, he, Option.bind_eq_bind, Option.bind_some, Option.eq_none_iff_forall_ne_some]
  intro r hr
  obtain ⟨k, data', m₁, x, _, hdata', hblock, _⟩ := runFrom_eq_some.1 hr
  rw [hdata] at hdata'
  cases hdata'
  rw [runBlock, ← instsOf_eq hdata] at hblock
  rw [show (Machine.start memory).enter act f none ((f.instsOf e).takeWhile f.isPhi) = none
    from hnone] at hblock
  cases hblock

/-- Indirect jumps leave the function, and pointers become full words. However many rounds are made, if
they come to an end every execution that ends without an undefined operation ends in the same way
afterwards, with the same calls and the same memory. -/
theorem untilStable_combineOnce_preserves (hwf : f.WellFormed) (hty : f.WellTyped)
    (hwide : f.WidePointers) (hd : DomTree.compute f = .ok d) {rounds : Nat}
    (h : untilStable (combineOnce d) rounds f = .ok (g, c)) (act : Activation) (memory : Memory)
    (hlinked : act.linked = false) (hown : ∀ s, act.own s = true → f.confines s = true)
    (n : Nat) (e : Exit) (m : Machine) (hrun : f.run act memory n = some (e, m)) :
    ∃ k m', g.run act memory k = some (e, m') ∧ m'.calls = m.calls ∧ m'.memory = m.memory ∧
      m'.slots = m.slots := by
  have hentry : ∀ e id, f.entry = some e → id ∈ f.instsOf e → f.isPhi id = false := by
    intro e' id he hid
    cases hphi : f.isPhi id with
    | false => rfl
    | true =>
      rw [run_of_entry_phi hwf he hid hphi] at hrun
      cases hrun
  have hf : f.Combinable d := by
    refine ⟨⟨hwf, dominates_of_compute hwf hd⟩, fun b id v t hb hid hi => ?_, hentry⟩
    exact hwide.bits (hwf.consistent.isLive_of_mem hid) hi
  exact (untilStable_combineOnce_keeps hf h).refines act (act.leaves_of_linked hlinked f)
    (orderly_of_wellTyped hwf hty hown) memory n e m hrun

end Func

end BinaryLift
