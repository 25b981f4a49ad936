import BinaryLift.Proofs.Run.PrivateSlots
import BinaryLift.Proofs.Transform.PromotedForm

/-!
# Promotion among private slots

Where all slots are private, all of them may be own slots of a promotion. The slots that are left are
private again, the code is typed as it was, and the function does what it did.
-/

namespace BinaryLift

namespace Func

variable {f : Func} {own : InstId → Bool} {b : BlockId} {pre : List InstId} {v : Value}
  {drop : InstId → Bool}

theorem Orderly.isSome_of_reads (ho : f.Orderly own) (hr : f.Regular own)
    (hread : f.Reads drop b pre v) : (f.typeOf v).isSome = true := by
  cases hread with
  | inst hb hsplit _ hi hphi hv => exact (ho.typed _ _ _ hb (mem_of_split hsplit) hi hphi).operand hv
  | phi hc hid _ hi he hq =>
    obtain ⟨hty, hinc⟩ := ho.phi _ _ _ _ hc hid hi
    rw [(hinc _ _ he hq).1]
    exact hty
  | term hb hdata hv => exact hr.results _ _ _ hb hdata hv

theorem exists_inst_of_typeOf {j : InstId} (h : (f.typeOf (.inst j)).isSome = true) :
    ∃ i, f.inst? j = some i := by
  cases hj : f.inst? j with
  | none =>
    rw [typeOf, hj] at h
    cases h
  | some i => exact ⟨i, rfl⟩

/-- Typed code reads results: a store has no type. -/
theorem Orderly.readsResults (ho : f.Orderly own) (hr : f.Regular own) : f.ReadsResults := by
  intro b pre j hread p v ty hj
  have hsome := ho.isSome_of_reads hr hread
  obtain ⟨c, hjc, hc, _⟩ := ho.wellFormed.consistent.home_of_available hread.reachable
    hread.pre_prefix.subset (hread.atHand ho.wellFormed)
  obtain ⟨_, _, hnone⟩ := ho.typed c j _ hc (ho.wellFormed.consistent.mem_instsOf.2 hjc) hj rfl
  rw [typeOf_inst hj, show ty = none from hnone] at hsome
  cases hsome

end Func

namespace Promotion

open Func

variable {f g : Func} {P : Promotion f} {ρ : Value → Value} {own : InstId → Bool} {b : BlockId}
  {pre : List InstId} {id : InstId} {i : Inst} {v : Value}

theorem Sound.owned_slots (h : P.Sound) (ho : f.Orderly f.isSlot) : P.Owned f.isSlot where
  promoted := by
    intro s hs
    obtain ⟨size, o, hi⟩ := h.alloca_of_mem hs
    exact isSlot_inst hi
  alloca := by
    intro s hs
    obtain ⟨⟨kind, o⟩, hi, halloca⟩ := (Option.any_eq_true _ _).1 hs
    cases kind with
    | alloca size => exact ⟨size, o, hi⟩
    | _ => cases halloca
  unstored := by
    intro s hs b id p o hb hid hi
    exact ho.spares s hs b id _ hb hid hi rfl rfl

theorem Promoted.typeOf_read (hp : P.Promoted g ρ) (h : P.Sound)
    (hv : (f.typeOf v).isSome = true) : g.typeOf (ρ v) = f.typeOf v := by
  refine hp.typeOf_rename h fun j hj => ?_
  subst hj
  exact exists_inst_of_typeOf hv

/-- An instruction of the promoted function that is no phi is an old one, with renamed operands. -/
theorem Promoted.inst_cases (hp : P.Promoted g ρ) (h : P.Sound) (hid : id ∈ g.instsOf b)
    (hi : g.inst? id = some i) (hphi : i.kind.isPhi = false) :
    ∃ k, id ∈ f.instsOf b ∧ f.inst? id = some k ∧ k.kind.isPhi = false ∧
      i = ⟨k.kind.mapOperands ρ, k.ty⟩ := by
  rcases hp.mem_cases hid with ⟨n, hnew⟩ | hold
  · have hnew' := hp.isPhi_new hnew
    rw [isPhi_inst hi, hphi] at hnew'
    cases hnew'
  · obtain ⟨k, hk⟩ := h.wellFormed.consistent.inst?_of_mem hold
    rw [hp.inst b id k hold (hp.keep_of_mem h hid) hk] at hi
    cases hi
    rw [Kind.isPhi_mapOperands] at hphi
    exact ⟨k, hold, hk, hphi, rfl⟩

theorem Promoted.typeOf_operand (hp : P.Promoted g ρ) (h : P.Sound) (ho : f.Orderly own)
    (hb : f.Reachable b) (hid : id ∈ f.instsOf b) (hi : f.inst? id = some i)
    (hphi : i.kind.isPhi = false) (hv : v ∈ i.kind.operands) : g.typeOf (ρ v) = f.typeOf v :=
  hp.typeOf_read h ((ho.typed b id i hb hid hi hphi).operand hv)

theorem Promoted.typed_phi (hp : P.Promoted g ρ) (h : P.Sound) (hown : P.Owned own)
    (ho : f.Orderly own) (hb : f.Reachable b) (hid : id ∈ g.instsOf b)
    {inc : List (BlockId × Value)} {ty : Option Ty} (hi : g.inst? id = some ⟨.phi inc, ty⟩) :
    ty.isSome ∧ ∀ q v, (q, v) ∈ inc → g.Reachable q →
      g.typeOf v = ty ∧ ∀ s, v = .inst s → own s = false := by
  rcases hp.mem_cases hid with ⟨n, hnew⟩ | hold
  · -- a new phi receives what its slot holds at the end of each predecessor
    obtain ⟨s, t, inc', hs, hi', _, hinc⟩ := hp.phi b n id hnew
    rw [hi'] at hi
    cases hi
    refine ⟨rfl, fun q v he _ => ?_⟩
    obtain ⟨hq, _, rfl⟩ := (hinc q v).1 he
    have hsource : P.Source q (f.instsOf q) n (valueOf (P.out q) n) :=
      h.source_current hs hq (List.prefix_refl _)
    refine ⟨hp.typeOf_of_source h hs hsource fun k i hk hi => ?_, fun s' hs' => ?_⟩
    · rw [hk]
      exact hp.typeOf_inst h i hi
    · cases hown' : own s' with
      | false => rfl
      | true =>
        rw [(hp.rename_own h hown hown').1 hs'] at hsource
        rw [hown.not_source h hq hsource] at hown'
        cases hown'
  · obtain ⟨⟨kind, o⟩, hk⟩ := h.wellFormed.consistent.inst?_of_mem hold
    rw [hp.inst b id _ hold (hp.keep_of_mem h hid) hk] at hi
    cases kind with
    | phi inc' =>
      cases hi
      obtain ⟨hty, hinc⟩ := ho.phi b id inc' o hb hold hk
      refine ⟨hty, fun q v he hq => ?_⟩
      obtain ⟨⟨q', u⟩, he', heq⟩ := List.mem_map.1 he
      cases heq
      obtain ⟨hu, hslot⟩ := hinc q' u he' (hp.sameGraph.reachable.1 hq)
      have hsome : (f.typeOf u).isSome = true := by rwa [hu]
      refine ⟨(hp.typeOf_read h hsome).trans hu, fun s hs => ?_⟩
      cases hown' : own s with
      | false => rfl
      | true =>
        rw [hslot s ((hp.rename_own h hown hown').1 hs)] at hown'
        cases hown'
    | _ => cases hi

/-- Typed code stays typed, and the slots that are left stay own slots. -/
theorem Promoted.orderly (hp : P.Promoted g ρ) (h : P.Sound) (hown : P.Owned own)
    (ho : f.Orderly own) (hr : f.Regular own) : g.Orderly own where
  wellFormed := hp.wellFormed h (ho.readsResults hr)
  typed := by
    intro b id i hb hid hi hphi
    have hb' := hp.sameGraph.reachable.1 hb
    obtain ⟨k, hold, hk, hkphi, rfl⟩ := hp.inst_cases h hid hi hphi
    exact Kind.typed_mapOperands (fun v hv => hp.typeOf_operand h ho hb' hold hk hkphi hv)
      (ho.typed b id k hb' hold hk hkphi)
  phi := fun _ _ _ _ hb hid hi => hp.typed_phi h hown ho (hp.sameGraph.reachable.1 hb) hid hi
  slot := by
    intro s hs b i hid hi
    obtain ⟨size, o, halloca⟩ := hown.alloca s hs
    rcases hp.mem_cases hid with ⟨n, hnew⟩ | hold
    · rw [h.inst?_phi hnew] at halloca
      cases halloca
    · rw [hp.inst b s _ hold (hp.keep_of_mem h hid) halloca] at hi
      cases hi
      rfl
  spares := by
    intro s hs b id i hb hid hi hphi
    obtain ⟨k, hold, hk, hkphi, rfl⟩ := hp.inst_cases h hid hi hphi
    exact Kind.spares_mapOperands (fun v _ => (hp.rename_own h hown hs).1)
      (ho.spares s hs b id k (hp.sameGraph.reachable.1 hb) hold hk hkphi)

theorem Promoted.regular (hp : P.Promoted g ρ) (h : P.Sound) (hown : P.Owned own)
    (ho : f.Orderly own) (hr : f.Regular own) : g.Regular own where
  slots := by
    intro b id i hb hid hi halloca
    have hphi : i.kind.isPhi = false := by
      cases hk : i.kind with
      | phi inc =>
        rw [hk] at halloca
        cases halloca
      | _ => rfl
    obtain ⟨k, hold, hk, _, rfl⟩ := hp.inst_cases h hid hi hphi
    rw [Kind.isAlloca_mapOperands] at halloca
    exact hr.slots b id k (hp.sameGraph.reachable.1 hb) hold hk halloca
  words := by
    intro b id i hb hid hi
    cases hphi : i.kind.isPhi with
    | true => exact Kind.wholeWords_of_isPhi hphi
    | false =>
      have hb' := hp.sameGraph.reachable.1 hb
      obtain ⟨k, hold, hk, hkphi, rfl⟩ := hp.inst_cases h hid hi hphi
      exact (hr.words b id k hb' hold hk).mapOperands fun v hv =>
        hp.typeOf_operand h ho hb' hold hk hkphi hv
  terms := by
    intro s hs b data' hb hdata' hmem
    rw [hp.block b] at hdata'
    obtain ⟨data, hdata, rfl⟩ := Option.map_eq_some_iff.1 hdata'
    rw [Terminator.operands_mapOperands] at hmem
    obtain ⟨v, hv, heq⟩ := List.mem_map.1 hmem
    rw [(hp.rename_own h hown hs).1 heq] at hv
    exact hr.terms s hs b data (hp.sameGraph.reachable.1 hb) hdata hv
  results := by
    intro b data' u hb hdata' hu
    rw [hp.block b] at hdata'
    obtain ⟨data, hdata, rfl⟩ := Option.map_eq_some_iff.1 hdata'
    rw [Terminator.operands_mapOperands] at hu
    obtain ⟨v, hv, rfl⟩ := List.mem_map.1 hu
    have hsome := hr.results b data v (hp.sameGraph.reachable.1 hb) hdata hv
    rwa [hp.typeOf_read h hsome]
  entry := by
    intro e id he hid
    rw [hp.entry] at he
    rcases hp.mem_cases hid with ⟨n, hnew⟩ | hold
    · have hentry := h.correct.entry
      rw [he] at hentry
      cases hentry
      exact absurd hnew (h.placed_entry n id)
    · rw [hp.isPhi_keep h hold (hp.keep_of_mem h hid)]
      exact hr.entry e id he hold

theorem Promoted.leaves (hp : P.Promoted g ρ) {act : Activation} (hl : act.Leaves f) :
    act.Leaves g := by
  refine hl.of_subset ?_ ?_
  · intro b data' hdata' w hw
    rw [hp.block b] at hdata'
    obtain ⟨data, hdata, rfl⟩ := Option.map_eq_some_iff.1 hdata'
    exact ⟨b, data, hdata, hw⟩
  · intro b data' u hdata' hu
    rw [hp.block b] at hdata'
    obtain ⟨data, hdata, rfl⟩ := Option.map_eq_some_iff.1 hdata'
    cases hterm : data.term with
    | indirect v => exact ⟨b, data, v, hdata, hterm⟩
    | ret v =>
      simp only [hterm, Terminator.mapOperands] at hu
      cases hu
    | _ =>
      simp only [hterm, Terminator.mapOperands] at hu
      cases hu

theorem Promoted.settled (hp : P.Promoted g ρ) (h : P.Sound) (hf : f.Settled) : g.Settled :=
  have hown := h.owned_slots hf.orderly
  settled_of (hp.orderly h hown hf.orderly hf.regular) (hp.regular h hown hf.orderly hf.regular)
    fun act => hp.leaves (hf.leaves act)

theorem Promoted.matched (hp : P.Promoted g ρ) (h : P.Sound) (hf : f.Settled) (act : Activation)
    (memory : Memory) (region : Word → Prop) : f.MatchedBy act memory region g := by
  intro n e m hrun
  have hown := h.owned_slots hf.orderly
  have hapart : f.run (act.withSlots f).apart memory n = some (e, m) :=
    (run_apart hf.wellFormed (hf.leaves _)).2 hrun
  obtain ⟨m', hrun', hcalls, hmemory, _⟩ := hp.run h hown rfl hapart
  have hg := hp.orderly h hown hf.orderly hf.regular
  have hback := (run_apart hg.wellFormed (hp.leaves (hf.leaves _))).1 hrun'
  have hslots : g.run ((act.withSlots f).withSlots g) memory n = some (e, m') :=
    run_withSlots hg (hp.regular h hown hf.orderly hf.regular)
      (fun act => hp.leaves (hf.leaves act)) hback
  exact ⟨n, m', hslots, hcalls, fun a _ => congrFun hmemory a⟩

end Promotion

namespace Func

variable {f : Func}

/-- However many slots are promoted, the function does what it did. -/
theorem promoteAllocas_matched (hf : f.Settled) {allocas : List InstId} (hnodup : allocas.Nodup)
    (halloca : ∀ s ∈ allocas, ∃ size o, f.inst? s = some ⟨.alloca size, o⟩) :
    ∃ g k, f.promoteAllocas allocas = .ok (g, k) ∧ g.Settled ∧ f.SameGraph g ∧
      ∀ act memory region, f.MatchedBy act memory region g := by
  obtain ⟨g, k, hpromote, hcases⟩ := promoteAllocas_spec hf.wellFormed hnodup halloca
  refine ⟨g, k, hpromote, ?_⟩
  rcases hcases with rfl | ⟨P, ρ, h, hp⟩
  · exact ⟨hf, .refl g, fun act memory region => .refl act memory region g⟩
  · exact ⟨hp.settled h hf, hp.sameGraph, hp.matched h hf⟩

theorem promoteSlots_matched (hf : f.Settled) :
    ∃ g changed, f.promoteSlots = .ok (g, changed) ∧ g.Settled ∧ f.SameGraph g ∧
      ∀ act memory region, f.MatchedBy act memory region g := by
  obtain ⟨allocas, hfilter, hnodup, halloca⟩ := hf.wellFormed.consistent.allocas
  obtain ⟨g, k, hpromote, hg⟩ := promoteAllocas_matched hf hnodup halloca
  refine ⟨g, decide (k > 0), ?_, hg⟩
  unfold promoteSlots
  rw [hfilter]
  simp only [bind, Except.bind, hpromote]
  rfl

end Func

end BinaryLift
