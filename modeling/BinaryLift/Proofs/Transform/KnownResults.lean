import BinaryLift.Proofs.Run.Computed
import BinaryLift.Proofs.Transform.Repeats
import BinaryLift.Transform.Numbering

/-!
# What a numbering knows

Three kinds of facts are remembered while blocks are scanned: that an instruction has the value of a
computation, that a phi merges certain values, and that memory holds a value at an address. An
instruction about which the same fact would be learned again repeats the value that is known.
-/

namespace BinaryLift

namespace Machine

variable {act : Activation} {f : Func} {m : Machine} {ty : Ty} {k : Kind}

/-- The order of commutative operands makes no difference. -/
theorem worth_sorted (k : Kind) : m.worth act f ty k.sorted = m.worth act f ty k := by
  cases k with
  | binary op x y =>
    simp only [Kind.sorted]
    split
    · rename_i hswap
      have hop : op.isCommutative = true := (Bool.and_eq_true_iff.1 hswap).1
      simp only [worth]
      cases hx : m.eval act f x with
      | none => cases m.eval act f y <;> rfl
      | some a =>
        cases hy : m.eval act f y with
        | none => rfl
        | some c => exact BinOp.fold_comm hop c a ty
    · rfl
  | _ => rfl

end Machine

namespace Func

variable {f : Func} {b p : BlockId} {pre before after : List InstId} {id j : InstId} {v : Value}
  {t : Replacements} {i : Inst}

/-! ### Computations -/

/-- Wherever the pure instruction `id` is at hand it has the value of the computation `key`. -/
structure Computes (f : Func) (key : Kind × Option Ty) (id : InstId) : Prop where
  inst : ∃ k, f.inst? id = some ⟨k, key.2⟩ ∧ k.isPure = true
  value : ∀ (act : Activation) memory b pre m, act.Leaves f → f.Orderly act.own →
    f.Visits act memory b pre m → f.Available b pre id →
      ∃ w, m.env id = some w ∧ m.worth act f (key.2.getD .i64) key.1 = some w

theorem Repeated.computes {k : Kind} {ty : Option Ty} (h : f.Repeated t) (hwf : f.WellFormed)
    (hi : f.inst? id = some ⟨k, ty⟩) (hpure : k.isPure = true) :
    f.Computes (k.mapOperands t.chase, ty) id where
  inst := ⟨k, hi, hpure⟩
  value := by
    intro act memory b pre m hl ho hvisit hid
    obtain ⟨w, hw, hcompute⟩ := hvisit.settled hwf hl hi hpure hid
    rw [Machine.compute_eq_worth hi hpure] at hcompute
    refine ⟨w, hw, Machine.worth_mapOperands (fun v _ => ?_) (fun v hv a ha => ?_) hcompute⟩
    · rw [wordTy, h.typeOf_chase hwf, wordTy]
    · have hat := hwf.operand_atHand (hvisit.reachable hwf hl) hvisit.pre_prefix hid hi
        (Kind.isPhi_of_pure hpure) hv
      exact h.eval_chase hl ho hvisit hat ha

namespace Computes

variable {key : Kind × Option Ty}

theorem sorted {k : Kind} {ty : Option Ty} (h : f.Computes (k, ty) id) :
    f.Computes (k.sorted, ty) id where
  inst := h.inst
  value := by
    intro act memory b pre m hl ho hvisit hid
    obtain ⟨w, hw, hworth⟩ := h.value act memory b pre m hl ho hvisit hid
    exact ⟨w, hw, (Machine.worth_sorted k).trans hworth⟩

theorem own (h : f.Computes key id) {own : InstId → Bool} (ho : f.Orderly own)
    (hid : id ∈ f.instsOf b) : own id = false := by
  obtain ⟨k, hk, hpure⟩ := h.inst
  exact ho.own_of_inst hid hk (Kind.isAlloca_of_pure hpure)

theorem repeats (h : f.Computes key id) (hj : f.Computes key j) (hwf : f.WellFormed)
    (hb : f.Reachable b) (hsplit : f.instsOf b = before ++ id :: after)
    (hav : f.Available b before j) : f.Repeats id (.inst j) where
  home := ⟨b, before, after, hb, hsplit, hav⟩
  idle := by
    intro i hi
    obtain ⟨k, hk, hpure⟩ := h.inst
    rw [hk] at hi
    cases hi
    exact Kind.hasSideEffects_of_pure hpure
  ty := by
    obtain ⟨k, hk, _⟩ := h.inst
    obtain ⟨l, hl, _⟩ := hj.inst
    rw [typeOf_inst hk, typeOf_inst hl]
  own := by
    intro own ho
    obtain ⟨c, hjc, _⟩ :=
      hwf.consistent.home_of_available hb (prefix_of_split hsplit).subset hav
    refine ⟨h.own ho (mem_of_split hsplit), ?_⟩
    rintro _ ⟨⟩
    exact hj.own ho (hwf.consistent.mem_instsOf.2 hjc)
  value := by
    intro act memory c pre m w hl ho hvisit hid hw
    have hjav := hwf.consistent.atHand_of_available (v := .inst j) hsplit hav
      (hvisit.reachable hwf hl) hvisit.pre_prefix hid
    obtain ⟨a, ha, hworth⟩ := h.value act memory c pre m hl ho hvisit hid
    obtain ⟨d, hd, hworth'⟩ := hj.value act memory c pre m hl ho hvisit hjav
    rw [hworth] at hworth'
    rw [hw] at ha
    cases ha
    cases hworth'
    exact hd

end Computes

/-! ### Phis -/

/-- The phi `id` of block `b` reads on every edge the value that `key` has for it. -/
structure Merges (f : Func) (b : BlockId) (key : List (BlockId × Value)) (id : InstId) : Prop where
  mem : id ∈ f.instsOf b
  inst : ∃ inc ty, f.inst? id = some ⟨.phi inc, ty⟩
  sole : ∀ q u v, f.Reachable q → f.Edge q b → (q, u) ∈ key → (q, v) ∈ key → u = v
  value : ∀ (act : Activation) memory q m w, act.Leaves f → f.Orderly act.own →
    f.Visits act memory q (f.instsOf q) m → f.Edge q b → m.phiWord act f (some q) id = some w →
      ∃ v, (q, v) ∈ key ∧ m.eval act f v = some w

theorem WellFormed.sole_incoming (hwf : f.WellFormed) {inc : List (BlockId × Value)}
    {ty : Option Ty} {q : BlockId} {u v : Value} (hid : id ∈ f.instsOf b)
    (hi : f.inst? id = some ⟨.phi inc, ty⟩) (hq : f.Reachable q) (hedge : f.Edge q b)
    (hu : (q, u) ∈ inc) (hv : (q, v) ∈ inc) : u = v := by
  obtain ⟨data, hdata, hmem⟩ := exists_block_of_mem hid
  have hcount := (hwf.incoming b data id inc ty hdata hmem hi).1 q hq hedge
  obtain ⟨l, r, rfl⟩ := List.append_of_mem hu
  rw [List.map_append, List.map_cons, List.count_append, List.count_cons_self] at hcount
  have hl : q ∉ l.map (·.1) := List.count_eq_zero.1 (by omega)
  have hr : q ∉ r.map (·.1) := List.count_eq_zero.1 (by omega)
  rcases List.mem_append.1 hv with hv | hv
  · exact absurd (List.mem_map.2 ⟨_, hv, rfl⟩) hl
  · rcases List.mem_cons.1 hv with heq | hv
    · exact (Prod.mk.inj heq).2.symm
    · exact absurd (List.mem_map.2 ⟨_, hv, rfl⟩) hr

theorem Repeated.merges {inc key : List (BlockId × Value)} {ty : Option Ty} (h : f.Repeated t)
    (hwf : f.WellFormed) (hb : f.Reachable b) (hid : id ∈ f.instsOf b)
    (hi : f.inst? id = some ⟨.phi inc, ty⟩)
    (hkey : key.Perm (inc.map fun e => (e.1, t.chase e.2))) : f.Merges b key id where
  mem := hid
  inst := ⟨inc, ty, hi⟩
  sole := by
    intro q u v hq hedge hu hv
    obtain ⟨⟨_, u₀⟩, hu₀, heq⟩ := List.mem_map.1 (hkey.subset hu)
    cases heq
    obtain ⟨⟨_, v₀⟩, hv₀, heq⟩ := List.mem_map.1 (hkey.subset hv)
    cases heq
    rw [hwf.sole_incoming hid hi hq hedge hu₀ hv₀]
  value := by
    intro act memory q m w hl ho hvisit hedge hw
    simp only [Machine.phiWord, hi] at hw
    obtain ⟨e, hfind, he⟩ := Option.bind_eq_some_iff.1 hw
    have hqe : e.1 = q := by simpa using List.find?_some hfind
    have hmem : (q, e.2) ∈ inc := hqe ▸ List.mem_of_find?_eq_some hfind
    have hq := hvisit.reachable hwf hl
    have hat := hwf.phiUse hb hid hi hmem hq
    exact ⟨t.chase e.2, hkey.symm.subset (List.mem_map.2 ⟨_, hmem, rfl⟩),
      h.eval_chase hl ho hvisit hat he⟩

namespace Merges

variable {key : List (BlockId × Value)}

theorem own (h : f.Merges b key id) {own : InstId → Bool} (ho : f.Orderly own) :
    own id = false := by
  obtain ⟨inc, ty, hi⟩ := h.inst
  exact ho.own_of_inst h.mem hi rfl

/-- Phis of one block that merge the same values are equal. -/
theorem repeats (h : f.Merges b key id) (hj : f.Merges b key j) (hwf : f.WellFormed)
    (hb : f.Reachable b) (hsplit : f.instsOf b = before ++ id :: after) (hjmem : j ∈ before)
    (hty : f.typeOf (.inst j) = f.typeOf (.inst id)) : f.Repeats id (.inst j) where
  home := ⟨b, before, after, hb, hsplit, .inl hjmem⟩
  idle := by
    intro i hi
    obtain ⟨inc, ty, hphi⟩ := h.inst
    rw [hphi] at hi
    cases hi
    rfl
  ty := hty
  own := by
    intro own ho
    refine ⟨h.own ho, ?_⟩
    rintro _ ⟨⟩
    exact hj.own ho
  value := by
    intro act memory c pre m w hl ho hvisit hid hw
    refine hvisit.equal (v := .inst j) hwf hl hsplit (.inl hjmem) ?_ ?_ hid w hw
    · intro m m₁ _ hexec
      obtain ⟨inc, ty, hi⟩ := h.inst
      rw [Machine.exec_phi hi] at hexec
      cases hexec
    · intro q m m₁ hvisit hq hedge hmem henter w hw
      obtain ⟨inc, ty, hj'⟩ := hj.inst
      have hjphi : j ∈ f.phisOf b := hwf.mem_phisOf hj.mem (by rw [isPhi_inst hj']; rfl)
      obtain ⟨hall, rfl⟩ := Machine.enter_eq_some.1 henter
      obtain ⟨x, hx⟩ := hall id hmem
      obtain ⟨y, hy⟩ := hall j hjphi
      obtain ⟨u, hu, hux⟩ := h.value act memory q m x hl ho hvisit hedge hx
      obtain ⟨v, hv, hvy⟩ := hj.value act memory q m y hl ho hvisit hedge hy
      rw [h.sole q u v hq hedge hu hv, hvy] at hux
      cases hux
      simp only [hmem, if_true, hx, Option.map_some] at hw
      simp only [Machine.eval, hjphi, if_true, hy, Option.map_some, wordTy, hty]
      exact hw

end Merges

/-! ### Memory -/

/-- Whenever control is in block `b` behind `pre`, memory has the value `v` at the address and type
of the key. -/
structure Holds (f : Func) (b : BlockId) (pre : List InstId) (key : Value × Ty) (v : Value) :
    Prop where
  address : f.AtHand b pre key.1
  atHand : f.AtHand b pre v
  ty : f.typeOf v = some key.2
  own : ∀ own, f.Orderly own → ∀ s, v = .inst s → own s = false
  value : ∀ (act : Activation) memory m, act.Leaves f → f.Orderly act.own →
    f.Visits act memory b pre m → ∃ a, m.eval act f key.1 = some a ∧
      m.eval act f v = some (m.read key.2 (act.place key.1 a))

theorem Consistent.eval_exec {act : Activation} {m m₁ : Machine} (hc : f.Consistent)
    (hsplit : f.instsOf b = before ++ id :: after) (hv : f.AtHand b before v)
    (hexec : m.exec act f id = some m₁) : m₁.eval act f v = m.eval act f v := by
  refine Machine.eval_congr fun o ho => ?_
  rw [ho] at hv
  exact Machine.env_exec hexec (hc.ne_of_available hsplit hv)

namespace Holds

variable {key : Value × Ty} {ty : Ty}

/-- What has no effects leaves memory as it is. -/
theorem idle (h : f.Holds b before key v) (hwf : f.WellFormed)
    (hsplit : f.instsOf b = before ++ id :: after) (hi : f.inst? id = some i)
    (hphi : i.kind.isPhi = false) (hidle : i.kind.hasSideEffects = false) :
    f.Holds b (before ++ [id]) key v where
  address := h.address.mono (List.subset_append_left _ _)
  atHand := h.atHand.mono (List.subset_append_left _ _)
  ty := h.ty
  own := h.own
  value := by
    intro act memory m₁ hl ho hvisit
    obtain ⟨m, hvisit', hexec⟩ := hvisit.of_snoc (by rw [isPhi_inst hi, hphi])
    obtain ⟨a, ha, hv⟩ := h.value act memory m hl ho hvisit'
    have hc := hwf.consistent
    have halike := Machine.alike_of_idle hi hidle hexec
    refine ⟨a, (hc.eval_exec hsplit h.address hexec).trans ha, ?_⟩
    rw [hc.eval_exec hsplit h.atHand hexec, hv, halike.read]

/-- What is there at the end of the only way into a block is there when it has been entered. -/
theorem enter (h : f.Holds p (f.instsOf p) key v) (hwf : f.WellFormed) (hb : f.Reachable b)
    (hentry : f.entry ≠ some b) (hdom : f.StrictlyDominates p b)
    (hsole : ∀ q, f.Reachable q → f.Edge q b → q = p) : f.Holds b (f.phisOf b) key v := by
  have hdown : ∀ {u}, f.AtHand p (f.instsOf p) u → f.AtHand b [] u := by
    intro u hu
    obtain ⟨data, hdata⟩ := containsBlock_iff.1 (hdom.2.reachable hb).live
    cases u with
    | const k => trivial
    | arg n => trivial
    | inst o => exact available_down hu hdata (instsOf_eq hdata ▸ List.Subset.refl _) hb hdom
  refine ⟨(hdown h.address).mono (List.nil_subset _), (hdown h.atHand).mono (List.nil_subset _), h.ty,
    h.own, fun act memory m₁ hl ho hvisit => ?_⟩
  rcases hvisit.of_phis with ⟨he, _⟩ | ⟨q, data, m, hvisit', hdata, hnext, henter⟩
  · exact absurd he hentry
  · have hq := hvisit'.reachable hwf hl
    have hqp := hsole q hq (hwf.edge hdata (Machine.mem_successors_of_goto hl hdata hnext))
    subst hqp
    obtain ⟨a, ha, hv⟩ := h.value act memory m hl ho hvisit'
    have hsame : ∀ {u}, f.AtHand b [] u → m₁.eval act f u = m.eval act f u := by
      intro u hu
      refine Machine.eval_congr fun o ho => Machine.env_enter henter fun hmem => ?_
      rw [ho] at hu
      exact hwf.consistent.notMem_of_available hu ((f.phisOf_prefix b).subset hmem)
    refine ⟨a, (hsame (hdown h.address)).trans ha, ?_⟩
    rw [hsame (hdown h.atHand), hv]
    obtain ⟨_, rfl⟩ := Machine.enter_eq_some.1 henter
    cases act.place key.1 a <;> rfl

/-- A load from an address whose contents are known repeats them. -/
theorem repeats {q : Value} (h : f.Holds b before (t.chase q, ty) v) (hr : f.Repeated t)
    (hwf : f.WellFormed) (hb : f.Reachable b) (hsplit : f.instsOf b = before ++ id :: after)
    (hi : f.inst? id = some ⟨.load q, some ty⟩) : f.Repeats id v where
  home := ⟨b, before, after, hb, hsplit, h.atHand⟩
  idle := by
    intro i hi'
    rw [hi] at hi'
    cases hi'
    rfl
  ty := by rw [h.ty, typeOf_inst hi]
  own := fun own ho => ⟨ho.own_of_inst (mem_of_split hsplit) hi rfl, h.own own ho⟩
  value := by
    intro act memory c pre m w hl ho hvisit hid hw
    refine hvisit.equal hwf hl hsplit h.atHand ?_ ?_ hid w hw
    · intro m m₁ hvisit hexec w hw
      rw [hwf.consistent.eval_exec hsplit h.atHand hexec]
      obtain ⟨a, ha, hv⟩ := h.value act memory m hl ho hvisit
      obtain ⟨a', ha', rfl⟩ := (Machine.exec_load hi).1 hexec
      have hq := hwf.use hb hsplit hi rfl (v := q) List.mem_cons_self
      have hchase := hr.eval_chase hl ho hvisit hq ha'
      rw [ha] at hchase
      cases hchase
      rw [hv, (hr.standsIn ho).place hwf.consistent hb (prefix_of_split hsplit) hq]
      simp only [Machine.define, if_true, wordTy_inst hi, Option.getD_some] at hw
      rwa [m.read_fits ty] at hw
    · intro q' m m₁ _ _ _ hmem
      have hphi := of_mem_takeWhile hmem
      rw [isPhi_inst hi] at hphi
      cases hphi

end Holds

/-- A load leaves the loaded value as what is there. -/
theorem Repeated.holds_load {q : Value} {ty : Ty} (hr : f.Repeated t) (hwf : f.WellFormed)
    (hb : f.Reachable b) (hsplit : f.instsOf b = before ++ id :: after)
    (hi : f.inst? id = some ⟨.load q, some ty⟩) :
    f.Holds b (before ++ [id]) (t.chase q, ty) (.inst id) := by
  have hq := hwf.use hb hsplit hi rfl (v := q) List.mem_cons_self
  have hat := hr.atHand_chase hwf hb (prefix_of_split hsplit) hq
  refine ⟨hat.mono (List.subset_append_left _ _), .inl (by simp), typeOf_inst hi, ?_, ?_⟩
  · rintro own ho _ ⟨⟩
    exact ho.own_of_inst (mem_of_split hsplit) hi rfl
  · intro act memory m₁ hl ho hvisit
    obtain ⟨m, hvisit', hexec⟩ := hvisit.of_snoc (isPhi_inst hi)
    have hsame := hwf.consistent.eval_exec hsplit hat hexec
    have halike := Machine.alike_of_idle hi rfl hexec
    obtain ⟨a, ha, hm₁⟩ := (Machine.exec_load hi).1 hexec
    refine ⟨a, hsame.trans (hr.eval_chase hl ho hvisit' hq ha), ?_⟩
    rw [(hr.standsIn ho).place hwf.consistent hb (prefix_of_split hsplit) hq, halike.read, hm₁]
    simp only [Machine.eval, Machine.define, if_true, wordTy_inst hi, Option.getD_some]
    rw [m.read_fits ty]

/-- A store leaves the stored value as what is there. -/
theorem Repeated.holds_store {q u : Value} {ty : Ty} {o : Option Ty} (hr : f.Repeated t)
    (hwf : f.WellFormed) (hb : f.Reachable b) (hsplit : f.instsOf b = before ++ id :: after)
    (hi : f.inst? id = some ⟨.store q u, o⟩) (hty : f.typeOf (t.chase u) = some ty) :
    f.Holds b (before ++ [id]) (t.chase q, ty) (t.chase u) := by
  have hpre := prefix_of_split hsplit
  have hq := hwf.use hb hsplit hi rfl (v := q) List.mem_cons_self
  have hu := hwf.use hb hsplit hi rfl (v := u) (List.mem_cons_of_mem _ List.mem_cons_self)
  have hq' := hr.atHand_chase hwf hb hpre hq
  have hu' := hr.atHand_chase hwf hb hpre hu
  refine ⟨hq'.mono (List.subset_append_left _ _), hu'.mono (List.subset_append_left _ _), hty, ?_, ?_⟩
  · intro own ho s hs
    cases hown : own s with
    | false => rfl
    | true =>
      have hus := ((hr.standsIn ho).same_slot hwf.consistent hb hpre hu hown).1 hs
      exact absurd hus (ho.spares s hown b id _ hb (mem_of_split hsplit) hi rfl)
  · intro act memory m₁ hl ho hvisit
    obtain ⟨m, hvisit', hexec⟩ := hvisit.of_snoc (isPhi_inst hi)
    have hqsame := hwf.consistent.eval_exec hsplit hq' hexec
    have husame := hwf.consistent.eval_exec hsplit hu' hexec
    obtain ⟨a, w, ha, hw, hm₁⟩ := (Machine.exec_store hi).1 hexec
    refine ⟨a, hqsame.trans (hr.eval_chase hl ho hvisit' hq ha), ?_⟩
    rw [husame, hr.eval_chase hl ho hvisit' hu hw,
      (hr.standsIn ho).place hwf.consistent hb hpre hq, hm₁]
    have hwordTy : f.wordTy u = ty := by rw [wordTy, ← hr.typeOf_chase hwf u, hty, Option.getD_some]
    rw [hwordTy, m.read_write (hwordTy ▸ hvisit'.tame.eval hw)]

end Func

end BinaryLift
