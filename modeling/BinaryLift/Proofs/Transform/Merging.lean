import BinaryLift.Proofs.Transform.Contraction

/-!
# A block joined to its predecessor

A block without phis whose only predecessor jumps nowhere else is appended there. What stood in the
block now stands behind the instructions of the predecessor, and phis that received a value from the
block receive it from the predecessor.
-/

namespace BinaryLift.Func

variable {f g : Func} {act : Activation} {a b c x y pred : BlockId} {pre : List InstId}
  {id j : InstId} {pdata bdata : Block}

theorem find?_congr {α : Type} {p q : α → Bool} {l : List α} (h : ∀ a ∈ l, p a = q a) :
    l.find? p = l.find? q := by
  induction l with
  | nil => rfl
  | cons a l ih =>
    rw [List.find?_cons, List.find?_cons, h a List.mem_cons_self,
      ih fun c hc => h c (List.mem_cons_of_mem _ hc)]

/-- The block in which the instructions of `x` stand when `b` has been appended to `pred`. -/
def movedTo (pred b x : BlockId) : BlockId := if x = b then pred else x

/-- The function `g` is `f` with the block `b` appended to `pred`. -/
structure Merged (f g : Func) (pred b : BlockId) (pdata bdata : Block) : Prop where
  params : g.params = f.params
  entry : g.entry = f.entry
  ty : ∀ id, (g.inst? id).map (·.ty) = (f.inst? id).map (·.ty)
  ne : pred ≠ b
  ne_entry : f.entry ≠ some b
  into : f.block? pred = some pdata
  jumps : pdata.term = .jump b
  source : f.block? b = some bdata
  sole : ∀ x, f.Edge x b → x = pred
  noPhis : ∀ id ∈ bdata.insts, f.isPhi id = false
  block : ∀ x, g.block? x = if x = b then none else if x = pred then
    some { pdata with insts := pdata.insts ++ bdata.insts, term := bdata.term } else f.block? x
  instBlock : ∀ id, g.instBlock id = (f.instBlock id).map (movedTo pred b)
  inst : ∀ x id i, id ∈ f.instsOf x → f.inst? id = some i → g.inst? id =
    some ⟨i.kind.mapIncoming (·.map fun e => (movedTo pred b e.1, e.2)), i.ty⟩

namespace Merged

theorem typeOf (h : f.Merged g pred b pdata bdata) (v : Value) : g.typeOf v = f.typeOf v :=
  typeOf_congr h.params h.ty v

theorem block_pred (h : f.Merged g pred b pdata bdata) : g.block? pred =
    some { pdata with insts := pdata.insts ++ bdata.insts, term := bdata.term } := by
  rw [h.block, if_neg h.ne, if_pos rfl]

theorem block_other (h : f.Merged g pred b pdata bdata) (hb : x ≠ b) (hp : x ≠ pred) :
    g.block? x = f.block? x := by
  rw [h.block, if_neg hb, if_neg hp]

theorem containsBlock (h : f.Merged g pred b pdata bdata) (hx : x ≠ b) :
    g.containsBlock x = f.containsBlock x := by
  by_cases hp : x = pred
  · subst hp
    rw [Func.containsBlock, Func.containsBlock, h.block_pred, h.into]
    rfl
  · rw [Func.containsBlock, Func.containsBlock, h.block_other hx hp]

/-- Where the instructions of a block of `f` are in `g`. -/
theorem instsOf (h : f.Merged g pred b pdata bdata) (hx : x ≠ b) :
    g.instsOf x = f.instsOf x ++ if x = pred then f.instsOf b else [] := by
  by_cases hp : x = pred
  · subst hp
    rw [instsOf_eq h.block_pred, instsOf_eq h.into, instsOf_eq h.source, if_pos rfl]
  · rw [if_neg hp, List.append_nil, Func.instsOf, Func.instsOf, h.block_other hx hp]

theorem edge_pred (h : f.Merged g pred b pdata bdata) : f.Edge pred y ↔ y = b := by
  constructor
  · rintro ⟨data, hdata, hs, _⟩
    rw [h.into] at hdata
    cases hdata
    rw [h.jumps] at hs
    exact List.mem_singleton.1 hs
  · rintro rfl
    refine ⟨pdata, h.into, ?_, containsBlock_iff.2 ⟨bdata, h.source⟩⟩
    rw [h.jumps]
    exact List.mem_singleton_self _

theorem contracts (h : f.Merged g pred b pdata bdata) : f.Contracts g b := by
  have hloop : ¬ f.Edge b b := fun hbb => h.ne (h.sole b hbb).symm
  refine ⟨h.entry, h.ne_entry, fun x hx => h.containsBlock hx, hloop, fun x y hx => ?_⟩
  by_cases hp : x = pred
  · subst hp
    constructor
    · rintro ⟨data, hdata, hs, hlive⟩
      rw [h.block_pred] at hdata
      cases hdata
      have hy : y ≠ b := by
        rintro rfl
        rw [Func.containsBlock, h.block, if_pos rfl] at hlive
        cases hlive
      rw [h.containsBlock hy] at hlive
      exact ⟨hy, .inr ⟨h.edge_pred.2 rfl, bdata, h.source, hs, hlive⟩⟩
    · rintro ⟨hy, hxy | ⟨_, data, hdata, hs, hlive⟩⟩
      · exact absurd (h.edge_pred.1 hxy) hy
      · rw [h.source] at hdata
        cases hdata
        exact ⟨_, h.block_pred, hs, by rw [h.containsBlock hy]; exact hlive⟩
  · have hnot : ¬ f.Edge x b := fun hxb => hp (h.sole x hxb)
    constructor
    · rintro ⟨data, hdata, hs, hlive⟩
      rw [h.block_other hx hp] at hdata
      have hy : y ≠ b := by
        rintro rfl
        rw [Func.containsBlock, h.block, if_pos rfl] at hlive
        cases hlive
      rw [h.containsBlock hy] at hlive
      exact ⟨hy, .inl ⟨data, hdata, hs, hlive⟩⟩
    · rintro ⟨hy, ⟨data, hdata, hs, hlive⟩ | ⟨hxb, _⟩⟩
      · exact ⟨data, by rw [h.block_other hx hp, hdata], hs, by rw [h.containsBlock hy]; exact hlive⟩
      · exact absurd hxb hnot

theorem strictly_pred (h : f.Merged g pred b pdata bdata) : f.StrictlyDominates pred b :=
  strictly_of_sole h.ne h.ne_entry h.sole

theorem mem_instsOf (h : f.Merged g pred b pdata bdata) (hx : x ≠ b) :
    id ∈ g.instsOf x ↔ ∃ y, movedTo pred b y = x ∧ id ∈ f.instsOf y := by
  rw [h.instsOf hx, List.mem_append]
  constructor
  · rintro (hid | hid)
    · exact ⟨x, if_neg hx, hid⟩
    · by_cases hp : x = pred
      · rw [if_pos hp] at hid
        exact ⟨b, by rw [hp]; exact if_pos rfl, hid⟩
      · rw [if_neg hp] at hid
        cases hid
  · rintro ⟨y, hy, hid⟩
    unfold movedTo at hy
    split at hy
    · rename_i hyb
      rw [hyb] at hid
      rw [if_pos hy.symm]
      exact .inr hid
    · rw [hy] at hid
      exact .inl hid

/-- Control comes to where an instruction is now only if it came to where it was. -/
theorem reachable_home (h : f.Merged g pred b pdata bdata) (hx : g.Reachable x)
    (hy : movedTo pred b y = x) : f.Reachable y := by
  have hx' := h.contracts.reachable hx
  unfold movedTo at hy
  split at hy
  · rename_i hyb
    subst hy
    rw [hyb]
    exact hx'.step (h.edge_pred.2 rfl)
  · rw [hy]
    exact hx'

/-! ### What is at hand -/

theorem available (h : f.Merged g pred b pdata bdata) (hc : f.Reachable c)
    (hj : f.Available c pre j) : g.Available c pre j := by
  rcases hj with hj | ⟨a, data, hdom, hdata, hj⟩
  · exact .inl hj
  · have hja : j ∈ f.instsOf a := by
      rw [instsOf_eq hdata]
      exact hj
    have hhome : ∀ y, y ≠ b → g.StrictlyDominates y c → j ∈ g.instsOf y → g.Available c pre j := by
      intro y _ hdom' hmem
      obtain ⟨d, hd, hjd⟩ := exists_block_of_mem hmem
      exact .inr ⟨y, d, hdom', hd, hjd⟩
    by_cases hab : a = b
    · subst hab
      refine hhome pred h.ne (h.contracts.strictly h.ne ?_) ((h.mem_instsOf h.ne).2 ⟨a, if_pos rfl, hja⟩)
      exact h.strictly_pred.trans_dominates hc hdom.2
    · exact hhome a hab (h.contracts.strictly hab hdom) ((h.mem_instsOf hab).2 ⟨a, if_neg hab, hja⟩)

theorem available_moved (h : f.Merged g pred b pdata bdata) (hb : f.Reachable b)
    (hj : f.Available b pre j) : g.Available pred (f.instsOf pred ++ pre) j := by
  rcases hj with hj | ⟨a, data, hdom, hdata, hj⟩
  · exact .inl (List.mem_append_right _ hj)
  · by_cases hap : a = pred
    · subst hap
      rw [← instsOf_eq hdata] at hj
      exact .inl (List.mem_append_left _ hj)
    · have hpred : f.Reachable pred := h.strictly_pred.2.reachable hb
      have hdom' : f.StrictlyDominates a pred := ⟨hap, hdom.of_edge (h.edge_pred.2 rfl)⟩
      have hav : g.Available pred [] j := h.available hpred (.inr ⟨a, data, hdom', hdata, hj⟩)
      exact available_mono hav (List.nil_subset _)

theorem available_end (h : f.Merged g pred b pdata bdata) (hy : f.Reachable y)
    (hj : f.Available y (f.instsOf y) j) :
    g.Available (movedTo pred b y) (g.instsOf (movedTo pred b y)) j := by
  by_cases hyb : y = b
  · subst hyb
    rw [movedTo, if_pos rfl, h.instsOf h.ne, if_pos rfl]
    exact h.available_moved hy hj
  · rw [movedTo, if_neg hyb]
    refine available_mono (h.available hy hj) ?_
    rw [h.instsOf hyb]
    exact List.subset_append_left _ _

/-! ### Phis -/

theorem movedTo_ne (h : f.Merged g pred b pdata bdata) (x : BlockId) : movedTo pred b x ≠ b := by
  unfold movedTo
  split
  · exact h.ne
  · assumption

theorem isPhi (h : f.Merged g pred b pdata bdata) (hc : f.Consistent) (hid : id ∈ f.instsOf x) :
    g.isPhi id = f.isPhi id := by
  obtain ⟨i, hi⟩ := hc.inst?_of_mem hid
  rw [isPhi_inst hi, isPhi_inst (h.inst x id i hid hi)]
  cases i.kind <;> rfl

theorem inst_of_mem (h : f.Merged g pred b pdata bdata) (hc : f.Consistent) (hid : id ∈ f.instsOf x)
    {k : Inst} (hk : g.inst? id = some k) (hphi : k.kind.isPhi = false) : f.inst? id = some k := by
  obtain ⟨⟨kind, o⟩, hi⟩ := hc.inst?_of_mem hid
  rw [h.inst x id _ hid hi] at hk
  cases hk
  cases kind with
  | phi inc => cases hphi
  | _ => exact hi

theorem phi_of_mem (h : f.Merged g pred b pdata bdata) (hc : f.Consistent) (hid : id ∈ f.instsOf x)
    {inc' : List (BlockId × Value)} {ty : Option Ty} (hk : g.inst? id = some ⟨.phi inc', ty⟩) :
    ∃ inc, f.inst? id = some ⟨.phi inc, ty⟩ ∧
      inc' = inc.map fun e => (movedTo pred b e.1, e.2) := by
  obtain ⟨⟨kind, o⟩, hi⟩ := hc.inst?_of_mem hid
  rw [h.inst x id _ hid hi] at hk
  cases kind with
  | phi inc =>
    cases hk
    exact ⟨inc, hi, rfl⟩
  | _ => cases hk

/-- A phi stands in another block, and nothing comes to it from the predecessor. -/
theorem phi_block (h : f.Merged g pred b pdata bdata) (hwf : f.WellFormed) (hid : id ∈ f.instsOf x)
    {inc : List (BlockId × Value)} {ty : Option Ty} (hi : f.inst? id = some ⟨.phi inc, ty⟩) :
    x ≠ b ∧ ∀ e ∈ inc, f.Edge e.1 x ∧ e.1 ≠ pred := by
  have hxb : x ≠ b := by
    rintro rfl
    rw [instsOf_eq h.source] at hid
    have hphi := h.noPhis id hid
    rw [isPhi_inst hi] at hphi
    cases hphi
  refine ⟨hxb, fun e he => ?_⟩
  have hedge := (hwf.hears hid hi).edge e.1 (List.mem_map.2 ⟨e, he, rfl⟩)
  refine ⟨hedge, ?_⟩
  intro heq
  rw [heq, h.edge_pred] at hedge
  exact hxb hedge

theorem movedTo_inj {q q' : BlockId} (hq : q ≠ pred) (hq' : q' ≠ pred)
    (heq : movedTo pred b q = movedTo pred b q') : q = q' := by
  unfold movedTo at heq
  split at heq
  · split at heq
    · rename_i h₁ h₂
      rw [h₁, h₂]
    · exact absurd heq.symm hq'
  · split at heq
    · exact absurd heq hq
    · exact heq

theorem count_moved {q : BlockId} {l : List BlockId} (hl : ∀ p ∈ l, p ≠ pred) (hq : q ≠ pred) :
    (l.map (movedTo pred b)).count (movedTo pred b q) = l.count q := by
  induction l with
  | nil => rfl
  | cons p l ih =>
    have hp : movedTo pred b p = movedTo pred b q ↔ p = q :=
      ⟨movedTo_inj (hl p List.mem_cons_self) hq, fun heq => by rw [heq]⟩
    rw [List.map_cons, List.count_cons, List.count_cons,
      ih fun a ha => hl a (List.mem_cons_of_mem _ ha)]
    simp only [beq_iff_eq, hp]

theorem edge_moved (h : f.Merged g pred b pdata bdata) {q : BlockId} (hedge : f.Edge q x)
    (hx : x ≠ b) : g.Edge (movedTo pred b q) x := by
  by_cases hqb : q = b
  · subst hqb
    rw [movedTo, if_pos rfl]
    exact (h.contracts.edge pred x h.ne).2 ⟨hx, .inr ⟨h.edge_pred.2 rfl, hedge⟩⟩
  · rw [movedTo, if_neg hqb]
    exact (h.contracts.edge q x hqb).2 ⟨hx, .inl hedge⟩

/-- Every edge was there before, from the block that came last. -/
theorem edge_home (h : f.Merged g pred b pdata bdata) {q : BlockId} (hq : g.Reachable q)
    (hedge : g.Edge q x) :
    ∃ q', q' ≠ pred ∧ movedTo pred b q' = q ∧ f.Reachable q' ∧ f.Edge q' x := by
  have hqb := h.contracts.ne_of_reachable hq
  obtain ⟨hx, hqx | ⟨hqb', hbx⟩⟩ := (h.contracts.edge q x hqb).1 hedge
  · refine ⟨q, ?_, if_neg hqb, h.contracts.reachable hq, hqx⟩
    rintro rfl
    exact hx (h.edge_pred.1 hqx)
  · have hqp := h.sole q hqb'
    subst hqp
    exact ⟨b, h.ne.symm, if_pos rfl, (h.contracts.reachable hq).step hqb', hbx⟩

/-- Behind the phis of a block and in what is appended to it there are no phis. -/
theorem isPhi_rest (h : f.Merged g pred b pdata bdata) (hwf : f.WellFormed)
    (hid : id ∈ (f.instsOf x).dropWhile f.isPhi ++ if x = pred then f.instsOf b else []) :
    f.isPhi id = false ∧ g.isPhi id = false := by
  have hold : ∃ y, id ∈ f.instsOf y ∧ f.isPhi id = false := by
    rcases List.mem_append.1 hid with hid | hid
    · exact ⟨x, (List.dropWhile_suffix f.isPhi).subset hid, hwf.isPhi_behind hid⟩
    · split at hid
      · refine ⟨b, hid, h.noPhis id ?_⟩
        rwa [← instsOf_eq h.source]
      · cases hid
  obtain ⟨y, hmem, hphi⟩ := hold
  exact ⟨hphi, by rw [h.isPhi hwf.consistent hmem, hphi]⟩

theorem split_phis (h : f.Merged g pred b pdata bdata) (hwf : f.WellFormed) (hx : x ≠ b) :
    (g.instsOf x).takeWhile g.isPhi = f.phisOf x ∧ (g.instsOf x).dropWhile g.isPhi =
      (f.instsOf x).dropWhile f.isPhi ++ if x = pred then f.instsOf b else [] := by
  have hsplit : g.instsOf x = f.phisOf x ++
      ((f.instsOf x).dropWhile f.isPhi ++ if x = pred then f.instsOf b else []) := by
    rw [h.instsOf hx, ← List.append_assoc, phisOf, List.takeWhile_append_dropWhile]
  have hphis : ∀ id ∈ f.phisOf x, g.isPhi id = true := by
    intro id hid
    rw [h.isPhi hwf.consistent ((f.phisOf_prefix x).subset hid)]
    exact of_mem_takeWhile hid
  have hhead : ∀ id, ((f.instsOf x).dropWhile f.isPhi ++
      if x = pred then f.instsOf b else []).head? = some id → g.isPhi id = false :=
    fun id hid => (h.isPhi_rest hwf (List.mem_of_head? hid)).2
  rw [hsplit]
  exact ⟨takeWhile_append_of_all hphis hhead, dropWhile_append_of_all hphis hhead⟩

/-! ### Well-formedness -/

theorem ne_source (h : f.Merged g pred b pdata bdata) {data' : Block}
    (hdata' : g.block? x = some data') : x ≠ b := by
  rintro rfl
  rw [h.block, if_pos rfl] at hdata'
  cases hdata'

theorem consistent (h : f.Merged g pred b pdata bdata) (hc : f.Consistent) : g.Consistent := by
  refine ⟨?_, ?_, ?_⟩
  · intro x data' hdata' id
    rw [← instsOf_eq hdata', h.mem_instsOf (h.ne_source hdata'), h.instBlock id]
    simp only [hc.mem_instsOf]
    constructor
    · rintro ⟨y, hy, hid⟩
      rw [hid, Option.map_some, hy]
    · intro hid
      obtain ⟨y, hy, hyx⟩ := Option.map_eq_some_iff.1 hid
      exact ⟨y, hyx, hy⟩
  · intro id x hx
    rw [h.instBlock id] at hx
    obtain ⟨y, hy, rfl⟩ := Option.map_eq_some_iff.1 hx
    have hlive := hc.live id y hy
    rw [h.containsBlock (h.movedTo_ne y)]
    unfold movedTo
    split
    · exact containsBlock_iff.2 ⟨pdata, h.into⟩
    · exact hlive
  · intro x data' hdata'
    rw [← instsOf_eq hdata', h.instsOf (h.ne_source hdata')]
    split
    · rename_i hp
      refine List.nodup_append.2 ⟨hc.nodup_instsOf x, hc.nodup_instsOf b, ?_⟩
      rintro i hi j hj rfl
      exact h.ne_source hdata' (hc.same_block hi hj)
    · rw [List.append_nil]
      exact hc.nodup_instsOf x

/-- The uses of an instruction are at hand where it stands now. -/
theorem use (h : f.Merged g pred b pdata bdata) (hwf : f.WellFormed) (hx : g.Reachable x)
    {before after : List InstId} {i : Inst} (hsplit : g.instsOf x = before ++ id :: after)
    (hi : g.inst? id = some i) (hphi : i.kind.isPhi = false) (hj : .inst j ∈ i.kind.operands) :
    g.Available x before j := by
  have hxb := h.contracts.ne_of_reachable hx
  have hx' := h.contracts.reachable hx
  rw [h.instsOf hxb, List.append_eq_append_iff] at hsplit
  have hstays : ∀ after', f.instsOf x = before ++ id :: after' → g.Available x before j := by
    intro after' hsplit'
    have hi' := h.inst_of_mem hwf.consistent (mem_of_split hsplit') hi hphi
    exact h.available hx' (hwf.use (v := .inst j) hx' hsplit' hi' hphi hj)
  have hmoves : ∀ before', before = f.instsOf x ++ before' →
      (if x = pred then f.instsOf b else []) = before' ++ id :: after → g.Available x before j := by
    intro before' hbefore hsplit'
    by_cases hxp : x = pred
    · subst hxp
      rw [if_pos rfl] at hsplit'
      have hi' := h.inst_of_mem hwf.consistent (mem_of_split hsplit') hi hphi
      have hb := hx'.step (h.edge_pred.2 rfl)
      rw [hbefore]
      exact h.available_moved hb (hwf.use (v := .inst j) hb hsplit' hi' hphi hj)
    · rw [if_neg hxp] at hsplit'
      simp at hsplit'
  rcases hsplit with ⟨before', hbefore, hsplit'⟩ | ⟨rest, hold, hnew⟩
  · exact hmoves before' hbefore hsplit'
  · cases rest with
    | nil => exact hmoves [] (by rw [hold, List.append_nil, List.append_nil]) hnew.symm
    | cons r rest =>
      rw [List.cons_append, List.cons.injEq] at hnew
      exact hstays rest (by rw [hold, hnew.1])

/-- Every terminator was there before, and none was that of the predecessor. -/
theorem term_old (h : f.Merged g pred b pdata bdata) {data' : Block} (hdata' : g.block? x = some data') :
    ∃ y data, y ≠ pred ∧ movedTo pred b y = x ∧ f.block? y = some data ∧ data'.term = data.term := by
  by_cases hp : x = pred
  · subst hp
    rw [h.block_pred] at hdata'
    cases hdata'
    exact ⟨b, bdata, h.ne.symm, if_pos rfl, h.source, rfl⟩
  · have hxb := h.ne_source hdata'
    rw [h.block_other hxb hp] at hdata'
    exact ⟨x, data', hp, if_neg hxb, hdata', rfl⟩

theorem targets (h : f.Merged g pred b pdata bdata) (hwf : f.WellFormed) {data' : Block}
    (hdata' : g.block? x = some data') {s : BlockId} (hs : s ∈ data'.term.successors) :
    g.containsBlock s = true := by
  obtain ⟨y, data, hyp, _, hdata, heq⟩ := h.term_old hdata'
  rw [heq] at hs
  have hedge := hwf.edge hdata hs
  have hsb : s ≠ b := by
    rintro rfl
    exact hyp (h.sole y hedge)
  rw [h.containsBlock hsb]
  exact hwf.targets y data hdata s hs

/-- A phi hears from the block that joined its predecessor as from the predecessor. -/
theorem hears (h : f.Merged g pred b pdata bdata) (hwf : f.WellFormed) (hid : id ∈ g.instsOf x)
    {inc' : List (BlockId × Value)} {ty : Option Ty} (hi' : g.inst? id = some ⟨.phi inc', ty⟩) :
    g.Hears x (inc'.map (·.1)) := by
  obtain ⟨_, hdata', _⟩ := exists_block_of_mem hid
  obtain ⟨y, hy, hold⟩ := (h.mem_instsOf (h.ne_source hdata')).1 hid
  obtain ⟨inc, hi, rfl⟩ := h.phi_of_mem hwf.consistent hold hi'
  obtain ⟨hyb, hinc⟩ := h.phi_block hwf hold hi
  rw [movedTo, if_neg hyb] at hy
  subst hy
  have hmap : (inc.map fun e => (movedTo pred b e.1, e.2)).map (·.1) =
      (inc.map (·.1)).map (movedTo pred b) := by
    rw [List.map_map, List.map_map]
    rfl
  rw [hmap]
  refine ⟨fun q hq hedge => ?_, fun q hq => ?_⟩
  · obtain ⟨q', hq', rfl, hreach, hedge'⟩ := h.edge_home hq hedge
    rw [count_moved _ hq', (hwf.hears hold hi).once q' hreach hedge']
    intro p hp
    obtain ⟨e, he, rfl⟩ := List.mem_map.1 hp
    exact (hinc e he).2
  · obtain ⟨q', hq', rfl⟩ := List.mem_map.1 hq
    exact h.edge_moved ((hwf.hears hold hi).edge q' hq') hyb

theorem available_read (h : f.Merged g pred b pdata bdata) (hwf : f.WellFormed)
    (hread : g.Reads (fun _ => false) x pre (.inst j)) : g.Available x pre j := by
  cases hread with
  | inst hx hsplit _ hi hphi hj => exact h.use hwf hx hsplit hi hphi hj
  | phi hb hid _ hi' he hq =>
    obtain ⟨y, hy, hid⟩ := (h.mem_instsOf (h.contracts.ne_of_reachable hb)).1 hid
    obtain ⟨inc, hi, rfl⟩ := h.phi_of_mem hwf.consistent hid hi'
    obtain ⟨⟨q', v⟩, he', heq⟩ := List.mem_map.1 he
    rw [Prod.mk.injEq] at heq
    obtain ⟨rfl, rfl⟩ := heq
    have hreach := h.reachable_home hq rfl
    exact h.available_end hreach (hwf.phiUse (h.reachable_home hb hy) hid hi he' hreach)
  | term hx hdata' hj =>
    obtain ⟨y, data, _, rfl, hdata, heq⟩ := h.term_old hdata'
    rw [heq] at hj
    have hreach := h.reachable_home hx rfl
    exact h.available_end hreach (hwf.termUse (v := .inst j) hreach hdata hj)

theorem wellFormed (h : f.Merged g pred b pdata bdata) (hwf : f.WellFormed) : g.WellFormed := by
  refine wellFormed_of_reads (h.consistent hwf.consistent) (fun e he => ?_)
    (fun x data' hdata' s => h.targets hwf hdata') (fun x id hid => ?_)
    (fun x id inc ty hid => h.hears hwf hid) fun x pre j => h.available_read hwf
  · rw [h.entry] at he
    have heb : e ≠ b := by
      rintro rfl
      exact h.ne_entry he
    rw [h.containsBlock heb]
    exact hwf.entry e he
  · obtain ⟨_, hdata', _⟩ := exists_block_of_mem ((List.dropWhile_suffix g.isPhi).subset hid)
    rw [(h.split_phis hwf (h.ne_source hdata')).2] at hid
    exact (h.isPhi_rest hwf hid).2

/-- Where an instruction of `g` has come from. -/
theorem home (h : f.Merged g pred b pdata bdata) (hid : id ∈ g.instsOf x) :
    ∃ y, movedTo pred b y = x ∧ id ∈ f.instsOf y := by
  obtain ⟨_, hdata', _⟩ := exists_block_of_mem hid
  exact (h.mem_instsOf (h.ne_source hdata')).1 hid

theorem orderly (h : f.Merged g pred b pdata bdata) {own : InstId → Bool} (ho : f.Orderly own) :
    g.Orderly own := by
  have hc := ho.wellFormed.consistent
  have hwf' := h.wellFormed ho.wellFormed
  refine ⟨hwf', ?_, ?_, ?_, ?_⟩
  · intro x id i hx hid hi hphi
    obtain ⟨y, hy, hid⟩ := h.home hid
    have hi' := h.inst_of_mem hc hid hi hphi
    rw [← Kind.mapOperands_id i.kind]
    exact Kind.typed_mapOperands (fun v _ => h.typeOf v)
      (ho.typed y id i (h.reachable_home hx hy) hid hi' hphi)
  · intro x id inc' ty hx hid hi'
    obtain ⟨y, hy, hid⟩ := h.home hid
    obtain ⟨inc, hi, rfl⟩ := h.phi_of_mem hc hid hi'
    obtain ⟨hsome, hinc⟩ := ho.phi y id inc ty (h.reachable_home hx hy) hid hi
    refine ⟨hsome, fun q v he hq => ?_⟩
    obtain ⟨⟨q', u⟩, he', heq⟩ := List.mem_map.1 he
    rw [Prod.mk.injEq] at heq
    obtain ⟨hq', rfl⟩ := heq
    rw [h.typeOf]
    exact hinc q' u he' (h.reachable_home hq hq')
  · intro s hs x i hid hi
    obtain ⟨y, _, hid⟩ := h.home hid
    obtain ⟨⟨kind, o⟩, hi'⟩ := hc.inst?_of_mem hid
    have halloca := ho.slot s hs y _ hid hi'
    rw [h.inst y s _ hid hi'] at hi
    cases hi
    cases kind with
    | alloca n => rfl
    | _ => cases halloca
  · intro s hs x id i hx hid hi hphi
    obtain ⟨y, hy, hid⟩ := h.home hid
    exact ho.spares s hs y id i (h.reachable_home hx hy) hid (h.inst_of_mem hc hid hi hphi) hphi

theorem regular (h : f.Merged g pred b pdata bdata) {own : InstId → Bool} (hc : f.Consistent)
    (hr : f.Regular own) : g.Regular own := by
  refine hr.of_home ?_ ?_ ?_
  · intro x id k hx hid hk
    obtain ⟨y, hy, hmem⟩ := h.home hid
    obtain ⟨i, hi⟩ := hc.inst?_of_mem hmem
    rw [h.inst y id i hmem hi] at hk
    cases hk
    exact ⟨y, i, h.reachable_home hx hy, hmem, hi, Kind.isAlloca_mapIncoming _ _,
      .mapIncoming _ h.typeOf⟩
  · intro x data' v hx hdata' hv
    rw [h.block] at hdata'
    split at hdata'
    · cases hdata'
    · rename_i hxb
      split at hdata'
      · rename_i hxp
        cases hdata'
        exact ⟨b, bdata, v, h.reachable_home hx (by rw [hxp]; exact if_pos rfl), h.source, hv,
          fun _ _ heq => heq, h.typeOf v⟩
      · exact ⟨x, data', v, h.reachable_home hx (if_neg hxb), hdata', hv, fun _ _ heq => heq,
          h.typeOf v⟩
  · intro e id he hid
    obtain ⟨y, hy, hmem⟩ := h.home hid
    rw [h.isPhi hc hmem]
    by_cases hyb : y = b
    · subst hyb
      rw [instsOf_eq h.source] at hmem
      exact h.noPhis id hmem
    · rw [movedTo, if_neg hyb] at hy
      subst hy
      exact hr.entry y id (h.entry ▸ he) hmem

theorem leaves (h : f.Merged g pred b pdata bdata) (hl : act.Leaves f) : act.Leaves g := by
  refine hl.of_subset ?_ ?_
  · intro x data' hdata' w hw
    rw [h.block] at hdata'
    split at hdata'
    · cases hdata'
    · split at hdata'
      · cases hdata'
        exact ⟨pred, pdata, h.into, hw⟩
      · exact ⟨x, data', hdata', hw⟩
  · intro x data' v hdata' hv
    rw [h.block] at hdata'
    split at hdata'
    · cases hdata'
    · split at hdata'
      · cases hdata'
        exact ⟨b, bdata, v, h.source, hv⟩
      · exact ⟨x, data', v, hdata', hv⟩

/-! ### The same execution -/

theorem enter (h : f.Merged g pred b pdata bdata) (hwf : f.WellFormed) {prev : Option BlockId}
    (hprev : prev ≠ some pred) (m : Machine) :
    m.enter act g (prev.map (movedTo pred b)) (f.phisOf x) = m.enter act f prev (f.phisOf x) := by
  have hword : ∀ id ∈ f.phisOf x,
      m.phiWord act g (prev.map (movedTo pred b)) id = m.phiWord act f prev id := by
    intro id hid
    cases prev with
    | none =>
      rw [Option.map_none, Machine.phiWord_entry, Machine.phiWord_entry]
    | some q =>
      have hmem := (f.phisOf_prefix x).subset hid
      obtain ⟨inc, o, hi⟩ := isPhi_eq_true (of_mem_takeWhile hid)
      have hi' : g.inst? id = some ⟨.phi (inc.map fun e => (movedTo pred b e.1, e.2)), o⟩ :=
        h.inst x id _ hmem hi
      have hfind : (inc.find? fun e => decide (some (movedTo pred b e.1) = some (movedTo pred b q))) =
          inc.find? fun e => decide (some e.1 = some q) := by
        refine find?_congr fun e he => ?_
        have hiff : movedTo pred b e.1 = movedTo pred b q ↔ e.1 = q :=
          ⟨movedTo_inj ((h.phi_block hwf hmem hi).2 e he).2 (by rintro rfl; exact hprev rfl),
            fun heq => by rw [heq]⟩
        simp only [Option.some.injEq, hiff]
      simp only [Machine.phiWord, hi, hi', Option.map_some, List.find?_map, Function.comp_def, hfind,
        Machine.eval_of_typeOf h.typeOf]
      cases inc.find? fun e => decide (some e.1 = some q) <;> rfl
  exact Machine.enter_congr h.typeOf hword

theorem exec (h : f.Merged g pred b pdata bdata) (hc : f.Consistent) (hid : id ∈ f.instsOf x)
    (hphi : f.isPhi id = false) (m : Machine) : m.exec act g id = m.exec act f id := by
  obtain ⟨⟨kind, o⟩, hi⟩ := hc.inst?_of_mem hid
  refine Machine.exec_of_inst? h.typeOf ?_
  rw [h.inst x id _ hid hi, hi]
  cases kind with
  | phi inc =>
    rw [isPhi_inst hi] at hphi
    cases hphi
  | _ => rfl

theorem foldlM_exec (h : f.Merged g pred b pdata bdata) (hc : f.Consistent) {ids : List InstId}
    (hids : ∀ id ∈ ids, id ∈ f.instsOf x ∧ f.isPhi id = false) (m : Machine) :
    ids.foldlM (Machine.exec act g) m = ids.foldlM (Machine.exec act f) m := by
  induction ids generalizing m with
  | nil => rfl
  | cons id ids ih =>
    obtain ⟨hid, hphi⟩ := hids id List.mem_cons_self
    rw [List.foldlM_cons, List.foldlM_cons, h.exec hc hid hphi]
    refine congrArg _ (funext fun m₁ => ih (fun j hj => hids j (List.mem_cons_of_mem _ hj)) m₁)

/-- The instructions that were in the block are run with it, and then what has been appended. -/
theorem runBlock (h : f.Merged g pred b pdata bdata) (hwf : f.WellFormed) (hx : x ≠ b)
    {prev : Option BlockId} (hprev : prev ≠ some pred) (m : Machine) :
    g.runBlock act (prev.map (movedTo pred b)) (g.instsOf x) m =
      (f.runBlock act prev (f.instsOf x) m).bind
        ((if x = pred then f.instsOf b else []).foldlM (Machine.exec act f)) := by
  obtain ⟨htake, hdrop⟩ := h.split_phis hwf hx
  have hmem : ∀ id ∈ (f.instsOf x).dropWhile f.isPhi, id ∈ f.instsOf x ∧ f.isPhi id = false :=
    fun id hid => ⟨(List.dropWhile_suffix _).subset hid,
      (h.isPhi_rest (x := x) hwf (List.mem_append_left _ hid)).1⟩
  have hmem' : ∀ id ∈ (if x = pred then f.instsOf b else []),
      id ∈ f.instsOf b ∧ f.isPhi id = false := by
    intro id hid
    refine ⟨?_, (h.isPhi_rest (x := x) hwf (List.mem_append_right _ hid)).1⟩
    split at hid
    · exact hid
    · cases hid
  unfold Func.runBlock
  rw [htake, hdrop, h.enter hwf hprev]
  simp only [Option.bind_eq_bind, List.foldlM_append, Option.bind_assoc]
  refine congrArg _ (funext fun m₁ => ?_)
  rw [h.foldlM_exec hwf.consistent hmem]
  refine congrArg _ (funext fun m₂ => ?_)
  exact h.foldlM_exec hwf.consistent hmem' m₂

theorem runFrom (h : f.Merged g pred b pdata bdata) (hwf : f.WellFormed) (hl : act.Leaves f)
    (n : Nat) : ∀ {prev c m r}, c ≠ b → prev ≠ some pred → f.runFrom act n prev c m = some r →
      g.runFrom act n (prev.map (movedTo pred b)) c m = some r := by
  induction n using Nat.strongRecOn with
  | ind n ih =>
    intro prev c m r hc hprev hrun
    obtain ⟨k, data, m₁, x, rfl, hdata, hblock, hnext, hrest⟩ := runFrom_eq_some.1 hrun
    have hblock' : g.runBlock act (prev.map (movedTo pred b)) (g.instsOf c) m = _ :=
      h.runBlock hwf hc hprev m
    rw [instsOf_eq hdata, hblock, Option.bind_some] at hblock'
    by_cases hcp : c = pred
    · -- both blocks are run as one
      subst hcp
      rw [h.into] at hdata
      cases hdata
      rw [h.jumps] at hnext
      cases hnext
      obtain ⟨l, bdata', m₂, y, rfl, hbdata, hbblock, hbnext, hbrest⟩ := runFrom_eq_some.1 hrest
      rw [h.source] at hbdata
      cases hbdata
      have hphis : bdata.insts.takeWhile f.isPhi = [] := by
        cases hb : bdata.insts with
        | nil => rfl
        | cons i is => rw [List.takeWhile_cons_of_neg (by simp [h.noPhis i (by rw [hb]; simp)])]
      have hdrop : bdata.insts.dropWhile f.isPhi = bdata.insts := by
        have happend := List.takeWhile_append_dropWhile (p := f.isPhi) (l := bdata.insts)
        rwa [hphis, List.nil_append] at happend
      simp only [Func.runBlock, hphis, hdrop, Machine.enter_nil, Option.bind_eq_bind,
        Option.bind_some] at hbblock
      rw [if_pos rfl, instsOf_eq h.source, hbblock, instsOf_eq h.block_pred] at hblock'
      have hnext' := Machine.next_of_typeOf (m := m₂) h.typeOf hl (h.leaves hl) h.source
        h.block_pred rfl
      rw [hbnext] at hnext'
      refine runFrom_eq_some.2 ⟨l + 1, _, m₂, y, rfl, h.block_pred, hblock', hnext', ?_⟩
      cases y with
      | leave e => exact hbrest
      | goto d =>
        have hs := Machine.mem_successors_of_goto hl h.source hbnext
        have hedge := hwf.edge h.source hs
        have hd : d ≠ b := by
          rintro rfl
          exact h.ne (h.sole _ hedge).symm
        have hstep := ih l (by omega) hd (by simpa using h.ne.symm) hbrest
        rw [Option.map_some, movedTo, if_pos rfl] at hstep
        exact runFrom_le (Nat.le_succ l) hstep
    · rw [if_neg hcp] at hblock'
      have hdata' : g.block? c = some data := by rw [h.block_other hc hcp, hdata]
      rw [instsOf_eq hdata'] at hblock'
      have hnext' := Machine.next_of_typeOf (m := m₁) h.typeOf hl (h.leaves hl) hdata hdata' rfl
      rw [hnext] at hnext'
      refine runFrom_eq_some.2 ⟨k, data, m₁, x, rfl, hdata', hblock', hnext', ?_⟩
      cases x with
      | leave e => exact hrest
      | goto d =>
        have hedge := hwf.edge hdata (Machine.mem_successors_of_goto hl hdata hnext)
        have hd : d ≠ b := by
          rintro rfl
          exact hcp (h.sole _ hedge)
        have hstep := ih k (by omega) hd (by simpa using hcp) hrest
        rwa [Option.map_some, movedTo, if_neg hc] at hstep

theorem keeps (h : f.Merged g pred b pdata bdata) (hwf : f.WellFormed) : f.Keeps g where
  wellFormed := h.wellFormed hwf
  orderly := fun _ ho => h.orderly ho
  regular := fun _ _ hr => h.regular hwf.consistent hr
  leaves := fun _ hl => h.leaves hl
  refines := by
    intro act hl _ memory n e m hrun
    refine ⟨n, m, ?_, rfl, rfl, rfl⟩
    unfold run at hrun ⊢
    simp only [Option.bind_eq_bind, Option.bind_eq_some_iff] at hrun ⊢
    obtain ⟨c, hc, hrun⟩ := hrun
    refine ⟨c, h.entry.trans hc, h.runFrom hwf hl n ?_ (by simp) hrun⟩
    rintro rfl
    exact h.ne_entry hc

end Merged

end BinaryLift.Func
