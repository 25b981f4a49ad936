import BinaryLift.Proofs.Run.Reads

/-!
# Instructions that change in place

One instruction that is no phi gets another kind and keeps its result type and its place. If the new
operands are at hand and the new kind does what the old one did, nothing else changes.
-/

namespace BinaryLift.Func

variable {f g : Func} {act : Activation} {id j : InstId} {i : Inst} {k : Kind} {b : BlockId}
  {pre : List InstId}

/-- The function `g` is `f`, except that the instruction `id` is of kind `k`. -/
structure Recast (f g : Func) (id : InstId) (i : Inst) (k : Kind) : Prop where
  params : g.params = f.params
  entry : g.entry = f.entry
  block : ∀ b, g.block? b = f.block? b
  instBlock : ∀ j, g.instBlock j = f.instBlock j
  old : f.inst? id = some i
  new : g.inst? id = some ⟨k, i.ty⟩
  others : ∀ j, j ≠ id → g.inst? j = f.inst? j
  isPhi_old : i.kind.isPhi = false
  isPhi_new : k.isPhi = false
  isAlloca : k.isAlloca = i.kind.isAlloca
  atHand : ∀ b before after, f.Reachable b → f.instsOf b = before ++ id :: after →
    ∀ v ∈ k.operands, f.AtHand b before v

theorem recast_modifyKind (hi : f.inst? id = some i) (hold : i.kind.isPhi = false)
    (hnew : k.isPhi = false) (halloca : k.isAlloca = i.kind.isAlloca)
    (hat : ∀ b before after, f.Reachable b → f.instsOf b = before ++ id :: after →
      ∀ v ∈ k.operands, f.AtHand b before v) :
    f.Recast (f.modifyKind id fun _ => k) id i k where
  params := rfl
  entry := rfl
  block := fun _ => rfl
  instBlock := fun j => instBlock_modifyKind f id j _
  old := hi
  new := by
    rw [inst?_modifyKind, if_pos rfl, hi]
    rfl
  others := fun j hj => by rw [inst?_modifyKind, if_neg (Ne.symm hj)]
  isPhi_old := hold
  isPhi_new := hnew
  isAlloca := halloca
  atHand := hat

namespace Recast

theorem sameGraph (h : f.Recast g id i k) : f.SameGraph g where
  entry := h.entry
  block := fun b => by rw [h.block]

theorem containsBlock (h : f.Recast g id i k) (b : BlockId) :
    g.containsBlock b = f.containsBlock b := h.sameGraph.containsBlock b

theorem edge (h : f.Recast g id i k) {a : BlockId} : g.Edge a b ↔ f.Edge a b := h.sameGraph.edge

theorem subgraph (h : f.Recast g id i k) : f.Subgraph g := h.sameGraph.subgraph

theorem reachable (h : f.Recast g id i k) : g.Reachable b ↔ f.Reachable b := h.sameGraph.reachable

theorem instsOf (h : f.Recast g id i k) (b : BlockId) : g.instsOf b = f.instsOf b := by
  unfold Func.instsOf
  rw [h.block]

theorem isPhi (h : f.Recast g id i k) : g.isPhi = f.isPhi := by
  funext j
  by_cases hj : j = id
  · rw [hj, isPhi_inst h.new, isPhi_inst h.old, h.isPhi_old, h.isPhi_new]
  · unfold Func.isPhi
    rw [h.others j hj]

theorem typeOf (h : f.Recast g id i k) (v : Value) : g.typeOf v = f.typeOf v := by
  refine typeOf_congr h.params (fun j => ?_) v
  by_cases hj : j = id
  · rw [hj, h.new, h.old]
    rfl
  · rw [h.others j hj]

theorem available (h : f.Recast g id i k) (hj : f.Available b pre j) : g.Available b pre j := by
  refine hj.imp_right ?_
  rintro ⟨c, data, hdom, hdata, hmem⟩
  exact ⟨c, data, h.subgraph.strictly hdom, by rw [h.block, hdata], hmem⟩

theorem inst_of_phi (h : f.Recast g id i k) {inc : List (BlockId × Value)} {ty : Option Ty}
    (hj : g.inst? j = some ⟨.phi inc, ty⟩) : f.inst? j = some ⟨.phi inc, ty⟩ := by
  by_cases hne : j = id
  · have hnew := h.isPhi_new
    rw [hne, h.new] at hj
    cases hj
    cases hnew
  · rw [← h.others j hne, hj]

/-- What the recast instruction reads has to be there; everything else reads what it read. -/
theorem available_read (h : f.Recast g id i k) (hwf : f.WellFormed)
    (hread : g.Reads (fun _ => false) b pre (.inst j)) : g.Available b pre j := by
  refine h.available ?_
  cases hread with
  | @inst _ _ post j' i' _ hb hsplit _ hi' hphi hj =>
    rw [h.instsOf] at hsplit
    have hb' := h.reachable.1 hb
    by_cases hne : j' = id
    · rw [hne] at hsplit hi'
      rw [h.new] at hi'
      cases hi'
      exact h.atHand b pre post hb' hsplit (.inst j) hj
    · rw [h.others j' hne] at hi'
      exact hwf.use (v := .inst j) hb' hsplit hi' hphi hj
  | phi hb hid _ hi' he hq =>
    rw [h.instsOf] at hid ⊢
    exact hwf.phiUse (v := .inst j) (h.reachable.1 hb) hid (h.inst_of_phi hi') he (h.reachable.1 hq)
  | term hb hdata hj =>
    rw [h.block] at hdata
    rw [h.instsOf]
    exact hwf.termUse (v := .inst j) (h.reachable.1 hb) hdata hj

theorem wellFormed (h : f.Recast g id i k) (hwf : f.WellFormed) : g.WellFormed := by
  refine h.sameGraph.wellFormed hwf (hwf.consistent.congr h.instsOf h.instBlock) ?_ ?_
    fun b pre j => h.available_read hwf
  · intro b j hj
    rw [h.isPhi, h.instsOf] at hj
    rw [h.isPhi]
    exact hwf.isPhi_behind hj
  · intro b j inc ty hid hi
    rw [h.instsOf] at hid
    exact hwf.hears hid (h.inst_of_phi hi)

theorem leaves (h : f.Recast g id i k) (hl : act.Leaves f) : act.Leaves g := by
  refine hl.of_subset (fun b data hdata w hw => ?_) fun b data v hdata hv => ?_
  · exact ⟨b, data, by rw [← h.block, hdata], hw⟩
  · exact ⟨b, data, v, by rw [← h.block, hdata], hv⟩

theorem orderly (h : f.Recast g id i k) {own : InstId → Bool} (ho : f.Orderly own)
    (hty : ∀ b, f.Reachable b → id ∈ f.instsOf b → k.Typed f i.ty)
    (hspares : ∀ b s, f.Reachable b → id ∈ f.instsOf b → own s = true → k.Spares s) :
    g.Orderly own := by
  refine ⟨h.wellFormed ho.wellFormed, ?_, ?_, ?_, ?_⟩
  · intro b j i' hb hj hi' hphi
    rw [h.instsOf] at hj
    have hb' := h.reachable.1 hb
    rw [← Kind.mapOperands_id i'.kind]
    refine Kind.typed_mapOperands (fun v _ => h.typeOf v) ?_
    by_cases hne : j = id
    · rw [hne] at hj hi'
      rw [h.new] at hi'
      cases hi'
      exact hty b hb' hj
    · rw [h.others j hne] at hi'
      exact ho.typed b j i' hb' hj hi' hphi
  · intro b j inc ty hb hj hinc
    rw [h.instsOf] at hj
    obtain ⟨hsome, hall⟩ := ho.phi b j inc ty (h.reachable.1 hb) hj (h.inst_of_phi hinc)
    refine ⟨hsome, fun q v he hq => ?_⟩
    rw [h.typeOf]
    exact hall q v he (h.reachable.1 hq)
  · intro s hs b i' hmem hi'
    rw [h.instsOf] at hmem
    by_cases hne : s = id
    · rw [hne, h.new] at hi'
      cases hi'
      rw [h.isAlloca]
      exact ho.slot s hs b i hmem (hne ▸ h.old)
    · rw [h.others s hne] at hi'
      exact ho.slot s hs b i' hmem hi'
  · intro s hs b j i' hb hj hi' hphi
    rw [h.instsOf] at hj
    have hb' := h.reachable.1 hb
    by_cases hne : j = id
    · rw [hne] at hj hi'
      rw [h.new] at hi'
      cases hi'
      exact hspares b s hb' hj hs
    · rw [h.others j hne] at hi'
      exact ho.spares s hs b j i' hb' hj hi' hphi

theorem regular (h : f.Recast g id i k) {own : InstId → Bool} (hr : f.Regular own)
    (hwords : ∀ b, f.Reachable b → id ∈ f.instsOf b → k.WholeWords f i.ty) : g.Regular own := by
  refine hr.of_home ?_ ?_ ?_
  · intro b j i' hb hj hi'
    rw [h.instsOf] at hj
    have hb' := h.reachable.1 hb
    have htransfer : ∀ {k' : Kind} {ty : Option Ty}, k'.WholeWords f ty → k'.WholeWords g ty := by
      intro k' ty hk'
      rw [← Kind.mapOperands_id k']
      exact hk'.mapOperands fun v _ => h.typeOf v
    by_cases hne : j = id
    · subst hne
      rw [h.new] at hi'
      cases hi'
      exact ⟨b, i, hb', hj, h.old, h.isAlloca, fun _ => htransfer (hwords b hb' hj)⟩
    · rw [h.others j hne] at hi'
      exact ⟨b, i', hb', hj, hi', rfl, htransfer⟩
  · intro b data v hb hdata hv
    rw [h.block] at hdata
    exact ⟨b, data, v, h.reachable.1 hb, hdata, hv, fun _ _ heq => heq, h.typeOf v⟩
  · intro e j he hj
    rw [h.instsOf] at hj
    rw [h.isPhi]
    exact hr.entry e j (h.entry ▸ he) hj

/-- Both functions are in the same state all along. -/
theorem abreast (h : f.Recast g id i k) (hl : act.Leaves f) (memory : Memory)
    (hexec : ∀ b pre post m m₁, f.Visits act memory b pre m → f.Reachable b →
      f.instsOf b = pre ++ id :: post → m.exec act f id = some m₁ → m.exec act g id = some m₁) :
    f.Abreast act memory g where
  entry := h.entry
  typeOf := h.typeOf
  isPhi := fun _ _ _ _ => by rw [h.isPhi]
  block := by
    intro b data hb hdata
    have hdata' : g.block? b = some data := by rw [h.block, hdata]
    refine ⟨data, hdata', rfl, fun m x hx => ?_⟩
    rw [Machine.next_of_typeOf h.typeOf hl (h.leaves hl) hdata hdata' rfl]
    exact hx
  phiWord := by
    intro q b data m _ _ _ j hj
    have hne : j ≠ id := by
      rintro rfl
      have hphi := of_mem_takeWhile hj
      rw [isPhi_inst h.old, h.isPhi_old] at hphi
      cases hphi
    unfold Machine.phiWord
    rw [h.others j hne, Machine.eval_of_typeOf h.typeOf]
  exec := by
    intro b pre j post m m₁ hvisit hb hsplit _ hm₁
    by_cases hne : j = id
    · subst hne
      exact hexec b pre post m m₁ hvisit hb hsplit hm₁
    · rw [Machine.exec_of_inst? h.typeOf (h.others j hne)]
      exact hm₁

theorem keeps (h : f.Recast g id i k) (hwf : f.WellFormed)
    (hty : ∀ own, f.Orderly own → ∀ b, f.Reachable b → id ∈ f.instsOf b → k.Typed f i.ty)
    (hspares : ∀ own, f.Orderly own → ∀ b s, f.Reachable b → id ∈ f.instsOf b → own s = true →
      k.Spares s)
    (hwords : ∀ own, f.Regular own → ∀ b, f.Reachable b → id ∈ f.instsOf b → k.WholeWords f i.ty)
    (hexec : ∀ act : Activation, act.Leaves f → f.Orderly act.own → ∀ memory b pre post m m₁,
      f.Visits act memory b pre m → f.Reachable b → f.instsOf b = pre ++ id :: post →
      m.exec act f id = some m₁ → m.exec act g id = some m₁) : f.Keeps g where
  wellFormed := h.wellFormed hwf
  orderly := fun own ho => h.orderly ho (hty own ho) (hspares own ho)
  regular := fun own _ hr => h.regular hr (hwords own hr)
  leaves := fun _ hl => h.leaves hl
  refines := fun act hl ho => refines_of_lockstep hwf hl fun memory =>
    ⟨_, _, (h.abreast hl memory (hexec act hl ho memory)).lockstep⟩

end Recast

end BinaryLift.Func
