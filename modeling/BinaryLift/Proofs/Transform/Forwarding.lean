import BinaryLift.Proofs.Transform.StandIns

/-!
# Phis that pass a value on

A phi that receives one value, besides itself, has that value whenever it has been entered: the first
time the value comes in, later it may also come back.
-/

namespace BinaryLift.Func

variable {f g : Func} {act : Activation} {b q : BlockId} {id : InstId} {v : Value}
  {inc : List (BlockId × Value)} {ty : Option Ty}

/-- The phi `id` of block `b` receives nothing but `v` and itself, and `v` is there when the block is
entered. -/
structure PassesOn (f : Func) (b : BlockId) (id : InstId) (inc : List (BlockId × Value))
    (ty : Option Ty) (v : Value) : Prop where
  mem : id ∈ f.instsOf b
  inst : f.inst? id = some ⟨.phi inc, ty⟩
  atHand : f.Reachable b → f.AtHand b [] v
  sources : ∀ q u, (q, u) ∈ inc → f.Reachable q → u = v ∨ u = .inst id
  source : f.Reachable b → ∃ q, f.Reachable q ∧ (q, v) ∈ inc

namespace PassesOn

theorem typeOf (h : f.PassesOn b id inc ty v) {own : InstId → Bool} (ho : f.Orderly own)
    (hb : f.Reachable b) : f.typeOf v = f.typeOf (.inst id) := by
  obtain ⟨q, hq, he⟩ := h.source hb
  rw [typeOf_inst h.inst]
  exact ((ho.phi b id inc ty hb h.mem h.inst).2 q v he hq).1

theorem atHand_before (h : f.PassesOn b id inc ty v) (hc : f.Consistent) :
    ∀ c before after, f.Reachable c → f.instsOf c = before ++ id :: after → f.AtHand c before v := by
  intro c before after hreach hsplit
  have hcb := hc.same_block (mem_of_split hsplit) h.mem
  subst hcb
  exact (h.atHand hreach).mono (List.nil_subset _)

/-- What comes in on an edge is the value, now and when the phi has been written. -/
theorem entered (h : f.PassesOn b id inc ty v) (hwf : f.WellFormed) {memory : Memory}
    {m m₁ : Machine} (hty : f.Reachable b → f.typeOf v = f.typeOf (.inst id))
    (hvisit : f.Visits act memory q (f.instsOf q) m) (hq : f.Reachable q) (hedge : f.Edge q b)
    (hid : id ∈ f.phisOf b) (henter : m.enter act f (some q) (f.phisOf b) = some m₁)
    (hback : f.Available q (f.instsOf q) id →
      ∃ w, m.env id = some w ∧ m.eval act f v = some w) :
    ∃ w, m₁.env id = some w ∧ m₁.eval act f v = some w := by
  have hb := hq.step hedge
  have hsame : m₁.eval act f v = m.eval act f v := by
    refine Machine.eval_congr fun o ho => ?_
    have hav := h.atHand hb
    rw [ho] at hav
    refine Machine.env_enter henter fun hmem => ?_
    exact hwf.consistent.notMem_of_available hav ((f.phisOf_prefix b).subset hmem)
  obtain ⟨hall, rfl⟩ := Machine.enter_eq_some.1 henter
  obtain ⟨w, hw⟩ := hall id hid
  have hword : ∃ u, m.eval act f v = some u ∧ w = u := by
    simp only [Machine.phiWord, h.inst] at hw
    obtain ⟨e, hfind, he⟩ := Option.bind_eq_some_iff.1 hw
    have hqe : e.1 = q := by simpa using List.find?_some hfind
    have hmem : (q, e.2) ∈ inc := hqe ▸ List.mem_of_find?_eq_some hfind
    rcases h.sources q e.2 hmem hq with heq | heq
    · rw [heq] at he
      exact ⟨w, he, rfl⟩
    · rw [heq] at he hmem
      obtain ⟨u, hu, hv⟩ := hback (hwf.phiUse (v := .inst id) hb h.mem h.inst hmem hq)
      rw [show m.eval act f (.inst id) = m.env id from rfl, hu] at he
      exact ⟨u, hv, (Option.some.inj he).symm⟩
  obtain ⟨u, hu, rfl⟩ := hword
  have hfits : (f.wordTy (.inst id)).Fits w := by
    rw [wordTy, ← hty hb]
    exact hvisit.tame.eval hu
  refine ⟨w, ?_, hsame.trans hu⟩
  simp only [hid, if_true, hw, Option.map_some]
  exact congrArg some hfits

theorem value (h : f.PassesOn b id inc ty v) (hwf : f.WellFormed) (hl : act.Leaves f)
    (hty : f.Reachable b → f.typeOf v = f.typeOf (.inst id)) {memory : Memory} {c : BlockId}
    {pre : List InstId} {m : Machine} (hvisit : f.Visits act memory c pre m)
    (hid : f.Available c pre id) : ∃ w, m.env id = some w ∧ m.eval act f v = some w := by
  refine hvisit.established (C := fun m => ∃ w, m.env id = some w ∧ m.eval act f v = some w)
    (S := fun o => o = id ∨ v = .inst o) hwf hl ?_ ?_ ?_ ?_ hid
  · rintro m m' henv ⟨w, hw, hv⟩
    refine ⟨w, by rw [henv id (.inl rfl), hw], ?_⟩
    rw [Machine.eval_congr fun o ho => henv o (.inr ho), hv]
  · intro c pre hc hpre hav o ho
    rcases ho with rfl | rfl
    · exact hav
    · obtain ⟨before, after, hsplit⟩ := List.append_of_mem h.mem
      obtain ⟨d, hd, hreach, _⟩ := hwf.consistent.home_of_available hc hpre.subset hav
      rw [hwf.consistent.mem_instsOf.1 h.mem] at hd
      cases hd
      exact hwf.consistent.atHand_of_available (v := .inst o) hsplit
        (h.atHand_before hwf.consistent b before after hreach hsplit) hc hpre hav
  · intro c pre post m m₁ _ _ _ hexec
    -- phis are not executed one by one
    obtain ⟨i, ws, a, hi, _, ha, _⟩ := Machine.exec_eq_some.1 hexec
    rw [h.inst] at hi
    cases hi
    cases ha
  · intro q c m m₁ hvisit hq hedge hid henter hback
    have hcb := hwf.consistent.same_block ((f.phisOf_prefix c).subset hid) h.mem
    subst hcb
    exact h.entered hwf hty hvisit hq hedge hid henter hback

theorem standsIn (h : f.PassesOn b id inc ty v) {own : InstId → Bool} (ho : f.Orderly own) :
    f.StandsIn own (fun j => decide (j = id)) (replaceResult id v) := by
  refine standsIn_of_atHand ho h.mem h.inst rfl rfl (h.atHand_before ho.wellFormed.consistent)
    (h.typeOf ho) fun hb j hj => ?_
  obtain ⟨q, hq, he⟩ := h.source hb
  exact ((ho.phi b id inc ty hb h.mem h.inst).2 q v he hq).2 j hj

theorem equals (h : f.PassesOn b id inc ty v) (hl : act.Leaves f) (ho : f.Orderly act.own) :
    f.Equals act (fun j => decide (j = id)) (replaceResult id v) := by
  refine equals_of_visits fun memory c pre m w hvisit hid hw => ?_
  obtain ⟨u, hu, hv⟩ := h.value ho.wellFormed hl (h.typeOf ho) hvisit hid
  rw [hw] at hu
  cases hu
  exact hv

theorem keeps (h : f.PassesOn b id inc ty v) (hwf : f.WellFormed)
    (hsub : f.Substituted (fun j => decide (j = id)) (replaceResult id v) g) : f.Keeps g :=
  hsub.keeps hwf (replaceable_of_atHand hwf.consistent (h.atHand_before hwf.consistent))
    (fun _ ho => h.standsIn ho) fun _ hl ho => h.equals hl ho

end PassesOn

end BinaryLift.Func
