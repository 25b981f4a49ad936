import BinaryLift.Pipeline.Pass
import BinaryLift.Proofs.Program.Arenas

/-!
# Functions of a module

A module transforms its functions one at a time, and none of them sees what becomes of another: each
defined function becomes what the transformation makes of it, and declarations stay.
-/

namespace BinaryLift

/-- A group of one is its member. -/
theorem FunctionPass.runAll_singleton (pass : FunctionPass) (f : Func) :
    runAll [pass] f = pass.run f := by
  unfold runAll sweepOver
  rw [List.foldlM_cons]
  cases pass.run f with
  | error e => rfl
  | ok r =>
    obtain ⟨g, changed⟩ := r
    cases changed <;> rfl

namespace Module

variable {m m' : Module} {id j : FuncId} {f g : Func} {t : Func → Transformed} {changed : Bool}

theorem mem_funcs : (id, f) ∈ m.funcs ↔ m.func? id = some f := by
  obtain ⟨n⟩ := id
  simp only [funcs, func?, List.mem_filterMap, Option.map_eq_some_iff, Prod.mk.injEq,
    FuncId.mk.injEq, Prod.exists, List.mem_zipIdx_iff_getElem?, Array.getElem?_toList,
    Option.join_eq_some_iff]
  constructor
  · rintro ⟨o, k, hget, f', rfl, rfl, rfl⟩
    exact hget
  · intro hget
    exact ⟨some f, n, hget, f, rfl, rfl, rfl⟩

theorem funcs_pairwise (m : Module) : m.funcs.Pairwise fun x y => x.1 ≠ y.1 := by
  refine List.pairwise_filterMap.2 ((zipIdx_pairwise m.arena.toList).imp ?_)
  intro x y hne x' hx y' hy heq
  obtain ⟨_, _, rfl⟩ := Option.map_eq_some_iff.1 hx
  obtain ⟨_, _, rfl⟩ := Option.map_eq_some_iff.1 hy
  exact hne (congrArg FuncId.index heq)

theorem func?_put_self (hf : m.func? id = some f) (g : Func) : (m.put id g).func? id = some g := by
  have hlt : id.index < m.arena.size := by
    by_contra hge
    rw [func?, Array.getElem?_eq_none (Nat.le_of_not_lt hge)] at hf
    cases hf
  rw [put, hf, Option.isSome_some, if_pos rfl]
  simp only [func?, Array.getElem?_setIfInBounds_self_of_lt hlt, Option.join_some]

theorem func?_put_of_ne (hne : id ≠ j) (g : Func) : (m.put id g).func? j = m.func? j := by
  have hindex : id.index ≠ j.index := by
    intro heq
    cases id
    cases j
    exact hne (congrArg FuncId.mk heq)
  unfold put
  split
  · simp only [func?, Array.getElem?_setIfInBounds_ne hindex]
  · rfl

theorem put_of_func? (hf : m.func? id = some f) : m.put id f = m := by
  obtain ⟨o, hget, rfl⟩ : ∃ o, m.arena[id.index]? = some o ∧ o = some f := by
    rw [func?, Option.join_eq_some_iff] at hf
    exact ⟨_, hf, rfl⟩
  obtain ⟨hlt, hget⟩ := Array.getElem?_eq_some_iff.1 hget
  rw [put, hf, Option.isSome_some, if_pos rfl]
  rw [Array.setIfInBounds_def, dif_pos hlt, ← hget, Array.set_getElem_self]

theorem func?_remove (m : Module) (id j : FuncId) :
    (m.remove id).func? j = if j = id then none else m.func? j := by
  obtain ⟨n⟩ := id
  obtain ⟨k⟩ := j
  simp only [remove, func?, Array.getElem?_setIfInBounds, FuncId.mk.injEq]
  by_cases hkn : n = k
  · subst hkn
    rw [if_pos rfl, if_pos rfl]
    split <;> rfl
  · rw [if_neg hkn, if_neg (Ne.symm hkn)]

theorem func?_removeAll (m : Module) (ids : List FuncId) (j : FuncId) :
    (m.removeAll ids).func? j = if j ∈ ids then none else m.func? j := by
  unfold removeAll
  induction ids generalizing m with
  | nil => rw [List.foldl_nil, if_neg List.not_mem_nil]
  | cons id ids ih =>
    rw [List.foldl_cons, ih (m.remove id), func?_remove]
    by_cases hj : j ∈ ids
    · rw [if_pos hj, if_pos (List.mem_cons_of_mem _ hj)]
    · rw [if_neg hj]
      by_cases hjid : j = id
      · rw [if_pos hjid, if_pos (hjid ▸ List.mem_cons_self)]
      · rw [if_neg hjid, if_neg (List.mem_cons.not.2 (not_or.2 ⟨hjid, hj⟩))]

/-- A module is its name, its handles and what they stand for. -/
theorem eq_of_func? (hname : m'.name = m.name) (hsize : m'.arena.size = m.arena.size)
    (hfunc : ∀ id, m'.func? id = m.func? id) : m' = m := by
  obtain ⟨name, arena⟩ := m
  obtain ⟨name', arena'⟩ := m'
  have harena : arena' = arena := by
    refine Array.ext hsize fun i h₁ h₂ => ?_
    have hi := hfunc ⟨i⟩
    simp only [func?] at hi
    rwa [Array.getElem?_eq_getElem h₁, Array.getElem?_eq_getElem h₂] at hi
  rw [show name' = name from hname, harena]

/-! ### One function -/

theorem transformOne_of_func? (hf : m.func? id = some f) :
    m.transformOne id t = (t f).map fun r => (m.put id r.1, r.2) := by
  unfold transformOne
  rw [hf]
  show (t f).bind (fun r => .ok (m.put id r.1, r.2)) = _
  cases t f <;> rfl

theorem transformOne_eq_ok (hf : m.func? id = some f)
    (h : m.transformOne id t = .ok (m', changed)) :
    ∃ g, t f = .ok (g, changed) ∧ m' = m.put id g := by
  rw [transformOne_of_func? hf] at h
  cases ht : t f with
  | error e =>
    rw [ht] at h
    cases h
  | ok r =>
    rw [ht] at h
    cases h
    exact ⟨r.1, rfl, rfl⟩

/-- A transformation of one function leaves the others. -/
theorem transformOne_becomes {m m' : Module} {id j : FuncId} {f : Func} {changed : Bool}
    {t : Func → Transformed} (h : m.transformOne id t = .ok (m', changed))
    (hf : m.func? j = some f) :
    ∃ g, m'.func? j = some g ∧ (g = f ∨ t f = .ok (g, changed)) := by
  cases hid : m.func? id with
  | none =>
    unfold transformOne at h
    rw [hid] at h
    cases h
    exact ⟨f, hf, .inl rfl⟩
  | some f' =>
    obtain ⟨g, hg, rfl⟩ := transformOne_eq_ok hid h
    by_cases hne : id = j
    · subst hne
      rw [hid] at hf
      cases hf
      exact ⟨g, func?_put_self hid g, .inr hg⟩
    · exact ⟨f, (func?_put_of_ne hne g).trans hf, .inl rfl⟩

theorem transformOne_returns {m : Module} {id : FuncId} {t : Func → Transformed}
    (h : ∀ f, m.func? id = some f → ∃ r, t f = .ok r) : ∃ r, m.transformOne id t = .ok r := by
  cases hid : m.func? id with
  | none =>
    unfold transformOne
    rw [hid]
    exact ⟨_, rfl⟩
  | some f =>
    obtain ⟨r, hr⟩ := h f hid
    rw [transformOne_of_func? hid, hr]
    exact ⟨_, rfl⟩

/-! ### Every function -/

/-- What becomes of a function in a module that transforms each. -/
inductive Becomes (t : Func → Transformed) (f : Func) : Func → Prop
  | declared (hdecl : f.isDeclaration = true) : Becomes t f f
  | defined {g : Func} {changed : Bool} (hdef : f.isDeclaration = false)
      (hg : t f = .ok (g, changed)) : Becomes t f g

/-- Functions are transformed one by one: a function that waits is as it was, and one that is done
stays. -/
theorem foldlM_transform (t : Func → Transformed) (l : List (FuncId × Func)) :
    ∀ (m : Module) (c : Bool), l.Pairwise (fun x y => x.1 ≠ y.1) →
      (∀ x ∈ l, m.func? x.1 = some x.2) →
      let run := l.foldlM (fun (acc : Module × Bool) e => do
        if e.2.isDeclaration then return acc
        let (m, changed) ← acc.1.transformOne e.1 t
        return (m, acc.2 || changed)) (m, c)
      ((∀ x ∈ l, x.2.isDeclaration = false → ∃ r, t x.2 = .ok r) → ∃ r, run = Except.ok r) ∧
      ∀ m' c', run = .ok (m', c') →
        (∀ x ∈ l, ∃ g, m'.func? x.1 = some g ∧ Becomes t x.2 g) ∧
        ∀ id, (∀ x ∈ l, x.1 ≠ id) → m'.func? id = m.func? id := by
  induction l with
  | nil =>
    intro m c _ _
    refine ⟨fun _ => ⟨_, rfl⟩, fun m' c' h => ?_⟩
    cases h
    exact ⟨fun _ hx => absurd hx List.not_mem_nil, fun _ _ => rfl⟩
  | cons x l ih =>
    intro m c hpairs hpresent
    obtain ⟨id, f⟩ := x
    obtain ⟨hne, hpairs⟩ := List.pairwise_cons.1 hpairs
    have hf := hpresent (id, f) List.mem_cons_self
    have hrest : ∀ x ∈ l, m.func? x.1 = some x.2 :=
      fun x hx => hpresent x (List.mem_cons_of_mem _ hx)
    simp only [List.foldlM_cons]
    cases hdecl : f.isDeclaration with
    | true =>
      obtain ⟨htotal, hspec⟩ := ih m c hpairs hrest
      refine ⟨fun hall => htotal fun x hx => hall x (List.mem_cons_of_mem _ hx), ?_⟩
      intro m' c' h
      obtain ⟨hdone, hkept⟩ := hspec m' c' h
      refine ⟨fun x hx => ?_, fun j hj => hkept j fun x hx => hj x (List.mem_cons_of_mem _ hx)⟩
      rcases List.mem_cons.1 hx with rfl | hx
      · exact ⟨f, (hkept id fun x hx => (hne x hx).symm).trans hf, .declared hdecl⟩
      · exact hdone x hx
    | false =>
      simp only [Bool.false_eq_true, if_false, transformOne_of_func? hf]
      cases ht : t f with
      | error e =>
        refine ⟨fun hall => ?_, fun m' c' h => nomatch h⟩
        obtain ⟨r, hr⟩ := hall (id, f) List.mem_cons_self hdecl
        rw [ht] at hr
        cases hr
      | ok r =>
        have hput : ∀ x ∈ l, (m.put id r.1).func? x.1 = some x.2 := fun x hx =>
          (func?_put_of_ne (hne x hx) r.1).trans (hrest x hx)
        obtain ⟨htotal, hspec⟩ := ih (m.put id r.1) (c || r.2) hpairs hput
        refine ⟨fun hall => htotal fun x hx => hall x (List.mem_cons_of_mem _ hx), ?_⟩
        intro m' c' h
        obtain ⟨hdone, hkept⟩ := hspec m' c' h
        refine ⟨fun x hx => ?_, fun j hj => ?_⟩
        · rcases List.mem_cons.1 hx with rfl | hx
          · refine ⟨r.1, ?_, .defined hdecl ht⟩
            rw [hkept id fun x hx => (hne x hx).symm, func?_put_self hf]
          · exact hdone x hx
        · rw [hkept j fun x hx => hj x (List.mem_cons_of_mem _ hx)]
          exact func?_put_of_ne (hj (id, f) List.mem_cons_self) r.1

theorem transformEach_returns (hall : ∀ id f, m.func? id = some f → f.isDeclaration = false →
    ∃ r, t f = .ok r) : ∃ r, m.transformEach t = .ok r :=
  (foldlM_transform t m.funcs m false m.funcs_pairwise fun _ hx => mem_funcs.1 hx).1
    fun x hx => hall x.1 x.2 (mem_funcs.1 hx)

theorem transformEach_becomes (h : m.transformEach t = .ok (m', changed))
    (hf : m.func? id = some f) : ∃ g, m'.func? id = some g ∧ Becomes t f g :=
  ((foldlM_transform t m.funcs m false m.funcs_pairwise fun _ hx => mem_funcs.1 hx).2 m' changed
    h).1 (id, f) (mem_funcs.2 hf)

end Module

end BinaryLift
