import BinaryLift.Target.ValueSet
import Mathlib.Algebra.Order.Ring.Nat
import Mathlib.Tactic.Common

/-!
# Members of value sets

A known set holds exactly the results of the operation that made it: the union for a merge, the image
for an operation on one or two sets. An operation with a missing result gives no known set.
-/

namespace BinaryLift

theorem mem_mergeAsc (x : Word) (a b : List Word) : x ∈ mergeAsc a b ↔ x ∈ a ∨ x ∈ b := by
  fun_induction mergeAsc a b with
  | case1 ys => simp
  | case2 y ys => simp
  | case3 y ys z zs hlt ih =>
    simp only [List.mem_cons, ih]
    tauto
  | case4 y ys z zs hge hlt ih =>
    simp only [List.mem_cons, ih]
    tauto
  | case5 y ys z zs hge hle ih =>
    have heq : y = z := by
      apply BitVec.eq_of_toNat_eq
      have h1 : ¬ y.toNat < z.toNat := hge
      have h2 : ¬ z.toNat < y.toNat := hle
      omega
    subst heq
    simp only [List.mem_cons, ih]
    tauto

namespace ValueSet

/-- A word that the set does not rule out. -/
def Allows : ValueSet → Word → Prop
  | unknown, _ => True
  | known vs, w => w ∈ vs

theorem bounded_eq_known {us vs : List Word} (h : bounded us = known vs) : us = vs := by
  unfold bounded at h
  split at h
  · exact ValueSet.known.inj h
  · cases h

theorem add_eq_known {s : ValueSet} {w : Word} {vs : List Word} (h : s.add w = known vs) :
    ∃ us, s = known us ∧ ∀ x, x ∈ vs ↔ x ∈ us ∨ x = w := by
  cases s with
  | unknown => cases h
  | known us =>
    refine ⟨us, rfl, ?_⟩
    intro x
    simp only [add] at h
    split at h
    · rename_i hw
      cases h
      constructor
      · exact Or.inl
      · rintro (hx | rfl)
        · exact hx
        · exact List.contains_iff_mem.1 hw
    · have he := bounded_eq_known h
      rw [← he, mem_insertAsc]
      exact or_comm

theorem foldl_addResult_eq_known {rs : List (Option Word)} {s : ValueSet} {vs : List Word}
    (h : rs.foldl addResult s = known vs) :
    ∃ us, s = known us ∧ (∀ r ∈ rs, r.isSome) ∧ ∀ x, x ∈ vs ↔ x ∈ us ∨ some x ∈ rs := by
  induction rs generalizing s with
  | nil => exact ⟨vs, h, by simp, by simp⟩
  | cons r rs ih =>
    obtain ⟨us, hs, hall, hmem⟩ := ih h
    cases r with
    | none => cases hs
    | some w =>
      obtain ⟨ts, ht, hadd⟩ := add_eq_known hs
      refine ⟨ts, ht, ?_, ?_⟩
      · intro r hr
        rcases List.mem_cons.1 hr with rfl | hr
        · rfl
        · exact hall r hr
      · intro x
        rw [hmem x, hadd x, List.mem_cons, Option.some.injEq]
        tauto

theorem merge_eq_known {s t : ValueSet} {vs : List Word} (h : s.merge t = known vs) :
    ∃ us ws, s = known us ∧ t = known ws ∧ ∀ x, x ∈ vs ↔ x ∈ us ∨ x ∈ ws := by
  cases s with
  | unknown => cases h
  | known us =>
    cases t with
    | unknown => cases h
    | known ws =>
      refine ⟨us, ws, rfl, rfl, ?_⟩
      intro x
      rw [← bounded_eq_known h]
      exact mem_mergeAsc x us ws

theorem map_eq_known {s : ValueSet} {g : Word → Option Word} {vs : List Word}
    (h : s.map g = known vs) :
    ∃ us, s = known us ∧ (∀ x ∈ us, (g x).isSome) ∧ ∀ w, w ∈ vs ↔ ∃ x ∈ us, g x = some w := by
  cases s with
  | unknown => cases h
  | known us =>
    have hfold : (us.map g).foldl addResult empty = known vs := by
      rw [List.foldl_map]
      exact h
    obtain ⟨start, hstart, hall, hmem⟩ := foldl_addResult_eq_known hfold
    cases hstart
    refine ⟨us, rfl, ?_, ?_⟩
    · intro x hx
      exact hall (g x) (List.mem_map_of_mem hx)
    · intro w
      rw [hmem w]
      simp

theorem product_eq_known {s t : ValueSet} {g : Word → Word → Option Word} {vs : List Word}
    (h : s.product t g = known vs) :
    ∃ us ws, s = known us ∧ t = known ws ∧ (∀ x ∈ us, ∀ y ∈ ws, (g x y).isSome) ∧
      ∀ w, w ∈ vs ↔ ∃ x ∈ us, ∃ y ∈ ws, g x y = some w := by
  cases s with
  | unknown => cases h
  | known us =>
    cases t with
    | unknown => cases h
    | known ws =>
      simp only [product] at h
      split at h
      · cases h
      · have hfold : (us.flatMap fun x => ws.map (g x)).foldl addResult empty = known vs := by
          rw [List.foldl_flatMap]
          simp only [List.foldl_map]
          exact h
        obtain ⟨start, hstart, hall, hmem⟩ := foldl_addResult_eq_known hfold
        cases hstart
        refine ⟨us, ws, rfl, rfl, ?_, ?_⟩
        · intro x hx y hy
          apply hall
          exact List.mem_flatMap.2 ⟨x, hx, List.mem_map_of_mem hy⟩
        · intro w
          rw [hmem w]
          simp

theorem eq_of_single?_eq {s : ValueSet} {a w : Word} (h : s.single? = some a)
    (hw : s.Allows w) : w = a := by
  cases s with
  | unknown => cases h
  | known vs =>
    match vs, h, hw with
    | [x], h, hw =>
      have hx : x = a := Option.some.inj h
      rw [← hx]
      exact List.mem_singleton.1 hw

end ValueSet

end BinaryLift
