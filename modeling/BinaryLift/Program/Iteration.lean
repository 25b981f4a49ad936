import BinaryLift.Program.Func.Basic

/-!
# Iteration

The least set that contains some starting elements and, with each element, everything one step leads
to: elements are marked when they enter the work list, so each is expanded once; `bound` is the
number of elements that can be met. Transformations report whether they changed anything: a sweep applies
a step to each item of a list, and a round is repeated until it changes nothing.
-/

namespace BinaryLift

/-! ### Closure under a step -/

section

variable {α : Type} [DecidableEq α]

/-- The members of a list that have not been seen, each once. -/
def fresh (seen : List α) : List α → List α
  | [] => []
  | x :: xs => if x ∈ seen then fresh seen xs else x :: fresh (x :: seen) xs

/-- Expand the work list until it is empty. -/
def closureFrom (step : α → Checked (List α)) : Nat → List α → List α → Checked (List α)
  | _, [], seen => .ok seen
  | 0, _ :: _, _ => .error .stepLimit
  | n + 1, x :: work, seen => do
    let new := fresh seen (← step x)
    closureFrom step n (new ++ work) (seen ++ new)

/-- Everything that `start` leads to, `start` included. -/
def closure (step : α → Checked (List α)) (bound : Nat) (start : List α) : Checked (List α) :=
  let first := fresh [] start
  closureFrom step bound first first

theorem mem_fresh {seen xs : List α} {y : α} : y ∈ fresh seen xs ↔ y ∈ xs ∧ y ∉ seen := by
  induction xs generalizing seen with
  | nil => simp [fresh]
  | cons x xs ih =>
    by_cases hx : x ∈ seen
    · simp only [fresh, hx, if_true, ih, List.mem_cons]
      constructor
      · rintro ⟨h, hs⟩
        exact ⟨.inr h, hs⟩
      · rintro ⟨rfl | h, hs⟩
        · exact absurd hx hs
        · exact ⟨h, hs⟩
    · simp only [fresh, hx, if_false, List.mem_cons, ih]
      constructor
      · rintro (rfl | ⟨h, hs⟩)
        · exact ⟨.inl rfl, hx⟩
        · exact ⟨.inr h, fun hm => hs (.inr hm)⟩
      · rintro ⟨rfl | h, hs⟩
        · exact .inl rfl
        · by_cases hy : y = x
          · exact .inl hy
          · exact .inr ⟨h, fun hm => hm.elim hy hs⟩

theorem nodup_fresh (seen xs : List α) : (fresh seen xs).Nodup := by
  induction xs generalizing seen with
  | nil => simp [fresh]
  | cons x xs ih =>
    by_cases hx : x ∈ seen
    · simpa [fresh, hx] using ih seen
    · simp [fresh, hx, mem_fresh, ih]

end

/-! ### Rounds -/

/-- The function after a transformation and whether it differs. -/
abbrev Transformed := Checked (Func × Bool)

/-- Apply a step to every item, left to right. -/
def sweepOver {α : Type} (step : Func → α → Transformed) (f : Func) (items : List α) :
    Transformed :=
  items.foldlM (fun acc x => do
    let (f, changed) ← step acc.1 x
    return (f, acc.2 || changed)) (f, false)

/-- Repeat a round until it changes nothing, for at most `n` rounds. -/
def untilStable (round : Func → Transformed) : Nat → Func → Transformed
  | 0, _ => .error .stepLimit
  | n + 1, f => do
    let (f, changed) ← round f
    if changed then return ((← untilStable round n f).1, true) else return (f, false)

end BinaryLift
