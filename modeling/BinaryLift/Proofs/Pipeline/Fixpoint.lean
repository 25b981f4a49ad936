import BinaryLift.Pipeline.Optimize
import Mathlib.Order.Bounds.Basic
import Mathlib.Tactic.Common

/-!
# When the rounds stop

A run of rounds is compared with the plain sequence of all rounds: it stops at the first round that
does not lower the size, or at the limit, and leaves what that many rounds make of the start. The
rounds may be anything that can fail, with a state of their own.
-/

namespace BinaryLift

section

variable {σ ε : Type} (round : σ → Except ε σ) (size : σ → Nat)

/-- What `k` rounds make of a state. -/
def afterRounds (s : σ) : Nat → Except ε σ
  | 0 => .ok s
  | k + 1 => afterRounds s k >>= round

/-- Round `k` succeeds and does not lower the size. -/
def Stalls (s : σ) (k : Nat) : Prop :=
  ∃ a b, afterRounds round s (k - 1) = .ok a ∧ afterRounds round s k = .ok b ∧ size a ≤ size b

/-- A run stops after `k` rounds: at once under the limit zero, and else with the first round that
is the last allowed one or does not lower the size. -/
def StopsAfter (limit : Nat) (s : σ) (k : Nat) : Prop :=
  if limit = 0 then k = 0
  else IsLeast { j | 1 ≤ j ∧ (j = limit ∨ Stalls round size s j) } k

/-- Every round up to the `k`-th succeeds, and each makes the state smaller. -/
def Falls (s : σ) (k : Nat) : Prop :=
  ∀ i j, i < j → j ≤ k →
    ∃ a b, afterRounds round s i = .ok a ∧ afterRounds round s j = .ok b ∧ size b < size a

/-- What a run of rounds reports of the state it started with and the one it left. -/
structure Reports (limit : Nat) (s t : σ) (report : OptimizeReport) : Prop where
  stops : StopsAfter round size limit s report.iterations
  left : afterRounds round s report.iterations = .ok t
  initial : report.initial = size s
  final : report.final = size t

end

section

variable {σ ε : Type} {round : σ → Except ε σ} {size : σ → Nat} {s t : σ} {limit k : Nat}

theorem afterRounds_one : afterRounds round s 1 = round s := rfl

theorem afterRounds_of_ok (h : round s = .ok t) (k : Nat) :
    afterRounds round s (k + 1) = afterRounds round t k := by
  induction k with
  | zero => exact h
  | succ k ih =>
    rw [afterRounds, ih]
    rfl

theorem ok_of_afterRounds {i : Nat} (hi : i ≤ k) (h : afterRounds round s k = .ok t) :
    ∃ a, afterRounds round s i = .ok a := by
  induction k generalizing t with
  | zero =>
    obtain rfl : i = 0 := by omega
    exact ⟨t, h⟩
  | succ k ih =>
    by_cases hlast : i = k + 1
    · rw [hlast]
      exact ⟨t, h⟩
    · cases hk : afterRounds round s k with
      | error e =>
        rw [afterRounds, hk] at h
        cases h
      | ok u => exact ih (by omega) hk

theorem stalls_succ (h : round s = .ok t) (hk : 1 ≤ k) :
    Stalls round size s (k + 1) ↔ Stalls round size t k := by
  obtain ⟨j, rfl⟩ : ∃ j, k = j + 1 := ⟨k - 1, by omega⟩
  simp only [Stalls, Nat.add_sub_cancel, afterRounds_of_ok h]

theorem stalls_one (h : round s = .ok t) : Stalls round size s 1 ↔ size s ≤ size t := by
  constructor
  · rintro ⟨a, b, ha, hb, hle⟩
    cases ha
    rw [afterRounds_one, h] at hb
    cases hb
    exact hle
  · exact fun hle => ⟨s, t, rfl, h, hle⟩

/-! ### One round -/

theorem stopsAfter_of_stalls (h : round s = .ok t) (hle : size s ≤ size t) (n : Nat) :
    StopsAfter round size (n + 1) s 1 := by
  rw [StopsAfter, if_neg (Nat.succ_ne_zero n)]
  exact ⟨⟨Nat.le_refl 1, .inr ((stalls_one h).2 hle)⟩, fun j hj => hj.1⟩

/-- After a round that made the state smaller a run goes on as from there. -/
theorem stopsAfter_succ (h : round s = .ok t) (hlt : size t < size s) {n : Nat}
    (hk : StopsAfter round size n t k) : StopsAfter round size (n + 1) s (k + 1) := by
  rw [StopsAfter, if_neg (Nat.succ_ne_zero n)]
  by_cases hn : n = 0
  · rw [StopsAfter, if_pos hn] at hk
    subst hk hn
    exact ⟨⟨Nat.le_refl 1, .inl rfl⟩, fun j hj => hj.1⟩
  · rw [StopsAfter, if_neg hn] at hk
    obtain ⟨⟨hpos, hstop⟩, hleast⟩ := hk
    refine ⟨⟨by omega, hstop.imp (congrArg (· + 1)) (stalls_succ h hpos).2⟩, ?_⟩
    rintro j ⟨hj, hstop'⟩
    by_cases hone : j = 1
    · subst hone
      rcases hstop' with hlimit | hstall
      · omega
      · have hle := (stalls_one h).1 hstall
        omega
    · obtain ⟨i, rfl⟩ : ∃ i, j = i + 1 := ⟨j - 1, by omega⟩
      have hi : 1 ≤ i := by omega
      have hle := hleast ⟨hi, hstop'.imp (by omega) (stalls_succ h hi).1⟩
      omega

theorem falls_zero : Falls round size s 0 := by
  intro i j hij hj
  omega

theorem Falls.succ (h : round s = .ok t) (hlt : size t < size s) (hk : Falls round size t k) :
    Falls round size s (k + 1) := by
  -- everything after the first round is smaller than its result or that result itself
  have hle : ∀ j, j ≤ k → ∃ b, afterRounds round t j = .ok b ∧ size b ≤ size t := by
    intro j hj
    by_cases hz : j = 0
    · subst hz
      exact ⟨t, rfl, Nat.le_refl _⟩
    · obtain ⟨a, b, ha, hb, hab⟩ := hk 0 j (by omega) hj
      cases ha
      exact ⟨b, hb, Nat.le_of_lt hab⟩
  intro i j hij hj
  obtain ⟨j, rfl⟩ : ∃ m, j = m + 1 := ⟨j - 1, by omega⟩
  cases i with
  | zero =>
    obtain ⟨b, hb, hbt⟩ := hle j (by omega)
    exact ⟨s, b, rfl, by rw [afterRounds_of_ok h, hb], by omega⟩
  | succ i =>
    obtain ⟨a, b, ha, hb, hab⟩ := hk i j (by omega) (by omega)
    exact ⟨a, b, by rw [afterRounds_of_ok h, ha], by rw [afterRounds_of_ok h, hb], hab⟩

/-! ### A whole run -/

/-- How a run of at most `n` rounds ends when `count` have been run before. -/
inductive ShrinkEnds (round : σ → Except ε σ) (size : σ → Nat) (n count : Nat) (s : σ) :
    Except ε (σ × Nat) → Prop where
  | stopped {k : Nat} {t : σ} : StopsAfter round size n s k → afterRounds round s k = .ok t →
      Falls round size s (k - 1) → ShrinkEnds round size n count s (.ok (t, count + k))
  | failed {k : Nat} {e : ε} : k < n → Falls round size s k →
      afterRounds round s (k + 1) = .error e → ShrinkEnds round size n count s (.error e)

theorem ShrinkEnds.succ {n count : Nat} {x : Except ε (σ × Nat)} (h : round s = .ok t)
    (hlt : size t < size s) (hx : ShrinkEnds round size n (count + 1) t x) :
    ShrinkEnds round size (n + 1) count s x := by
  cases hx with
  | @stopped k u hstop hleft hfalls =>
    rw [show count + 1 + k = count + (k + 1) by omega]
    refine .stopped (stopsAfter_succ h hlt hstop) (by rw [afterRounds_of_ok h, hleft]) ?_
    cases k with
    | zero => exact falls_zero
    | succ k => exact hfalls.succ h hlt
  | @failed k e hkn hfalls he =>
    exact .failed (by omega) (hfalls.succ h hlt) (by rw [afterRounds_of_ok h, he])

theorem shrinkFrom_ends (round : σ → Except ε σ) (size : σ → Nat) (n count : Nat) (s : σ) :
    ShrinkEnds round size n count s (shrinkFrom round size n count (size s) s) := by
  induction n generalizing count s with
  | zero =>
    have hstop : StopsAfter round size 0 s 0 := by rw [StopsAfter, if_pos rfl]
    exact .stopped hstop rfl falls_zero
  | succ n ih =>
    cases hr : round s with
    | error e =>
      simp only [shrinkFrom, hr]
      exact .failed (Nat.succ_pos n) falls_zero hr
    | ok t =>
      by_cases hle : size s ≤ size t
      · have hone : shrinkFrom round size (n + 1) count (size s) s = .ok (t, count + 1) := by
          simp only [shrinkFrom, hr, bind, Except.bind, hle, if_true]
          rfl
        rw [hone]
        exact .stopped (stopsAfter_of_stalls hr hle n) hr falls_zero
      · have hmore : shrinkFrom round size (n + 1) count (size s) s =
            shrinkFrom round size n (count + 1) (size t) t := by
          simp only [shrinkFrom, hr, bind, Except.bind, hle, if_false]
        rw [hmore]
        exact (ih (count + 1) t).succ hr (by omega)

theorem StopsAfter.unique {j : Nat} (h : StopsAfter round size limit s k)
    (h' : StopsAfter round size limit s j) : j = k := by
  unfold StopsAfter at h h'
  split at h
  · rename_i hzero
    rw [if_pos hzero] at h'
    rw [h, h']
  · rename_i hpos
    rw [if_neg hpos] at h'
    exact h'.unique h

/-- No run stops while the size still falls and the limit is not reached. -/
theorem Falls.not_stopsAfter {j : Nat} (h : Falls round size s k) (hlimit : k < limit)
    (hj : j ≤ k) : ¬ StopsAfter round size limit s j := by
  intro hstop
  rw [StopsAfter, if_neg (by omega)] at hstop
  obtain ⟨⟨hpos, hlast | ⟨a, b, ha, hb, hle⟩⟩, _⟩ := hstop
  · omega
  · obtain ⟨a', b', ha', hb', hlt⟩ := h (j - 1) j (by omega) hj
    rw [ha] at ha'
    rw [hb] at hb'
    cases ha'
    cases hb'
    omega

/-- A run that stops comes to no failing round behind rounds that all make the state smaller. -/
theorem StopsAfter.not_failed {j : Nat} {e : ε} (hstop : StopsAfter round size limit s k)
    (hleft : afterRounds round s k = .ok t) (hj : j < limit) (hfalls : Falls round size s j) :
    afterRounds round s (j + 1) ≠ .error e := by
  intro he
  have hkj : k ≤ j := by
    by_contra hlt
    obtain ⟨b, hb⟩ := ok_of_afterRounds (i := j + 1) (by omega) hleft
    rw [he] at hb
    cases hb
  exact hfalls.not_stopsAfter hj hkj hstop

/-- The first round that fails is the one after those that make the state smaller. -/
theorem Falls.failed_unique {j : Nat} {e e' : ε} (h : Falls round size s k)
    (he : afterRounds round s (k + 1) = .error e) (h' : Falls round size s j)
    (he' : afterRounds round s (j + 1) = .error e') : e' = e := by
  have hle : ∀ {m n : Nat} {x : ε}, Falls round size s m → afterRounds round s (n + 1) = .error x →
      m ≤ n := by
    intro m n x hm hx
    by_contra hlt
    obtain ⟨_, b, _, hb, _⟩ := hm 0 (n + 1) (by omega) (by omega)
    rw [hx] at hb
    cases hb
  obtain rfl : j = k := Nat.le_antisymm (hle h' he) (hle h he')
  rw [he] at he'
  cases he'
  rfl

end

/-- The stop rule of a run of rounds: what it returns, how the sizes went on the way, and when a
fault ends it instead. -/
structure ObeysStopRule {σ ε : Type} (round : σ → Except ε σ) (size : σ → Nat) (limit : Nat) (s : σ)
    (x : Except ε (σ × OptimizeReport)) : Prop where
  returns : ∀ t report, x = .ok (t, report) ↔ Reports round size limit s t report
  falls : ∀ t report, x = .ok (t, report) → Falls round size s (report.iterations - 1)
  fails : ∀ e, x = .error e ↔
    ∃ k < limit, Falls round size s k ∧ afterRounds round s (k + 1) = .error e

section

variable {σ ε : Type} {round : σ → Except ε σ} {size : σ → Nat} {limit k : Nat} {s t : σ} {e : ε}

theorem obeysStopRule_of_stopped (hstop : StopsAfter round size limit s k)
    (hleft : afterRounds round s k = .ok t) (hfalls : Falls round size s (k - 1)) :
    ObeysStopRule round size limit s
      (.ok (t, { iterations := k, initial := size s, final := size t })) where
  returns := by
    intro u report
    constructor
    · rintro ⟨⟩
      exact ⟨hstop, hleft, rfl, rfl⟩
    · rintro ⟨hstop', hleft', hinitial, hfinal⟩
      obtain ⟨i, n, m⟩ := report
      obtain rfl : i = k := hstop.unique hstop'
      rw [hleft] at hleft'
      cases hleft'
      cases hinitial
      cases hfinal
      rfl
  falls := by
    rintro u report ⟨⟩
    exact hfalls
  fails := by
    intro e
    refine ⟨by rintro ⟨⟩, ?_⟩
    rintro ⟨j, hj, hfalls', he⟩
    exact absurd he (hstop.not_failed hleft hj hfalls')

theorem obeysStopRule_of_failed (hk : k < limit) (hfalls : Falls round size s k)
    (he : afterRounds round s (k + 1) = .error e) :
    ObeysStopRule round size limit s (.error e) where
  returns := by
    intro u report
    refine ⟨by rintro ⟨⟩, ?_⟩
    rintro ⟨hstop, hleft, _, _⟩
    exact absurd he (hstop.not_failed hleft hk hfalls)
  falls := by
    rintro u report ⟨⟩
  fails := by
    intro e'
    constructor
    · rintro ⟨⟩
      exact ⟨k, hk, hfalls, he⟩
    · rintro ⟨j, hj, hfalls', he'⟩
      rw [hfalls.failed_unique he hfalls' he']

end

theorem shrink_obeys {σ ε : Type} (round : σ → Except ε σ) (size : σ → Nat) (limit : Nat) (s : σ) :
    ObeysStopRule round size limit s (shrink round size limit s) := by
  have hends := shrinkFrom_ends round size limit 0 s
  unfold shrink
  cases hx : shrinkFrom round size limit 0 (size s) s with
  | ok p =>
    rw [hx] at hends
    cases hends with
    | stopped hstop hleft hfalls =>
      simp only [Nat.zero_add]
      exact obeysStopRule_of_stopped hstop hleft hfalls
  | error e =>
    rw [hx] at hends
    cases hends with
    | failed hk hfalls he => exact obeysStopRule_of_failed hk hfalls he

/-- A round of passes runs the first one, and then the others on what it makes of the module. -/
theorem Pass.runAll_cons_eq (img : Image) (p : Pass) (ps : List Pass) (m : Module) :
    runAll img (p :: ps) m = (p.run img m).bind fun r => runAll img ps r.1 := by
  unfold runAll
  rw [List.foldlM_cons]
  cases p.run img m <;> rfl

/-- Runs of passes obey the stop rule, whatever the passes make of a module and whatever state of
their own they keep beside it. A round of a list of passes runs them one after another. -/
theorem runToFixpoint_obeys :
    (∀ {σ : Type} (round : σ → Checked σ) (view : σ → Module) (limit : Nat) (s : σ),
      ObeysStopRule round (fun t => (view t).instructionCount) limit s
        (shrink round (fun t => (view t).instructionCount) limit s)) ∧
    ∀ (img : Image) (passes : List Pass) (limit : Nat) (m : Module),
      ObeysStopRule (Pass.runAll img passes) Module.instructionCount limit m
        (runToFixpoint img passes limit m) ∧
      Pass.runAll img [] m = .ok m ∧
      ∀ p, Pass.runAll img (p :: passes) m =
        (p.run img m).bind fun r => Pass.runAll img passes r.1 := by
  refine ⟨fun round view limit s => shrink_obeys round (fun t => (view t).instructionCount) limit s,
    fun img passes limit m => ⟨?_, rfl, fun p => Pass.runAll_cons_eq img p passes m⟩⟩
  exact shrink_obeys (Pass.runAll img passes) Module.instructionCount limit m

/-- A round that drops one of eleven instructions as long as its budget allows: the round after the
last that helps is run as well, and the limit cuts a long budget short. -/
example :
    let round : Nat × Nat → Checked (Nat × Nat) := fun s =>
      .ok (if s.2 = 0 then s else (s.1 - 1, s.2 - 1))
    shrink round (·.1) 3 (11, 1) = .ok ((10, 0), ⟨2, 11, 10⟩) ∧
      shrink round (·.1) 3 (11, 9) = .ok ((8, 6), ⟨3, 11, 8⟩) ∧
      shrink round (·.1) 0 (11, 9) = .ok ((11, 9), ⟨0, 11, 11⟩) := by
  decide

end BinaryLift
