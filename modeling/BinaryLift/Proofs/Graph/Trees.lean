import Mathlib.Algebra.Order.Ring.Nat
import Mathlib.Tactic.Common

/-!
# Trees of positions

A forest is given by the step from a position to the one above it. Improving every position once, in
order, by the common ancestors of its predecessors only takes ancestors away. Two facts carry this
from one round to the next: a position stands below every predecessor that comes before it, and
whatever lies above all predecessors lies above it.
-/

namespace BinaryLift

/-- Where one comes to from a position. -/
abbrev Climb := Nat → Option Nat

/-- `x` is `k` or lies above it. -/
inductive Above (u : Climb) (x : Nat) : Nat → Prop
  | refl : Above u x x
  | up {k p : Nat} : u k = some p → Above u x p → Above u x k

/-- The first `m` positions hang together at position zero, and steps lead to smaller positions. -/
structure Rooted (u : Climb) (m : Nat) : Prop where
  root : u 0 = some 0
  step : ∀ k, 0 < k → k < m → ∃ p, u k = some p ∧ p < k

section

variable {u v : Climb} {m x y k p : Nat}

theorem Above.trans (hxy : Above u x y) (hyk : Above u y k) : Above u x k := by
  induction hyk with
  | refl => exact hxy
  | up hstep _ ih => exact .up hstep ih

theorem Rooted.mono {m' : Nat} (h : Rooted u m) (hle : m' ≤ m) : Rooted u m' :=
  ⟨h.root, fun k hpos hk => h.step k hpos (Nat.lt_of_lt_of_le hk hle)⟩

theorem Rooted.exists_le (h : Rooted u m) (hk : k < m) : ∃ p, u k = some p ∧ p ≤ k := by
  rcases Nat.eq_zero_or_pos k with rfl | hpos
  · exact ⟨0, h.root, Nat.le_refl _⟩
  · obtain ⟨p, hp, hlt⟩ := h.step k hpos hk
    exact ⟨p, hp, Nat.le_of_lt hlt⟩

theorem Rooted.ne_none (h : Rooted u m) (hk : k < m) : u k ≠ none := by
  obtain ⟨p, hp, _⟩ := h.exists_le hk
  rw [hp]
  exact Option.some_ne_none _

theorem Rooted.le (h : Rooted u m) (hk : k < m) (hstep : u k = some p) : p ≤ k := by
  obtain ⟨p', hp', hle⟩ := h.exists_le hk
  rw [hp'] at hstep
  cases hstep
  exact hle

/-- One position gets a new place, or the first one it has. -/
theorem Rooted.place {m' : Nat} (h : Rooted u m) (hpos : 0 < k) (hp : p < k)
    (hv : ∀ j, v j = if j = k then some p else u j) (hm : ∀ j, j < m' → j ≠ k → j < m) :
    Rooted v m' where
  root := by
    rw [hv 0, if_neg (Nat.ne_of_lt hpos)]
    exact h.root
  step := by
    intro j hj hjm
    rw [hv j]
    by_cases hjk : j = k
    · rw [if_pos hjk]
      exact ⟨p, rfl, hjk ▸ hp⟩
    · rw [if_neg hjk]
      exact h.step j hj (hm j hjm hjk)

theorem Above.le (h : Rooted u m) (hk : k < m) (ha : Above u x k) : x ≤ k := by
  induction ha with
  | refl => exact Nat.le_refl _
  | up hstep _ ih =>
    have hle := h.le hk hstep
    exact Nat.le_trans (ih (Nat.lt_of_le_of_lt hle hk)) hle

theorem Above.of_ne (ha : Above u x k) (hne : x ≠ k) (hstep : u k = some p) : Above u x p := by
  cases ha with
  | refl => exact absurd rfl hne
  | up hstep' ha' =>
    rw [hstep] at hstep'
    cases hstep'
    exact ha'

theorem Above.congr (h : Rooted u m) (hk : k < m) (hsame : ∀ j, j ≤ k → u j = v j)
    (ha : Above u x k) : Above v x k := by
  induction ha with
  | refl => exact .refl
  | @up k p hstep _ ih =>
    have hle := h.le hk hstep
    have hstep' : v k = some p := by rw [← hsame k (Nat.le_refl _), hstep]
    exact .up hstep' (ih (Nat.lt_of_le_of_lt hle hk) fun j hj => hsame j (Nat.le_trans hj hle))

theorem above_congr_iff (hu : Rooted u m) (hv : Rooted v m) (hk : k < m)
    (hsame : ∀ j, j ≤ k → u j = v j) : Above u x k ↔ Above v x k :=
  ⟨Above.congr hu hk hsame, Above.congr hv hk fun j hj => (hsame j hj).symm⟩

end

/-- Positions before `k` as in `v`, the others as in `u`. -/
def splice (u v : Climb) (k : Nat) : Climb := fun j => if j < k then v j else u j

section

variable {u v : Climb} {n k x q : Nat}

theorem splice_below (u v : Climb) {j : Nat} (h : j < k) : splice u v k j = v j := by
  simp only [splice, h, if_true]

theorem splice_from (u v : Climb) {j : Nat} (h : k ≤ j) : splice u v k j = u j := by
  simp only [splice, Nat.not_lt.2 h, if_false]

theorem Rooted.splice (hu : Rooted u n) (hv : Rooted v n) (k : Nat) : Rooted (splice u v k) n where
  root := by
    unfold BinaryLift.splice
    split
    · exact hv.root
    · exact hu.root
  step := by
    intro j hpos hj
    unfold BinaryLift.splice
    split
    · exact hv.step j hpos hj
    · exact hu.step j hpos hj

theorem above_splice_below (hu : Rooted u n) (hv : Rooted v n) (hq : q < k) (hn : q < n) :
    Above (splice u v k) x q ↔ Above v x q :=
  above_congr_iff (hu.splice hv k) hv hn fun _ hj => splice_below u v (Nat.lt_of_le_of_lt hj hq)

end

/-- Positions with predecessors; each but the first has one that comes before it. -/
structure Flow (n : Nat) (preds : Nat → List Nat) : Prop where
  lt : ∀ k, k < n → ∀ q ∈ preds k, q < n
  forward : ∀ k, 0 < k → k < n → ∃ q ∈ preds k, q < k

/-- A tree of all positions that can only be improved. -/
structure Settling (n : Nat) (preds : Nat → List Nat) (u : Climb) : Prop where
  rooted : Rooted u n
  below : ∀ k p, 0 < k → k < n → u k = some p → ∀ q ∈ preds k, q < k → Above u p q
  bound : ∀ k p, 0 < k → k < n → u k = some p →
    ∀ x, (∀ q ∈ preds k, Above u x q) → Above u x p

/-- Every position but the first was put below the common ancestors of its predecessors, in order. -/
structure Swept (n : Nat) (preds : Nat → List Nat) (u v : Climb) : Prop where
  rooted : Rooted v n
  meet : ∀ k p, 0 < k → k < n → v k = some p →
    ∀ x, Above (splice u v k) x p ↔ ∀ q ∈ preds k, Above (splice u v k) x q

section

variable {n : Nat} {preds : Nat → List Nat} {u v : Climb}

/-- If what is known up to `k` shrinks, it shrinks in the spliced tree. -/
theorem Swept.above_of_splice (hu : Settling n preds u) (hv : Swept n preds u v) {k x : Nat}
    (hshrink : ∀ j, j < k → j < n → Above v x j → Above u x j) (q : Nat) (hq : q < n)
    (h : Above (splice u v k) x q) : Above u x q := by
  induction q using Nat.strongRecOn with
  | ind q ih =>
    by_cases hqk : q < k
    · exact hshrink q hqk hq ((above_splice_below hu.rooted hv.rooted hqk hq).1 h)
    · by_cases hxq : x = q
      · subst hxq
        exact .refl
      · have hpos : 0 < q := by
          have hle := Above.le (hu.rooted.splice hv.rooted k) hq h
          omega
        obtain ⟨p, hp, hlt⟩ := hu.rooted.step q hpos hq
        have hp' : splice u v k q = some p := by rw [splice_from u v (Nat.le_of_not_lt hqk), hp]
        exact .up hp (ih p hlt (Nat.lt_trans hlt hq) (h.of_ne hxq hp'))

theorem Swept.shrinks (hflow : Flow n preds) (hu : Settling n preds u) (hv : Swept n preds u v)
    {k x : Nat} (hk : k < n) (h : Above v x k) : Above u x k := by
  induction k using Nat.strongRecOn with
  | ind k ih =>
    by_cases hxk : x = k
    · subst hxk
      exact .refl
    · have hpos : 0 < k := by
        have hle := Above.le hv.rooted hk h
        omega
      obtain ⟨p, hp, hlt⟩ := hv.rooted.step k hpos hk
      obtain ⟨p₀, hp₀, _⟩ := hu.rooted.step k hpos hk
      have hxp : Above (splice u v k) x p :=
        (above_splice_below hu.rooted hv.rooted hlt (Nat.lt_trans hlt hk)).2 (h.of_ne hxk hp)
      refine .up hp₀ (hu.bound k p₀ hpos hk hp₀ x fun q hq => ?_)
      exact hv.above_of_splice hu (fun j hj hn hx => ih j hj hn hx) q (hflow.lt k hk q hq)
        ((hv.meet k p hpos hk hp x).1 hxp q hq)

theorem Swept.below (hu : Settling n preds u) (hv : Swept n preds u v) {k p : Nat} (hpos : 0 < k)
    (hk : k < n) (hp : v k = some p) {q : Nat} (hq : q ∈ preds k) (hqk : q < k) : Above v p q :=
  (above_splice_below hu.rooted hv.rooted hqk (Nat.lt_trans hqk hk)).1
    ((hv.meet k p hpos hk hp p).1 .refl q hq)

/-- A relation to a position that predecessors before it take over. -/
def Inherited (n : Nat) (preds : Nat → List Nat) (D : Nat → Nat → Prop) : Prop :=
  ∀ x k q, k < n → D x k → x ≠ k → q ∈ preds k → q < k → D x q

theorem Swept.inherited (hu : Settling n preds u) (hv : Swept n preds u v) :
    Inherited n preds (Above v) := by
  intro x k q hk hxk hne hq hqk
  obtain ⟨p, hp, _⟩ := hv.rooted.step k (Nat.zero_lt_of_lt hqk) hk
  exact (hxk.of_ne hne hp).trans (hv.below hu (Nat.zero_lt_of_lt hqk) hk hp hq hqk)

/-- What is related to a position is related to all that stands between the two. -/
theorem Inherited.between {D : Nat → Nat → Prop} (hD : Inherited n preds D) (hflow : Flow n preds)
    (hu : Settling n preds u) {i j x : Nat} (hj : j < n) (hxj : D x j) (hij : Above u i j)
    (hxi : Above u x i) : D x i := by
  induction j using Nat.strongRecOn with
  | ind j ih =>
    by_cases hne : i = j
    · subst hne
      exact hxj
    · have hile := Above.le hu.rooted hj hij
      have hpos : 0 < j := by omega
      have hxle := Above.le hu.rooted (by omega) hxi
      obtain ⟨q, hq, hqj⟩ := hflow.forward j hpos hj
      obtain ⟨p₀, hp₀, _⟩ := hu.rooted.step j hpos hj
      -- the parent of `j` lies above a predecessor that comes before it
      have hiq : Above u i q := (hij.of_ne hne hp₀).trans (hu.below j p₀ hpos hj hp₀ q hq hqj)
      exact ih q hqj (Nat.lt_trans hqj hj) (hD x j q hj hxj (by omega) hq hqj) hiq

/-- A relation that the old tree shows, and the new one before `k`, is shown by the spliced tree. -/
theorem Inherited.above_splice {D : Nat → Nat → Prop} (hD : Inherited n preds D)
    (hflow : Flow n preds) (hu : Settling n preds u) (hv : Rooted v n) {k : Nat}
    (hold : ∀ x j, j < n → D x j → Above u x j)
    (hnew : ∀ x j, j < k → j < n → D x j → Above v x j) {q x : Nat} (hq : q < n) (h : D x q) :
    Above (splice u v k) x q := by
  induction q using Nat.strongRecOn with
  | ind q ih =>
    by_cases hqk : q < k
    · exact (above_splice_below hu.rooted hv hqk hq).2 (hnew x q hqk hq h)
    · by_cases hxq : x = q
      · subst hxq
        exact .refl
      · have hxu := hold x q hq h
        have hpos : 0 < q := by
          have hle := Above.le hu.rooted hq hxu
          omega
        obtain ⟨p, hp, hlt⟩ := hu.rooted.step q hpos hq
        have hxp : D x p := hD.between hflow hu hq h (.up hp .refl) (hxu.of_ne hxq hp)
        refine .up (p := p) ?_ (ih p hlt (Nat.lt_trans hlt hq) hxp)
        rw [splice_from u v (Nat.le_of_not_lt hqk), hp]

/-- A sweep keeps what the next one needs. -/
theorem Swept.settling (hflow : Flow n preds) (hu : Settling n preds u) (hv : Swept n preds u v) :
    Settling n preds v where
  rooted := hv.rooted
  below := fun _ _ hpos hk hp _ hq hqk => hv.below hu hpos hk hp hq hqk
  bound := by
    intro k p hpos hk hp x h
    obtain ⟨p', hp', hlt⟩ := hv.rooted.step k hpos hk
    rw [hp] at hp'
    cases hp'
    rw [← above_splice_below hu.rooted hv.rooted hlt (Nat.lt_trans hlt hk), hv.meet k p hpos hk hp]
    exact fun q hq => (hv.inherited hu).above_splice hflow hu hv.rooted
      (fun _ _ hj hx => hv.shrinks hflow hu hj hx) (fun _ _ _ _ hx => hx) (hflow.lt k hk q hq) (h q hq)

/-- A relation to a position that all its predecessors take over. -/
structure Transmitted (n : Nat) (preds : Nat → List Nat) (D : Nat → Nat → Prop) : Prop where
  root : ∀ x, D x 0 → x = 0
  preds : ∀ x k q, k < n → D x k → x ≠ k → q ∈ preds k → D x q

/-- A sweep does not lose what all predecessors take over. -/
theorem Transmitted.above_swept {D : Nat → Nat → Prop} (hD : Transmitted n preds D)
    (hflow : Flow n preds) (hu : Settling n preds u) (hv : Swept n preds u v)
    (hold : ∀ x j, j < n → D x j → Above u x j) (x k : Nat) (hk : k < n) (h : D x k) :
    Above v x k := by
  have hinherited : Inherited n preds D := fun x k q hk hxk hne hq _ => hD.preds x k q hk hxk hne hq
  induction k using Nat.strongRecOn generalizing x with
  | ind k ih =>
    by_cases hxk : x = k
    · subst hxk
      exact .refl
    · have hpos : 0 < k := by
        rcases Nat.eq_zero_or_pos k with rfl | hpos
        · exact absurd (hD.root x h) hxk
        · exact hpos
      obtain ⟨p, hp, hlt⟩ := hv.rooted.step k hpos hk
      refine .up hp ((above_splice_below hu.rooted hv.rooted hlt (Nat.lt_trans hlt hk)).1 ?_)
      rw [hv.meet k p hpos hk hp x]
      intro q hq
      exact hinherited.above_splice hflow hu hv.rooted hold (fun y j hjk hj hy => ih j hjk y hj hy)
        (hflow.lt k hk q hq) (hD.preds x k q hk h hxk hq)

theorem Swept.le (hflow : Flow n preds) (hu : Settling n preds u) (hv : Swept n preds u v)
    {k p p' : Nat} (hk : k < n) (hp : u k = some p) (hp' : v k = some p') : p' ≤ p := by
  rcases Nat.eq_zero_or_pos k with rfl | hpos
  · rw [hu.rooted.root] at hp
    rw [hv.rooted.root] at hp'
    cases hp
    cases hp'
    exact Nat.le_refl _
  · obtain ⟨p'', hp'', hlt⟩ := hv.rooted.step k hpos hk
    rw [hp'] at hp''
    cases hp''
    have habove : Above u p' k := hv.shrinks hflow hu hk (.up hp' .refl)
    have hple := hu.rooted.le hk hp
    exact Above.le hu.rooted (by omega) (habove.of_ne (Nat.ne_of_lt hlt) hp)

end

end BinaryLift
