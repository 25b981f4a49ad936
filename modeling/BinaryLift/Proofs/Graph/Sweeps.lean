import BinaryLift.Graph.Dominators
import BinaryLift.Proofs.Graph.Trees
import Mathlib.Algebra.Order.BigOperators.Group.List
import Mathlib.Algebra.Order.Group.Nat

/-!
# Sweeps

The array of places read as a tree of positions. The first sweep places every position below the
predecessors that come before it; each later one is a sweep of such a tree. Places only move to
smaller positions, so the sweeps come to an end within the bound.
-/

namespace BinaryLift.DomTree

/-- The tree that an array of places stands for. -/
def climbOf (d : Array (Option Nat)) : Climb := fun k => d[k]?.join

theorem intersect_spec {d : Array (Option Nat)} {m : Nat} (h : Rooted (climbOf d) m) (n : Nat) :
    ∀ a b, a < m → b < m → a + b < n → ∃ r, intersect d n a b = some r ∧ r < m ∧
      ∀ x, Above (climbOf d) x r ↔ Above (climbOf d) x a ∧ Above (climbOf d) x b := by
  induction n with
  | zero =>
    intro a b _ _ hn
    omega
  | succ n ih =>
    intro a b ha hb hn
    unfold intersect
    by_cases hab : a = b
    · subst hab
      rw [if_pos rfl]
      exact ⟨a, rfl, ha, fun x => (and_self_iff).symm⟩
    · rw [if_neg hab]
      by_cases hgt : a > b
      · rw [if_pos hgt]
        obtain ⟨p, hp, hlt⟩ := h.step a (by omega) ha
        obtain ⟨r, hr, hrm, hiff⟩ := ih p b (by omega) hb (by omega)
        refine ⟨r, ?_, hrm, fun x => ?_⟩
        · rw [show d[a]?.join = some p from hp]
          exact hr
        · rw [hiff x]
          refine and_congr_left fun hxb => ⟨fun hx => .up hp hx, fun hx => hx.of_ne ?_ hp⟩
          have hle := Above.le h hb hxb
          omega
      · rw [if_neg hgt]
        obtain ⟨p, hp, hlt⟩ := h.step b (by omega) hb
        obtain ⟨r, hr, hrm, hiff⟩ := ih a p ha (by omega) (by omega)
        refine ⟨r, ?_, hrm, fun x => ?_⟩
        · rw [show d[b]?.join = some p from hp]
          exact hr
        · rw [hiff x]
          refine and_congr_right fun hxa => ⟨fun hx => .up hp hx, fun hx => hx.of_ne ?_ hp⟩
          have hle := Above.le h ha hxa
          omega

/-- One more predecessor. -/
def meetStep (d : Array (Option Nat)) (acc : Option Nat) (q : Nat) : Checked (Option Nat) :=
  match d[q]?.join, acc with
  | none, _ => return acc
  | some _, none => return some q
  | some _, some r =>
    match intersect d (q + r + 1) q r with
    | some r => return some r
    | none => .error .stepLimit

theorem meet_eq_foldlM (d : Array (Option Nat)) (qs : List Nat) :
    meet d qs = qs.foldlM (meetStep d) none := rfl

/-- A predecessor without a place is passed over; the others leave what is above all of them. -/
theorem meetStep_spec {d : Array (Option Nat)} {m : Nat} (h : Rooted (climbOf d) m) (q : Nat)
    (acc : Option Nat) (hacc : ∀ a, acc = some a → a < m) (hq : climbOf d q ≠ none → q < m) :
    ∃ o, meetStep d acc q = .ok o ∧ (o = none → acc = none ∧ climbOf d q = none) ∧
      ∀ r, o = some r → r < m ∧ ∀ x, Above (climbOf d) x r ↔
        (∀ a, acc = some a → Above (climbOf d) x a) ∧
          (climbOf d q ≠ none → Above (climbOf d) x q) := by
  cases hplace : climbOf d q with
  | none =>
    refine ⟨acc, ?_, fun hnone => ⟨hnone, rfl⟩, fun r hr => ⟨hacc r hr, fun x => ?_⟩⟩
    · simp only [meetStep, show d[q]?.join = none from hplace]
      rfl
    · simp [hr]
  | some p =>
    have hqm : q < m := hq (by rw [hplace]; exact Option.some_ne_none _)
    cases acc with
    | none =>
      refine ⟨some q, ?_, nofun, ?_⟩
      · simp only [meetStep, show d[q]?.join = some p from hplace]
        rfl
      · rintro r ⟨⟩
        exact ⟨hqm, fun x => by simp⟩
    | some a =>
      have ham : a < m := hacc a rfl
      obtain ⟨c, hc, hcm, hiff⟩ := intersect_spec h (q + a + 1) q a hqm ham (by omega)
      refine ⟨some c, ?_, nofun, ?_⟩
      · simp only [meetStep, show d[q]?.join = some p from hplace, hc]
        rfl
      · rintro r ⟨⟩
        refine ⟨hcm, fun x => ?_⟩
        rw [hiff x, and_comm]
        simp

theorem meet_from {d : Array (Option Nat)} {m : Nat} (h : Rooted (climbOf d) m) (qs : List Nat)
    (acc : Option Nat) (hacc : ∀ a, acc = some a → a < m)
    (hqs : ∀ q ∈ qs, climbOf d q ≠ none → q < m) :
    ∃ o, qs.foldlM (meetStep d) acc = .ok o ∧
      (o = none → acc = none ∧ ∀ q ∈ qs, climbOf d q = none) ∧
      ∀ r, o = some r → r < m ∧ ∀ x, Above (climbOf d) x r ↔
        (∀ a, acc = some a → Above (climbOf d) x a) ∧
          ∀ q ∈ qs, climbOf d q ≠ none → Above (climbOf d) x q := by
  induction qs generalizing acc with
  | nil =>
    refine ⟨acc, rfl, fun hnone => ⟨hnone, by simp⟩, fun r hr => ⟨hacc r hr, fun x => ?_⟩⟩
    simp [hr]
  | cons q qs ih =>
    obtain ⟨acc', hstep, hnone, habove⟩ := meetStep_spec h q acc hacc (hqs q List.mem_cons_self)
    obtain ⟨o, ho, hnone', habove'⟩ := ih acc' (fun r hr => (habove r hr).1)
      fun q' hq' => hqs q' (List.mem_cons_of_mem _ hq')
    refine ⟨o, by rw [List.foldlM_cons, hstep]; exact ho, fun hn => ?_, fun r hr => ?_⟩
    · obtain ⟨h₁, h₂⟩ := hnone' hn
      obtain ⟨h₃, h₄⟩ := hnone h₁
      exact ⟨h₃, List.forall_mem_cons.2 ⟨h₄, h₂⟩⟩
    · obtain ⟨hrm, hiff⟩ := habove' r hr
      refine ⟨hrm, fun x => ?_⟩
      rw [hiff x, List.forall_mem_cons, ← and_assoc]
      refine and_congr_left fun _ => ?_
      cases acc' with
      | none =>
        obtain ⟨h₁, h₂⟩ := hnone rfl
        simp [h₁, h₂]
      | some c => simpa using (habove c rfl).2 x

/-- The common ancestors of the predecessors that have a place, if one has. -/
theorem meet_spec {d : Array (Option Nat)} {m : Nat} (h : Rooted (climbOf d) m) (qs : List Nat)
    (hqs : ∀ q ∈ qs, climbOf d q ≠ none → q < m) (hsome : ∃ q ∈ qs, climbOf d q ≠ none) :
    ∃ r, meet d qs = .ok (some r) ∧ r < m ∧
      ∀ x, Above (climbOf d) x r ↔ ∀ q ∈ qs, climbOf d q ≠ none → Above (climbOf d) x q := by
  obtain ⟨o, ho, hnone, hr⟩ := meet_from h qs none (by simp) hqs
  cases o with
  | none =>
    obtain ⟨q, hq, hne⟩ := hsome
    exact absurd ((hnone rfl).2 q hq) hne
  | some r =>
    obtain ⟨hrm, hiff⟩ := hr r rfl
    exact ⟨r, (meet_eq_foldlM d qs).trans ho, hrm, by simpa using hiff⟩

/-- Place one position. -/
def place (acc : Array (Option Nat) × Bool) (e : List Nat × Nat) :
    Checked (Array (Option Nat) × Bool) := do
  if e.2 = 0 then return acc
  let new ← meet acc.1 e.1
  if new.isSome ∧ acc.1[e.2]?.join ≠ new then
    return (acc.1.setIfInBounds e.2 new, true)
  else return acc

theorem sweep_eq_foldlM (preds : List (List Nat)) (idoms : Array (Option Nat)) :
    sweep preds idoms = preds.zipIdx.foldlM place (idoms, false) := rfl

theorem place_zero (acc : Array (Option Nat) × Bool) (qs : List Nat) :
    place acc (qs, 0) = .ok acc := rfl

theorem place_spec {acc : Array (Option Nat) × Bool} {qs : List Nat} {k r : Nat} (hpos : 0 < k)
    (hk : k < acc.1.size) (hmeet : meet acc.1 qs = .ok (some r)) :
    ∃ acc', place acc (qs, k) = .ok acc' ∧ acc'.1.size = acc.1.size ∧
      (∀ j, climbOf acc'.1 j = if j = k then some r else climbOf acc.1 j) ∧
      (acc'.2 = true ↔ acc.2 = true ∨ climbOf acc.1 k ≠ some r) := by
  have hk0 : k ≠ 0 := by omega
  by_cases hsame : acc.1[k]?.join = some r
  · refine ⟨acc, ?_, rfl, ?_, ?_⟩
    · simp only [place, hk0, if_false, hmeet]
      show (if _ then _ else _ : Checked _) = _
      rw [if_neg (by simp [hsame])]
      rfl
    · intro j
      by_cases hj : j = k
      · subst hj
        rw [if_pos rfl]
        exact hsame
      · rw [if_neg hj]
    · rw [show climbOf acc.1 k = some r from hsame]
      simp
  · refine ⟨(acc.1.setIfInBounds k (some r), true), ?_, ?_, ?_, ?_⟩
    · simp only [place, hk0, if_false, hmeet]
      show (if _ then _ else _ : Checked _) = _
      rw [if_pos (by simp [hsame])]
      rfl
    · simp
    · intro j
      unfold climbOf
      rw [Array.getElem?_setIfInBounds]
      by_cases hj : j = k
      · subst hj
        simp [hk]
      · rw [if_neg hj, if_neg (Ne.symm hj)]
    · have hne : climbOf acc.1 k ≠ some r := hsame
      simp [hne]

/-- The predecessors of a position. -/
def predsAt (preds : List (List Nat)) (k : Nat) : List Nat := preds[k]?.getD []

theorem predsAt_append (done : List (List Nat)) (qs : List Nat) (rest : List (List Nat)) :
    predsAt (done ++ qs :: rest) done.length = qs := by
  simp [predsAt]

theorem sweep_induction {preds : List (List Nat)} {P : Nat → Array (Option Nat) × Bool → Prop}
    (hstep : ∀ k acc, k < preds.length → P k acc →
      ∃ acc', place acc (predsAt preds k, k) = .ok acc' ∧ P (k + 1) acc')
    (rest : List (List Nat)) :
    ∀ done acc, preds = done ++ rest → P done.length acc →
      ∃ acc', (rest.zipIdx done.length).foldlM place acc = .ok acc' ∧ P preds.length acc' := by
  induction rest with
  | nil =>
    intro done acc heq h
    rw [List.append_nil] at heq
    subst heq
    exact ⟨acc, rfl, h⟩
  | cons qs rest ih =>
    intro done acc heq h
    have hk : done.length < preds.length := by
      rw [heq]
      simp
    obtain ⟨acc₁, hplace, h₁⟩ := hstep done.length acc hk h
    rw [heq, predsAt_append] at hplace
    obtain ⟨acc', hfold, h'⟩ := ih (done ++ [qs]) acc₁ (by rw [heq]; simp) (by simpa using h₁)
    refine ⟨acc', ?_, h'⟩
    rw [List.zipIdx_cons, List.foldlM_cons, hplace]
    rw [List.length_append, List.length_singleton] at hfold
    exact hfold

/-! ### Later sweeps -/

/-- What holds when the positions before `k` have been placed again. -/
structure Partway (preds : List (List Nat)) (u : Climb) (k : Nat)
    (acc : Array (Option Nat) × Bool) : Prop where
  size : acc.1.size = preds.length
  rooted : Rooted (climbOf acc.1) preds.length
  rest : ∀ j, k ≤ j → climbOf acc.1 j = u j
  meet : ∀ j p, 0 < j → j < k → climbOf acc.1 j = some p →
    ∀ x, Above (splice u (climbOf acc.1) j) x p ↔
      ∀ q ∈ predsAt preds j, Above (splice u (climbOf acc.1) j) x q
  changed : acc.2 = true ↔ ∃ j, j < k ∧ climbOf acc.1 j ≠ u j

theorem Partway.splice_eq {preds : List (List Nat)} {u : Climb} {k : Nat}
    {acc : Array (Option Nat) × Bool} (h : Partway preds u k acc) :
    splice u (climbOf acc.1) k = climbOf acc.1 := by
  funext j
  by_cases hj : j < k
  · rw [splice_below u _ hj]
  · rw [splice_from u _ (Nat.le_of_not_lt hj), h.rest j (Nat.le_of_not_lt hj)]

/-- The first position stays at its own place. -/
theorem Partway.skip {preds : List (List Nat)} {u : Climb} {acc : Array (Option Nat) × Bool}
    (h : Partway preds u 0 acc) (hroot : u 0 = some 0) : Partway preds u 1 acc where
  size := h.size
  rooted := h.rooted
  rest := fun j _ => h.rest j (Nat.zero_le _)
  meet := by
    intro j p hj hj'
    omega
  changed := by
    rw [h.changed]
    constructor
    · rintro ⟨j, hj, _⟩
      omega
    · rintro ⟨j, hj, hne⟩
      have hj0 : j = 0 := by omega
      subst hj0
      exact absurd (h.rooted.root.trans hroot.symm) hne

theorem Partway.exists_meet {preds : List (List Nat)}
    (hflow : Flow preds.length (predsAt preds)) {u : Climb} {k : Nat}
    {acc : Array (Option Nat) × Bool} (h : Partway preds u k acc) (hpos : 0 < k)
    (hk : k < preds.length) :
    ∃ r, DomTree.meet acc.1 (predsAt preds k) = .ok (some r) ∧ r < k ∧
      ∀ x, Above (climbOf acc.1) x r ↔ ∀ q ∈ predsAt preds k, Above (climbOf acc.1) x q := by
  have hplaced : ∀ q ∈ predsAt preds k, climbOf acc.1 q ≠ none :=
    fun q hq => h.rooted.ne_none (hflow.lt k hk q hq)
  obtain ⟨q₀, hq₀, hlt₀⟩ := hflow.forward k hpos hk
  obtain ⟨r, hmeet, _, hiff⟩ := meet_spec h.rooted (predsAt preds k)
    (fun q hq _ => hflow.lt k hk q hq) ⟨q₀, hq₀, hplaced q₀ hq₀⟩
  have hiff' : ∀ x, Above (climbOf acc.1) x r ↔
      ∀ q ∈ predsAt preds k, Above (climbOf acc.1) x q := by
    intro x
    rw [hiff x]
    exact ⟨fun hx q hq => hx q hq (hplaced q hq), fun hx q hq _ => hx q hq⟩
  have hle := Above.le h.rooted (Nat.lt_trans hlt₀ hk) ((hiff' r).1 .refl q₀ hq₀)
  exact ⟨r, hmeet, Nat.lt_of_le_of_lt hle hlt₀, hiff'⟩

theorem Partway.step {preds : List (List Nat)} (hflow : Flow preds.length (predsAt preds))
    {u : Climb} {k : Nat} {acc : Array (Option Nat) × Bool} (h : Partway preds u k acc)
    (hk : k < preds.length) (hroot : u 0 = some 0) :
    ∃ acc', place acc (predsAt preds k, k) = .ok acc' ∧ Partway preds u (k + 1) acc' := by
  rcases Nat.eq_zero_or_pos k with rfl | hpos
  · exact ⟨acc, place_zero acc _, h.skip hroot⟩
  obtain ⟨r, hmeet, hrk, hiff⟩ := h.exists_meet hflow hpos hk
  obtain ⟨acc', hplace, hsize, hclimb, hchanged⟩ := place_spec hpos (by rw [h.size]; exact hk) hmeet
  have hother : ∀ j, j ≠ k → climbOf acc'.1 j = climbOf acc.1 j := by
    intro j hj
    rw [hclimb j, if_neg hj]
  have hself : climbOf acc'.1 k = some r := by rw [hclimb k, if_pos rfl]
  have hsplice : ∀ j, j ≤ k → splice u (climbOf acc'.1) j = splice u (climbOf acc.1) j := by
    intro j hj
    funext i
    unfold splice
    split
    · exact hother i (by omega)
    · rfl
  refine ⟨acc', hplace, hsize.trans h.size, h.rooted.place hpos hrk hclimb fun _ hj _ => hj,
    fun j hj => ?_, fun j p hj hjk hp x => ?_, ?_⟩
  · rw [hother j (by omega)]
    exact h.rest j (by omega)
  · rw [hsplice j (by omega)]
    by_cases heq : j = k
    · subst heq
      rw [hself] at hp
      cases hp
      rw [h.splice_eq]
      exact hiff x
    · rw [hother j heq] at hp
      exact h.meet j p hj (by omega) hp x
  · rw [hchanged, h.changed, h.rest k (Nat.le_refl _)]
    constructor
    · rintro (⟨j, hj, hne⟩ | hne)
      · exact ⟨j, by omega, by rw [hother j (by omega)]; exact hne⟩
      · exact ⟨k, by omega, by rw [hself]; exact Ne.symm hne⟩
    · rintro ⟨j, hj, hne⟩
      by_cases heq : j = k
      · subst heq
        rw [hself] at hne
        exact .inr (Ne.symm hne)
      · rw [hother j heq] at hne
        exact .inl ⟨j, by omega, hne⟩

/-- A sweep of a tree of all positions. -/
theorem sweep_spec {preds : List (List Nat)} (hflow : Flow preds.length (predsAt preds))
    {d : Array (Option Nat)} (hsize : d.size = preds.length)
    (hd : Settling preds.length (predsAt preds) (climbOf d)) :
    ∃ d' changed, sweep preds d = .ok (d', changed) ∧ d'.size = preds.length ∧
      Swept preds.length (predsAt preds) (climbOf d) (climbOf d') ∧
      (changed = true ↔ ∃ j, j < preds.length ∧ climbOf d' j ≠ climbOf d j) := by
  have hstart : Partway preds (climbOf d) 0 (d, false) := by
    refine ⟨hsize, hd.rooted, fun _ _ => rfl, ?_, ?_⟩
    · intro j p _ hj
      exact absurd hj (Nat.not_lt_zero _)
    · simp
  obtain ⟨acc, hfold, h⟩ := sweep_induction
    (fun k acc hk h => Partway.step hflow h hk hd.rooted.root) preds [] (d, false) rfl hstart
  exact ⟨acc.1, acc.2, (sweep_eq_foldlM preds _).trans hfold, h.size, ⟨h.rooted, h.meet⟩, h.changed⟩

/-! ### The first sweep -/

/-- What holds when the positions before `k` have a place and the others have none. -/
structure Begun (preds : List (List Nat)) (k : Nat) (acc : Array (Option Nat) × Bool) : Prop where
  size : acc.1.size = preds.length
  rooted : Rooted (climbOf acc.1) k
  rest : ∀ j, 0 < j → k ≤ j → climbOf acc.1 j = none
  meet : ∀ j p, 0 < j → j < k → climbOf acc.1 j = some p →
    ∀ x, Above (climbOf acc.1) x p ↔ ∀ q ∈ predsAt preds j, q < j → Above (climbOf acc.1) x q
  changed : 1 < k → acc.2 = true

theorem Begun.skip {preds : List (List Nat)} {acc : Array (Option Nat) × Bool}
    (h : Begun preds 0 acc) : Begun preds 1 acc where
  size := h.size
  rooted := ⟨h.rooted.root, fun j hj hj' => by omega⟩
  rest := fun j hj _ => h.rest j hj (Nat.zero_le _)
  meet := by
    intro j p hj hj'
    omega
  changed := by
    intro hlt
    omega

theorem Begun.exists_meet {preds : List (List Nat)}
    (hflow : Flow preds.length (predsAt preds)) {k : Nat} {acc : Array (Option Nat) × Bool}
    (h : Begun preds k acc) (hpos : 0 < k) (hk : k < preds.length) :
    ∃ r, DomTree.meet acc.1 (predsAt preds k) = .ok (some r) ∧ r < k ∧
      ∀ x, Above (climbOf acc.1) x r ↔
        ∀ q ∈ predsAt preds k, q < k → Above (climbOf acc.1) x q := by
  have hbefore : ∀ q, climbOf acc.1 q ≠ none ↔ q < k := by
    intro q
    refine ⟨fun hne => ?_, h.rooted.ne_none⟩
    by_contra hge
    exact hne (h.rest q (by omega) (Nat.le_of_not_lt hge))
  obtain ⟨q₀, hq₀, hlt₀⟩ := hflow.forward k hpos hk
  obtain ⟨r, hmeet, hrk, hiff⟩ := meet_spec h.rooted (predsAt preds k)
    (fun q _ hne => (hbefore q).1 hne) ⟨q₀, hq₀, (hbefore q₀).2 hlt₀⟩
  exact ⟨r, hmeet, hrk, by simpa only [hbefore] using hiff⟩

theorem Begun.step {preds : List (List Nat)} (hflow : Flow preds.length (predsAt preds)) {k : Nat}
    {acc : Array (Option Nat) × Bool} (h : Begun preds k acc) (hk : k < preds.length) :
    ∃ acc', place acc (predsAt preds k, k) = .ok acc' ∧ Begun preds (k + 1) acc' := by
  rcases Nat.eq_zero_or_pos k with rfl | hpos
  · exact ⟨acc, place_zero acc _, h.skip⟩
  obtain ⟨r, hmeet, hrk, hiff⟩ := h.exists_meet hflow hpos hk
  obtain ⟨acc', hplace, hsize, hclimb, hchanged⟩ := place_spec hpos (by rw [h.size]; exact hk) hmeet
  have hother : ∀ j, j ≠ k → climbOf acc'.1 j = climbOf acc.1 j := by
    intro j hj
    rw [hclimb j, if_neg hj]
  have hrooted : Rooted (climbOf acc'.1) (k + 1) :=
    h.rooted.place hpos hrk hclimb fun j hj hne => by omega
  -- the new place does not change what lies above earlier positions
  have hsame : ∀ x j, j < k → (Above (climbOf acc'.1) x j ↔ Above (climbOf acc.1) x j) := by
    intro x j hj
    refine above_congr_iff (hrooted.mono (Nat.le_succ k)) h.rooted hj fun i hi => ?_
    exact hother i (by omega)
  have hsameAll : ∀ x j, j ≤ k → ((∀ q ∈ predsAt preds j, q < j → Above (climbOf acc.1) x q) ↔
      ∀ q ∈ predsAt preds j, q < j → Above (climbOf acc'.1) x q) := by
    intro x j hj
    refine forall_congr' fun q => forall_congr' fun _ => forall_congr' fun hqj => ?_
    exact (hsame x q (by omega)).symm
  refine ⟨acc', hplace, hsize.trans h.size, hrooted, fun j hj hjk => ?_,
    fun j p hj hjk hp x => ?_, fun _ => ?_⟩
  · rw [hother j (by omega)]
    exact h.rest j hj (by omega)
  · by_cases heq : j = k
    · subst heq
      rw [hclimb j, if_pos rfl] at hp
      cases hp
      rw [hsame x r hrk, hiff x, hsameAll x j (Nat.le_refl _)]
    · rw [hother j heq] at hp
      have hlt : j < k := by omega
      have hle := h.rooted.le hlt hp
      rw [hsame x p (by omega), h.meet j p hj hlt hp x, hsameAll x j (by omega)]
  · rw [hchanged, h.rest k hpos (Nat.le_refl _)]
    exact .inr fun hnone => nomatch hnone

/-- Only the entry has a place. -/
def unplaced (n : Nat) : Array (Option Nat) := (Array.replicate n none).setIfInBounds 0 (some 0)

theorem climbOf_unplaced {n : Nat} (hn : 0 < n) (k : Nat) :
    climbOf (unplaced n) k = if k = 0 then some 0 else none := by
  unfold climbOf unplaced
  rw [Array.getElem?_setIfInBounds]
  by_cases hk : k = 0
  · subst hk
    simp [hn]
  · rw [if_neg (Ne.symm hk), if_neg hk, Array.getElem?_replicate]
    split <;> rfl

/-- All positions have a place. -/
theorem Begun.settling {preds : List (List Nat)} {acc : Array (Option Nat) × Bool}
    (h : Begun preds preds.length acc) :
    Settling preds.length (predsAt preds) (climbOf acc.1) where
  rooted := h.rooted
  below := fun k p hk hkn hp q hq hqk => (h.meet k p hk hkn hp p).1 .refl q hq hqk
  bound := fun k p hk hkn hp x hx => (h.meet k p hk hkn hp x).2 fun q hq _ => hx q hq

/-- The first tree takes no account of predecessors that come later, so it shows at least what all
predecessors take over. -/
theorem Begun.above {preds : List (List Nat)} {acc : Array (Option Nat) × Bool}
    (h : Begun preds preds.length acc) {D : Nat → Nat → Prop}
    (hD : Transmitted preds.length (predsAt preds) D) (x k : Nat) (hk : k < preds.length)
    (hxk : D x k) : Above (climbOf acc.1) x k := by
  induction k using Nat.strongRecOn generalizing x with
  | ind k ih =>
    by_cases hne : x = k
    · subst hne
      exact .refl
    · have hpos : 0 < k := by
        rcases Nat.eq_zero_or_pos k with rfl | hpos
        · exact absurd (hD.root x hxk) hne
        · exact hpos
      obtain ⟨p, hp, _⟩ := h.rooted.step k hpos hk
      refine .up hp ((h.meet k p hpos hk hp x).2 fun q hq hqk => ?_)
      exact ih q hqk x (Nat.lt_trans hqk hk) (hD.preds x k q hk hxk hne hq)

theorem first_sweep {preds : List (List Nat)} (hflow : Flow preds.length (predsAt preds))
    (hpos : 0 < preds.length) :
    ∃ d changed, sweep preds (unplaced preds.length) = .ok (d, changed) ∧
      Begun preds preds.length (d, changed) := by
  have hstart : Begun preds 0 (unplaced preds.length, false) := by
    refine ⟨by simp [unplaced], ⟨?_, ?_⟩, ?_, ?_, ?_⟩
    · rw [climbOf_unplaced hpos, if_pos rfl]
    · intro k _ hk
      exact absurd hk (Nat.not_lt_zero _)
    · intro j hj _
      rw [climbOf_unplaced hpos, if_neg (by omega)]
    · intro j p _ hj
      exact absurd hj (Nat.not_lt_zero _)
    · intro hlt
      exact absurd hlt (by omega)
  obtain ⟨acc, hfold, h⟩ := sweep_induction
    (fun k acc hk h => Begun.step hflow h hk) preds [] _ rfl hstart
  exact ⟨acc.1, acc.2, (sweep_eq_foldlM preds _).trans hfold, h⟩

/-! ### Settling -/

/-- The sum of all places. -/
def total (n : Nat) (d : Array (Option Nat)) : Nat :=
  ((List.range n).map fun k => (climbOf d k).getD 0).sum

theorem total_le {n : Nat} {d : Array (Option Nat)} (h : Rooted (climbOf d) n) :
    total n d ≤ n * n := by
  have hle : ∀ k ∈ List.range n, (climbOf d k).getD 0 ≤ n := by
    intro k hk
    rw [List.mem_range] at hk
    obtain ⟨p, hp, hle⟩ := h.exists_le hk
    rw [hp, Option.getD_some]
    omega
  refine Nat.le_trans (List.sum_le_sum hle) (Nat.le_of_eq ?_)
  rw [List.map_const', List.length_range, List.sum_replicate_nat]

theorem total_lt {preds : List (List Nat)} (hflow : Flow preds.length (predsAt preds))
    {d d' : Array (Option Nat)} (hd : Settling preds.length (predsAt preds) (climbOf d))
    (hd' : Swept preds.length (predsAt preds) (climbOf d) (climbOf d')) {j : Nat}
    (hj : j < preds.length) (hne : climbOf d' j ≠ climbOf d j) :
    total preds.length d' < total preds.length d := by
  have hplaces : ∀ k, k < preds.length →
      ∃ p p', climbOf d k = some p ∧ climbOf d' k = some p' ∧ p' ≤ p := by
    intro k hk
    obtain ⟨p, hp, _⟩ := hd.rooted.exists_le hk
    obtain ⟨p', hp', _⟩ := hd'.rooted.exists_le hk
    exact ⟨p, p', hp, hp', hd'.le hflow hd hk hp hp'⟩
  refine List.sum_lt_sum _ _ (fun k hk => ?_) ⟨j, List.mem_range.2 hj, ?_⟩
  · obtain ⟨p, p', hp, hp', hle⟩ := hplaces k (List.mem_range.1 hk)
    rw [hp, hp', Option.getD_some, Option.getD_some]
    exact hle
  · obtain ⟨p, p', hp, hp', hle⟩ := hplaces j hj
    rw [hp, hp'] at hne
    rw [hp, hp', Option.getD_some, Option.getD_some]
    exact Nat.lt_of_le_of_ne hle fun h => hne (congrArg some h)

/-- A tree that a sweep does not change. -/
structure Settled (n : Nat) (preds : Nat → List Nat) (u : Climb) : Prop where
  rooted : Rooted u n
  meet : ∀ k p, 0 < k → k < n → u k = some p → ∀ x, Above u x p ↔ ∀ q ∈ preds k, Above u x q

theorem settle_settles {preds : List (List Nat)} (hflow : Flow preds.length (predsAt preds))
    {D : Nat → Nat → Prop} (hD : Transmitted preds.length (predsAt preds) D)
    (n : Nat) : ∀ d : Array (Option Nat), d.size = preds.length →
      Settling preds.length (predsAt preds) (climbOf d) →
      (∀ x k, k < preds.length → D x k → Above (climbOf d) x k) → total preds.length d < n →
      ∃ d', settle preds n d = .ok d' ∧ Settled preds.length (predsAt preds) (climbOf d') ∧
        ∀ x k, k < preds.length → D x k → Above (climbOf d') x k := by
  induction n with
  | zero =>
    intro d _ _ _ hn
    omega
  | succ n ih =>
    intro d hsize hd habove hn
    obtain ⟨d', changed, hsweep, hsize', hswept, hchanged⟩ := sweep_spec hflow hsize hd
    have habove' := hD.above_swept hflow hd hswept habove
    cases changed with
    | true =>
      obtain ⟨j, hj, hne⟩ := hchanged.1 rfl
      have hlt := total_lt hflow hd hswept hj hne
      obtain ⟨d'', hsettle, h⟩ := ih d' hsize' (hswept.settling hflow hd) habove' (by omega)
      refine ⟨d'', ?_, h⟩
      unfold settle
      rw [hsweep]
      exact hsettle
    | false =>
      have hsame : ∀ j, j < preds.length → climbOf d' j = climbOf d j := by
        intro j hj
        by_contra hne
        exact absurd (hchanged.2 ⟨j, hj, hne⟩) Bool.false_ne_true
      refine ⟨d', ?_, ⟨hswept.rooted, ?_⟩, habove'⟩
      · unfold settle
        rw [hsweep]
        rfl
      · intro k p hpos hk hp x
        -- nothing changed, so the spliced tree is the tree itself
        have hsplice : ∀ y j, j < preds.length →
            (Above (splice (climbOf d) (climbOf d') k) y j ↔ Above (climbOf d') y j) := by
          intro y j hj
          refine above_congr_iff (hd.rooted.splice hswept.rooted k) hswept.rooted hj fun i hi => ?_
          by_cases hik : i < k
          · rw [splice_below _ _ hik]
          · rw [splice_from _ _ (Nat.le_of_not_lt hik), hsame i (by omega)]
        obtain ⟨p', hp', hlt⟩ := hswept.rooted.step k hpos hk
        rw [hp] at hp'
        cases hp'
        rw [← hsplice x p (by omega), hswept.meet k p hpos hk hp x]
        exact forall_congr' fun q => forall_congr' fun hq => hsplice x q (hflow.lt k hk q hq)

/-- The sweeps come to an end, with all that predecessors take over above a position. -/
theorem settle_unplaced {preds : List (List Nat)} (hflow : Flow preds.length (predsAt preds))
    (hpos : 0 < preds.length) {D : Nat → Nat → Prop}
    (hD : Transmitted preds.length (predsAt preds) D) :
    ∃ d, settle preds (preds.length * preds.length + 2) (unplaced preds.length) = .ok d ∧
      Settled preds.length (predsAt preds) (climbOf d) ∧
      ∀ x k, k < preds.length → D x k → Above (climbOf d) x k := by
  obtain ⟨d, changed, hsweep, hd⟩ := first_sweep hflow hpos
  have habove := hd.above hD
  cases changed with
  | true =>
    have hle : total preds.length d ≤ _ := total_le hd.rooted
    obtain ⟨d', hsettle, h⟩ := settle_settles hflow hD (preds.length * preds.length + 1) d hd.size
      hd.settling habove (by omega)
    refine ⟨d', ?_, h⟩
    unfold settle
    rw [hsweep]
    exact hsettle
  | false =>
    refine ⟨d, ?_, ⟨hd.rooted, ?_⟩, habove⟩
    · unfold settle
      rw [hsweep]
      rfl
    · intro k p hk hkn
      have hone : ¬ 1 < preds.length := fun h => absurd (hd.changed h) Bool.false_ne_true
      omega

end BinaryLift.DomTree
