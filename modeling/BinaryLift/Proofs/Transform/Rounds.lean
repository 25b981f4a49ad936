import BinaryLift.Program.Iteration
import Mathlib.Algebra.Order.Ring.Nat
import Mathlib.Tactic.Common

/-!
# Sweeps and rounds

What every step keeps is kept by a sweep, and what every round keeps is kept until nothing changes. A
number that goes down with every round that changes something bounds the rounds.
-/

namespace BinaryLift

/-! ### Lists with checks -/

theorem filterM_eq_ok {ε α : Type} {p : α → Except ε Bool} {q : α → Bool} (l : List α)
    (h : ∀ a ∈ l, p a = .ok (q a)) : l.filterM p = .ok (l.filter q) := by
  have haux : ∀ (l acc : List α), (∀ a ∈ l, p a = .ok (q a)) →
      l.filterAuxM p acc = .ok ((l.filter q).reverse ++ acc) := by
    intro l
    induction l with
    | nil =>
      intro acc _
      rfl
    | cons a l ih =>
      intro acc h
      have hrest := ih (cond (q a) (a :: acc) acc) fun b hb => h b (List.mem_cons_of_mem _ hb)
      unfold List.filterAuxM
      rw [h a List.mem_cons_self]
      refine hrest.trans ?_
      cases hq : q a <;> simp [hq]
  unfold List.filterM
  rw [haux l [] h]
  show Except.ok _ = _
  simp

theorem mapM_eq_ok {ε α β : Type} {k : α → Except ε β} {h : α → β} (l : List α)
    (hk : ∀ a ∈ l, k a = .ok (h a)) : l.mapM k = .ok (l.map h) := by
  induction l with
  | nil => rfl
  | cons a l ih =>
    rw [List.mapM_cons, hk a List.mem_cons_self, ih fun b hb => hk b (List.mem_cons_of_mem _ hb)]
    rfl

theorem ok_of_toOption {ε α : Type} {t : Except ε α} {a : α} (h : t.toOption = some a) :
    t = .ok a := by
  cases t with
  | error e => cases h
  | ok b => exact congrArg Except.ok (Option.some.inj h)

/-! ### Sweeps -/

/-- What is established of the items so far is in the end established of all of them. -/
theorem foldlM_spec {α σ : Type} (step : σ → α → Checked σ) {I : List α → σ → Prop} {l : List α}
    (hstep : ∀ pre a post s, l = pre ++ a :: post → I pre s →
      ∃ s', step s a = .ok s' ∧ I (pre ++ [a]) s')
    {s : σ} (hs : I [] s) : ∃ s', l.foldlM step s = .ok s' ∧ I l s' := by
  have hrest : ∀ rest pre s, l = pre ++ rest → I pre s →
      ∃ s', rest.foldlM step s = .ok s' ∧ I l s' := by
    intro rest
    induction rest with
    | nil =>
      intro pre s hl hI
      rw [hl, List.append_nil]
      exact ⟨s, rfl, hI⟩
    | cons a rest ih =>
      intro pre s hl hI
      obtain ⟨s₁, hs₁, hI₁⟩ := hstep pre a rest s hl hI
      obtain ⟨s', hs', hI'⟩ := ih (pre ++ [a]) s₁ (by rw [hl, List.append_cons]) hI₁
      refine ⟨s', ?_, hI'⟩
      rw [List.foldlM_cons, hs₁]
      exact hs'
  exact hrest l [] s rfl hs

/-- A sweep keeps what its steps keep, together with the record of changes. -/
theorem sweepOver_spec {α : Type} {step : Func → α → Transformed} {I : Func → Bool → Prop} {f : Func}
    {items : List α}
    (hstep : ∀ x ∈ items, ∀ g c, I g c → ∃ g' c', step g x = .ok (g', c') ∧ I g' (c || c'))
    (hf : I f false) : ∃ g c, sweepOver step f items = .ok (g, c) ∧ I g c := by
  unfold sweepOver
  generalize false = c₀ at hf
  induction items generalizing f c₀ with
  | nil => exact ⟨f, c₀, rfl, hf⟩
  | cons x items ih =>
    obtain ⟨g, c, hg, hI⟩ := hstep x List.mem_cons_self f c₀ hf
    obtain ⟨h, c', hh, hI'⟩ := ih (fun y hy => hstep y (List.mem_cons_of_mem _ hy)) (c₀ || c) hI
    refine ⟨h, c', ?_, hI'⟩
    rw [List.foldlM_cons]
    simp only [hg, bind, Except.bind, pure, Except.pure] at hh ⊢
    exact hh

theorem sweepOver_keeps {α : Type} {step : Func → α → Transformed} {I : Func → Prop} {f g : Func}
    {items : List α} {c : Bool} (hstep : ∀ x g g' c, I g → step g x = .ok (g', c) → I g')
    (hf : I f) (h : sweepOver step f items = .ok (g, c)) : I g := by
  unfold sweepOver at h
  generalize false = c₀ at h
  induction items generalizing f c₀ with
  | nil =>
    cases h
    exact hf
  | cons x items ih =>
    rw [List.foldlM_cons] at h
    cases hx : step f x with
    | error e =>
      simp only [hx, bind, Except.bind] at h
      cases h
    | ok r =>
      simp only [hx, bind, Except.bind, pure, Except.pure] at h
      exact ih (hstep x f r.1 r.2 hf hx) _ h

theorem untilStable_keeps {round : Func → Transformed} {I : Func → Prop}
    (hround : ∀ g g' c, I g → round g = .ok (g', c) → I g') {n : Nat} {f g : Func} {c : Bool}
    (hf : I f) (h : untilStable round n f = .ok (g, c)) : I g := by
  induction n generalizing f g c with
  | zero => cases h
  | succ n ih =>
    unfold untilStable at h
    cases hr : round f with
    | error e =>
      simp only [hr, bind, Except.bind] at h
      cases h
    | ok r =>
      have hI := hround f r.1 r.2 hf hr
      simp only [hr, bind, Except.bind, pure, Except.pure] at h
      split at h
      · cases hn : untilStable round n r.1 with
        | error e =>
          rw [hn] at h
          cases h
        | ok s =>
          rw [hn] at h
          cases h
          exact ih hI hn
      · cases h
        exact hI

/-- Where rounds without changes leave the function as it is, the last round has been one of the
result. -/
theorem untilStable_rests {round : Func → Transformed} {I : Func → Prop}
    (hround : ∀ g g' c, I g → round g = .ok (g', c) → I g' ∧ (c = false → g' = g)) {n : Nat}
    {f g : Func} {c : Bool} (hf : I f) (h : untilStable round n f = .ok (g, c)) :
    round g = .ok (g, false) := by
  induction n generalizing f g c with
  | zero => cases h
  | succ n ih =>
    unfold untilStable at h
    cases hr : round f with
    | error e =>
      simp only [hr, bind, Except.bind] at h
      cases h
    | ok r =>
      obtain ⟨f₁, changed⟩ := r
      obtain ⟨hI, hsame⟩ := hround f f₁ changed hf hr
      simp only [hr, bind, Except.bind, pure, Except.pure] at h
      cases changed with
      | false =>
        cases h
        have hsame' := hsame rfl
        subst hsame'
        exact hr
      | true =>
        cases hn : untilStable round n f₁ with
        | error e =>
          rw [hn] at h
          cases h
        | ok r =>
          rw [hn] at h
          cases h
          exact ih hI hn

/-- Rounds come to rest before the measure does. -/
theorem untilStable_spec {round : Func → Transformed} {I : Func → Prop} {μ : Func → Nat}
    (hround : ∀ g, I g → ∃ g' c, round g = .ok (g', c) ∧ I g' ∧ (c = true → μ g' < μ g)) (n : Nat) :
    ∀ {f : Func}, I f → μ f < n → ∃ g c, untilStable round n f = .ok (g, c) ∧ I g := by
  induction n with
  | zero =>
    intro f _ hlt
    exact absurd hlt (Nat.not_lt_zero _)
  | succ n ih =>
    intro f hf hlt
    obtain ⟨g, c, hg, hI, hless⟩ := hround f hf
    unfold untilStable
    cases c with
    | false => exact ⟨g, false, by rw [hg]; rfl, hI⟩
    | true =>
      have hmeasure := hless rfl
      obtain ⟨h, c', hh, hI'⟩ := ih hI (by omega)
      exact ⟨h, true, by rw [hg]; simp only [bind, Except.bind, if_true, hh]; rfl, hI'⟩

/-- Where every round finds something to change, the rounds have no end. -/
theorem untilStable_endless {round : Func → Transformed} {I : Func → Prop}
    (hround : ∀ g, I g → ∃ g', round g = .ok (g', true) ∧ I g') (n : Nat) {f : Func} (hf : I f) :
    untilStable round n f = .error .stepLimit := by
  induction n generalizing f with
  | zero => rfl
  | succ n ih =>
    obtain ⟨g, hg, hI⟩ := hround f hf
    simp only [untilStable, hg, bind, Except.bind, if_true, ih hI]

/-! ### Progress -/

/-- The flag says whether the function has changed, and a change lowers the measure. -/
structure Advances (μ : Func → Nat) (f g : Func) (changed : Bool) : Prop where
  less : changed = true → μ g < μ f
  same : changed = false → g = f

namespace Advances

variable {μ : Func → Nat} {f g h : Func} {c c' : Bool}

theorem refl (μ : Func → Nat) (f : Func) : Advances μ f f false where
  less := nofun
  same := fun _ => rfl

theorem of_lt (hless : μ g < μ f) : Advances μ f g true where
  less := fun _ => hless
  same := nofun

theorem trans (hfg : Advances μ f g c) (hgh : Advances μ g h c') : Advances μ f h (c || c') where
  less := by
    intro hchanged
    cases c' with
    | true =>
      have hless := hgh.less rfl
      cases c with
      | true => exact Nat.lt_trans hless (hfg.less rfl)
      | false => rwa [hfg.same rfl] at hless
    | false =>
      rw [Bool.or_false] at hchanged
      rw [hgh.same rfl]
      exact hfg.less hchanged
  same := by
    intro hsame
    rw [Bool.or_eq_false_iff] at hsame
    rw [hgh.same hsame.2, hfg.same hsame.1]

end Advances

theorem sweepOver_advances {α : Type} {step : Func → α → Transformed} {I : Func → Prop}
    {μ : Func → Nat} {f : Func} {items : List α}
    (hstep : ∀ x ∈ items, ∀ g, I g →
      ∃ g' c, step g x = .ok (g', c) ∧ I g' ∧ Advances μ g g' c) (hf : I f) :
    ∃ g c, sweepOver step f items = .ok (g, c) ∧ I g ∧ Advances μ f g c := by
  apply sweepOver_spec (I := fun g c => I g ∧ Advances μ f g c)
  · rintro x hx g c ⟨hg, hadvances⟩
    obtain ⟨g', c', hstep', hg', hadvances'⟩ := hstep x hx g hg
    exact ⟨g', c', hstep', hg', hadvances.trans hadvances'⟩
  · exact ⟨hf, .refl μ f⟩

/-- Rounds that advance come to one that changes nothing. -/
theorem untilStable_advances {round : Func → Transformed} {I : Func → Prop} {μ : Func → Nat}
    (hround : ∀ g, I g → ∃ g' c, round g = .ok (g', c) ∧ I g' ∧ Advances μ g g' c) {n : Nat}
    {f : Func} (hf : I f) (hn : μ f < n) :
    ∃ g c, untilStable round n f = .ok (g, c) ∧ I g ∧ round g = .ok (g, false) := by
  obtain ⟨g, c, hg, hI⟩ := untilStable_spec (I := I) (μ := μ) (fun g hI => by
    obtain ⟨g', c, hg', hI', hadvances⟩ := hround g hI
    exact ⟨g', c, hg', hI', hadvances.less⟩) n hf hn
  refine ⟨g, c, hg, hI, untilStable_rests (I := I) (fun g g' c hI hr => ?_) hf hg⟩
  obtain ⟨g₁, c₁, hg₁, hI₁, hadvances⟩ := hround g hI
  rw [hr] at hg₁
  cases hg₁
  exact ⟨hI₁, hadvances.same⟩

end BinaryLift
