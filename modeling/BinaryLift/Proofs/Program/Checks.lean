import BinaryLift.Program.Func.Basic

/-!
# Checked computations

How a computation that may meet a fault is taken apart, and what it gives if the faults that name a
handle are excluded: a result with some property or, where a loop has no bound of its own, the word
that its steps were used up. What every result satisfies, if there is one, is a weaker thing and needs
no fault to be excluded.
-/

namespace BinaryLift

variable {α β σ : Type} {x : Checked α} {k : α → Checked β} {r : β} {s : Prop}

theorem bind_eq_ok : x >>= k = .ok r ↔ ∃ a, x = .ok a ∧ k a = .ok r := by
  cases x with
  | error e =>
    constructor
    · intro h
      cases h
    · rintro ⟨a, ha, _⟩
      cases ha
  | ok a =>
    constructor
    · intro h
      exact ⟨a, rfl, h⟩
    · rintro ⟨a', ha, h⟩
      cases ha
      exact h

/-- A computation of which only the first component is kept. -/
theorem fst_eq_ok {y : Checked (α × β)} {a : α} :
    (do return (← y).1) = Except.ok a ↔ ∃ b, y = .ok (a, b) := by
  cases y with
  | error e => exact ⟨nofun, nofun⟩
  | ok r =>
    obtain ⟨a', b⟩ := r
    constructor
    · intro h
      cases h
      exact ⟨b, rfl⟩
    · rintro ⟨_, h⟩
      cases h
      rfl

/-- The computation has a result that satisfies `Q`, unless it may stop short and does. -/
def Gives (mayStop : Prop) (Q : α → Prop) (x : Checked α) : Prop :=
  (∃ a, x = .ok a ∧ Q a) ∨ (mayStop ∧ x = .error .stepLimit)

namespace Gives

variable {P Q : α → Prop} {R : β → Prop}

theorem of_ok {a : α} (hx : x = .ok a) (h : Q a) : Gives s Q x := .inl ⟨a, hx, h⟩

theorem pure {a : α} (h : Q a) : Gives s Q (Pure.pure a) := .inl ⟨a, rfl, h⟩

theorem mono (h : Gives s P x) (hPQ : ∀ a, P a → Q a) : Gives s Q x :=
  h.imp_left fun ⟨a, hx, ha⟩ => ⟨a, hx, hPQ a ha⟩

theorem bind (h : Gives s P x) (hk : ∀ a, P a → Gives s R (k a)) : Gives s R (x >>= k) := by
  rcases h with ⟨a, rfl, ha⟩ | ⟨hs, rfl⟩
  · exact hk a ha
  · exact .inr ⟨hs, rfl⟩

theorem bind_ok {a : α} (hx : x = .ok a) (hk : Gives s R (k a)) : Gives s R (x >>= k) := by
  rw [hx]
  exact hk

theorem result (h : Gives s Q x) {a : α} (hx : x = .ok a) : Q a := by
  rcases h with ⟨b, hb, hQ⟩ | ⟨_, hstop⟩
  · rw [hb] at hx
    cases hx
    exact hQ
  · rw [hstop] at hx
    cases hx

theorem returns (h : Gives False Q x) : ∃ a, x = .ok a ∧ Q a := h.resolve_right fun hs => hs.1

theorem foldlM {I : σ → Prop} {step : σ → α → Checked σ} {l : List α}
    (hstep : ∀ a ∈ l, ∀ u, I u → Gives s I (step u a)) {u : σ} (hu : I u) :
    Gives s I (l.foldlM step u) := by
  induction l generalizing u with
  | nil => exact .pure hu
  | cons a l ih =>
    rw [List.foldlM_cons]
    exact (hstep a List.mem_cons_self u hu).bind fun v hv =>
      ih (fun b hb => hstep b (List.mem_cons_of_mem _ hb)) hv

theorem mapM {l : List α} (h : ∀ a ∈ l, Gives s R (k a)) :
    Gives s (fun rs => ∀ r ∈ rs, R r) (l.mapM k) := by
  induction l with
  | nil => exact .pure (by simp)
  | cons a l ih =>
    rw [List.mapM_cons]
    refine (h a List.mem_cons_self).bind fun r hr => ?_
    refine (ih fun b hb => h b (List.mem_cons_of_mem _ hb)).bind fun rs hrs => .pure ?_
    intro r' hr'
    rcases List.mem_cons.1 hr' with rfl | hr'
    · exact hr
    · exact hrs r' hr'

theorem filterM {p : α → Checked Bool} {l : List α} (h : ∀ a ∈ l, Gives s (fun _ => True) (p a)) :
    Gives s (fun l' => l' ⊆ l) (l.filterM p) := by
  have haux : ∀ (l acc : List α), (∀ a ∈ l, Gives s (fun _ => True) (p a)) →
      Gives s (fun l' => ∀ a ∈ l', a ∈ acc ∨ a ∈ l) (l.filterAuxM p acc) := by
    intro l
    induction l with
    | nil =>
      intro acc _
      exact .pure fun a ha => .inl ha
    | cons a l ih =>
      intro acc hl
      unfold List.filterAuxM
      refine (hl a List.mem_cons_self).bind fun b _ => ?_
      refine (ih (cond b (a :: acc) acc) fun c hc => hl c (List.mem_cons_of_mem _ hc)).mono ?_
      intro l' hl' c hc
      rcases hl' c hc with hc | hc
      · cases b with
        | false => exact .inl hc
        | true =>
          rcases List.mem_cons.1 hc with rfl | hc
          · exact .inr List.mem_cons_self
          · exact .inl hc
      · exact .inr (List.mem_cons_of_mem _ hc)
  unfold List.filterM
  refine (haux l [] h).bind fun l' hl' => .pure fun a ha => ?_
  exact (hl' a (List.mem_reverse.1 ha)).resolve_left List.not_mem_nil

theorem filterMapM {p : α → Checked (Option β)} {l : List α}
    (h : ∀ a ∈ l, Gives s (fun o => ∀ r, o = some r → R r) (p a)) :
    Gives s (fun rs => ∀ r ∈ rs, R r) (l.filterMapM p) := by
  have haux : ∀ (l : List α) (acc : List β),
      (∀ a ∈ l, Gives s (fun o => ∀ r, o = some r → R r) (p a)) → (∀ r ∈ acc, R r) →
      Gives s (fun rs => ∀ r ∈ rs, R r) (List.filterMapM.loop p l acc) := by
    intro l
    induction l with
    | nil =>
      intro acc _ hacc
      exact .pure fun r hr => hacc r (List.mem_reverse.1 hr)
    | cons a l ih =>
      intro acc hl hacc
      have hrest : ∀ b ∈ l, Gives s (fun o => ∀ r, o = some r → R r) (p b) :=
        fun b hb => hl b (List.mem_cons_of_mem _ hb)
      unfold List.filterMapM.loop
      refine (hl a List.mem_cons_self).bind fun o ho => ?_
      cases o with
      | none => exact ih acc hrest hacc
      | some r =>
        refine ih (r :: acc) hrest fun r' hr' => ?_
        rcases List.mem_cons.1 hr' with rfl | hr'
        · exact ho _ rfl
        · exact hacc r' hr'
  exact haux l [] h fun _ hr => absurd hr List.not_mem_nil

end Gives

/-- Whatever the computation returns satisfies `Q`. -/
def Ensures (Q : α → Prop) (x : Checked α) : Prop := ∀ a, x = .ok a → Q a

namespace Ensures

variable {P Q : α → Prop} {R : β → Prop}

theorem pure {a : α} (h : Q a) : Ensures Q (Pure.pure a) := by
  intro b hb
  cases hb
  exact h

theorem error (e : Fault) : Ensures Q (.error e) := nofun

theorem mono (h : Ensures P x) (hPQ : ∀ a, P a → Q a) : Ensures Q x := fun a ha => hPQ a (h a ha)

theorem bind (h : Ensures P x) (hk : ∀ a, P a → Ensures R (k a)) : Ensures R (x >>= k) := by
  intro b hb
  obtain ⟨a, ha, hka⟩ := bind_eq_ok.1 hb
  exact hk a (h a ha) b hka

/-- Of a part whose result does not matter nothing has to be known. -/
theorem bind_any (hk : ∀ a, Ensures R (k a)) : Ensures R (x >>= k) :=
  bind (P := fun _ => True) (fun _ _ => trivial) fun a _ => hk a

theorem foldlM {I : σ → Prop} {step : σ → α → Checked σ} {l : List α}
    (hstep : ∀ u a, I u → Ensures I (step u a)) {u : σ} (hu : I u) :
    Ensures I (l.foldlM step u) := by
  induction l generalizing u with
  | nil => exact .pure hu
  | cons a l ih =>
    rw [List.foldlM_cons]
    exact (hstep u a hu).bind fun v hv => ih hv

end Ensures

/-! ### A list of optional results -/

theorem mapM_congr {g g' : α → Option β} {l : List α} (h : ∀ x ∈ l, g' x = g x) :
    l.mapM g' = l.mapM g := by
  induction l with
  | nil => rfl
  | cons x l ih =>
    rw [List.mapM_cons, List.mapM_cons, h x List.mem_cons_self,
      ih fun x' hx' => h x' (List.mem_cons_of_mem _ hx')]

theorem length_of_mapM_eq_some {g : α → Option β} {l : List α} {ys : List β}
    (h : l.mapM g = some ys) : ys.length = l.length := by
  induction l generalizing ys with
  | nil =>
    cases h
    rfl
  | cons x l ih =>
    rw [List.mapM_cons] at h
    obtain ⟨y, _, hrest⟩ := Option.bind_eq_some_iff.1 h
    obtain ⟨zs, hzs, hy⟩ := Option.bind_eq_some_iff.1 hrest
    cases hy
    rw [List.length_cons, List.length_cons, ih hzs]

theorem isSome_of_mapM_eq_some {g : α → Option β} {l : List α} {ys : List β}
    (h : l.mapM g = some ys) : ∀ x ∈ l, (g x).isSome = true := by
  induction l generalizing ys with
  | nil => exact fun _ hx => absurd hx List.not_mem_nil
  | cons x l ih =>
    rw [List.mapM_cons] at h
    obtain ⟨y, hy, hrest⟩ := Option.bind_eq_some_iff.1 h
    obtain ⟨zs, hzs, _⟩ := Option.bind_eq_some_iff.1 hrest
    intro x' hx'
    rcases List.mem_cons.1 hx' with rfl | hx'
    · rw [hy]
      rfl
    · exact ih hzs x' hx'

theorem exists_mapM_eq_some {g : α → Option β} {l : List α}
    (h : ∀ x ∈ l, (g x).isSome = true) : ∃ ys, l.mapM g = some ys := by
  induction l with
  | nil => exact ⟨[], rfl⟩
  | cons x l ih =>
    obtain ⟨y, hy⟩ := Option.isSome_iff_exists.1 (h x List.mem_cons_self)
    obtain ⟨ys, hys⟩ := ih fun x' hx' => h x' (List.mem_cons_of_mem _ hx')
    refine ⟨y :: ys, ?_⟩
    rw [List.mapM_cons, hy, hys]
    rfl

end BinaryLift
