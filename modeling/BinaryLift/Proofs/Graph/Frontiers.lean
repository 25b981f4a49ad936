import BinaryLift.Proofs.Graph.Dominance

/-!
# Frontiers

A set of blocks that contains the frontiers of some blocks and of its own members separates: on an
edge into a block outside the set, whatever only those blocks change is the same at the end of the
predecessor and at the end of the immediate dominator.
-/

namespace BinaryLift

section

variable {α : Type} [DecidableEq α] {step : α → Checked (List α)} {all : List α}

theorem nodup_append_fresh {seen : List α} (hseen : seen.Nodup) (xs : List α) :
    (seen ++ fresh seen xs).Nodup := by
  refine List.nodup_append.2 ⟨hseen, nodup_fresh seen xs, ?_⟩
  intro a ha b hb hab
  subst hab
  exact (mem_fresh.1 hb).2 ha

theorem append_fresh_subset {seen xs : List α} (hsub : seen ⊆ all) (hxs : xs ⊆ all) :
    seen ++ fresh seen xs ⊆ all := by
  intro a ha
  rcases List.mem_append.1 ha with ha | ha
  · exact hsub ha
  · exact hxs (mem_fresh.1 ha).1

theorem length_fresh_le {seen xs : List α} (hseen : seen.Nodup) (hsub : seen ⊆ all) (hxs : xs ⊆ all) :
    seen.length + (fresh seen xs).length ≤ all.length := by
  have hle := (List.subperm_of_subset (nodup_append_fresh hseen xs)
    (append_fresh_subset hsub hxs)).length_le
  rwa [List.length_append] at hle

/-- Whatever comes out contains what the walk began with, and with its elements what they lead to. -/
theorem closed_of_closureFrom (n : Nat) : ∀ work seen out : List α,
    (∀ x ∈ seen, x ∉ work → ∃ ys, step x = .ok ys ∧ ys ⊆ seen) →
    closureFrom step n work seen = .ok out →
    seen ⊆ out ∧ ∀ x ∈ out, ∃ ys, step x = .ok ys ∧ ys ⊆ out := by
  induction n with
  | zero =>
    intro work seen out hclosed h
    cases work with
    | nil =>
      cases h
      exact ⟨fun _ h => h, fun x hx => hclosed x hx List.not_mem_nil⟩
    | cons x work => cases h
  | succ n ih =>
    intro work seen out hclosed h
    cases work with
    | nil =>
      cases h
      exact ⟨fun _ h => h, fun x hx => hclosed x hx List.not_mem_nil⟩
    | cons x work =>
      unfold closureFrom at h
      cases hx : step x with
      | error e =>
        rw [hx] at h
        cases h
      | ok ys =>
        rw [hx] at h
        have hclosed' : ∀ a ∈ seen ++ fresh seen ys, a ∉ fresh seen ys ++ work →
            ∃ zs, step a = .ok zs ∧ zs ⊆ seen ++ fresh seen ys := by
          intro a ha hnot
          have haseen : a ∈ seen := (List.mem_append.1 ha).resolve_right fun h =>
            hnot (List.mem_append_left _ h)
          by_cases hax : a = x
          · refine ⟨ys, hax ▸ hx, fun y hy => ?_⟩
            by_cases hyseen : y ∈ seen
            · exact List.mem_append_left _ hyseen
            · exact List.mem_append_right _ (mem_fresh.2 ⟨hy, hyseen⟩)
          · obtain ⟨zs, hzs, hsub⟩ := hclosed a haseen fun hmem =>
              (List.mem_cons.1 hmem).elim hax fun hwork => hnot (List.mem_append_right _ hwork)
            exact ⟨zs, hzs, fun z hz => List.mem_append_left _ (hsub hz)⟩
        obtain ⟨hsub, hout⟩ := ih _ _ out hclosed' h
        exact ⟨fun a ha => hsub (List.mem_append_left _ ha), hout⟩

theorem closed_of_closure {start : List α} {bound : Nat} {out : List α}
    (h : closure step bound start = .ok out) :
    start ⊆ out ∧ ∀ x ∈ out, ∃ ys, step x = .ok ys ∧ ys ⊆ out := by
  obtain ⟨hsub, hout⟩ := closed_of_closureFrom bound (fresh [] start) (fresh [] start) out
    (fun _ hx hnot => absurd hx hnot) h
  exact ⟨fun x hx => hsub (mem_fresh.2 ⟨hx, List.not_mem_nil⟩), hout⟩

theorem closureFrom_spec (hstep : ∀ x ∈ all, ∃ ys, step x = .ok ys ∧ ys ⊆ all) (n : Nat) :
    ∀ work seen : List α, seen.Nodup → seen ⊆ all → work ⊆ seen →
      work.length + (all.length - seen.length) ≤ n →
      ∃ out, closureFrom step n work seen = .ok out ∧ out.Nodup ∧ out ⊆ all := by
  induction n with
  | zero =>
    intro work seen hnodup hall hwork hn
    cases work with
    | nil => exact ⟨seen, by unfold closureFrom; rfl, hnodup, hall⟩
    | cons x work =>
      rw [List.length_cons] at hn
      omega
  | succ n ih =>
    intro work seen hnodup hall hwork hn
    cases work with
    | nil => exact ⟨seen, by unfold closureFrom; rfl, hnodup, hall⟩
    | cons x work =>
      obtain ⟨ys, hys, hysall⟩ := hstep x (hall (hwork List.mem_cons_self))
      have hlen := length_fresh_le hnodup hall hysall
      have hwork' : fresh seen ys ++ work ⊆ seen ++ fresh seen ys := by
        intro a ha
        rcases List.mem_append.1 ha with ha | ha
        · exact List.mem_append_right _ ha
        · exact List.mem_append_left _ (hwork (List.mem_cons_of_mem _ ha))
      obtain ⟨out, hout, hspec⟩ := ih (fresh seen ys ++ work) (seen ++ fresh seen ys)
        (nodup_append_fresh hnodup ys) (append_fresh_subset hall hysall) hwork' (by
          rw [List.length_cons] at hn
          rw [List.length_append, List.length_append]
          omega)
      refine ⟨out, ?_, hspec⟩
      unfold closureFrom
      rw [hys]
      exact hout

theorem closure_spec (hstep : ∀ x ∈ all, ∃ ys, step x = .ok ys ∧ ys ⊆ all) {start : List α}
    (hstart : start ⊆ all) {bound : Nat} (hbound : all.length ≤ bound) :
    ∃ out, closure step bound start = .ok out ∧ out.Nodup ∧ out ⊆ all ∧ start ⊆ out ∧
      ∀ x ∈ out, ∀ ys, step x = .ok ys → ys ⊆ out := by
  have hfirst : fresh [] start ⊆ all := fun x hx => hstart (mem_fresh.1 hx).1
  have hlen : ([] : List α).length + (fresh [] start).length ≤ all.length :=
    length_fresh_le List.nodup_nil (List.nil_subset all) hstart
  rw [List.length_nil] at hlen
  obtain ⟨out, hout, hnodup, hall⟩ := closureFrom_spec hstep bound (fresh [] start) (fresh [] start)
    (nodup_fresh [] start) hfirst (fun _ h => h) (by omega)
  obtain ⟨hsub, hclosed⟩ := closed_of_closure hout
  refine ⟨out, hout, hnodup, hall, hsub, fun x hx ys hys => ?_⟩
  obtain ⟨zs, hzs, hsub⟩ := hclosed x hx
  rw [hys] at hzs
  cases hzs
  exact hsub

end

namespace DomTree

variable {f : Func} {e : BlockId} {d : DomTree}

theorem climb_subset (h : d.Correct f e) {stop : BlockId} (n : Nat) {q : BlockId}
    (hq : f.Reachable q) : d.climb stop n q ⊆ d.rpo := by
  induction n generalizing q with
  | zero => exact List.nil_subset _
  | succ n ih =>
    unfold climb
    split
    · exact List.nil_subset _
    · refine List.cons_subset.2 ⟨(h.ordered.mem_iff q).2 hq, ?_⟩
      cases hp : d.idom q with
      | none => exact List.nil_subset _
      | some p => exact ih (h.idom_lt q p hp).1

theorem frontier_subset (d : DomTree) (a : BlockId) :
    d.frontier a ⊆ d.rpo.filter fun b => (d.idom b).isSome := by
  intro b hb
  obtain ⟨hmem, howner⟩ := List.mem_filter.1 hb
  rw [List.mem_filter]
  refine ⟨hmem, ?_⟩
  rw [decide_eq_true_eq] at howner
  unfold frontierOwners at howner
  split at howner
  · rename_i hidom
    rw [hidom]
    rfl
  · cases howner

/-- The frontier kept for a block; none is kept for one that cannot be reached. -/
def keptFrontier (d : DomTree) (b : BlockId) : List BlockId :=
  (((d.rpo.map fun b => (b, d.frontier b)).find? (·.1 = b)).map (·.2)).getD []

theorem keptFrontier_of_mem {b : BlockId} (hb : b ∈ d.rpo) : d.keptFrontier b = d.frontier b := by
  simp only [keptFrontier, find?_map_key _ hb]
  rfl

theorem keptFrontier_subset (d : DomTree) (b : BlockId) : d.keptFrontier b ⊆ d.frontier b := by
  unfold keptFrontier
  cases hfind : (d.rpo.map fun b => (b, d.frontier b)).find? (·.1 = b) with
  | none => exact List.nil_subset _
  | some x =>
    have hkey : x.1 = b := of_decide_eq_true
      (List.find?_some (p := fun x : BlockId × List BlockId => decide (x.1 = b)) hfind)
    obtain ⟨c, _, rfl⟩ := List.mem_map.1 (List.mem_of_find?_eq_some hfind)
    cases hkey
    exact fun _ h => h

theorem iteratedFrontier_eq (d : DomTree) (bs : List BlockId) :
    d.iteratedFrontier bs =
      closure (fun b => .ok (d.keptFrontier b)) d.rpo.length (bs.flatMap d.keptFrontier) >>= fun all =>
        .ok (all.mergeSort BlockId.le) := rfl

/-- The frontiers of given blocks and of its own members lie in the set that is found. -/
theorem iteratedFrontier_spec (d : DomTree) (bs : List BlockId) :
    ∃ out, d.iteratedFrontier bs = .ok out ∧ out.Nodup ∧
      (∀ b ∈ out, b ∈ d.rpo ∧ (d.idom b).isSome) ∧
      ∀ x ∈ d.rpo, x ∈ bs ∨ x ∈ out → d.frontier x ⊆ out := by
  let joins : List BlockId := d.rpo.filter fun b => (d.idom b).isSome
  have hsub : ∀ b, d.keptFrontier b ⊆ joins :=
    fun b => List.Subset.trans (d.keptFrontier_subset b) (d.frontier_subset b)
  let step : BlockId → Checked (List BlockId) := fun b => .ok (d.keptFrontier b)
  have hstep : ∀ x ∈ joins, ∃ ys, step x = .ok ys ∧ ys ⊆ joins := fun x _ => ⟨_, rfl, hsub x⟩
  have hfirst : bs.flatMap d.keptFrontier ⊆ joins := by
    intro y hy
    obtain ⟨b, _, hb⟩ := List.mem_flatMap.1 hy
    exact hsub b hb
  obtain ⟨out, hout, hnodup, hall, hstart, hclosed⟩ :=
    closure_spec hstep hfirst (List.length_filter_le _ d.rpo)
  refine ⟨out.mergeSort BlockId.le, ?_, ?_, ?_, ?_⟩
  · rw [iteratedFrontier_eq, hout]
    rfl
  · exact (List.mergeSort_perm out _).nodup_iff.2 hnodup
  · intro x hx
    exact List.mem_filter.1 (hall (List.mem_mergeSort.1 hx))
  · intro x hx hmem y hy
    rw [List.mem_mergeSort]
    rw [← keptFrontier_of_mem hx] at hy
    rcases hmem with hmem | hmem
    · exact hstart (List.mem_flatMap.2 ⟨x, hmem, hy⟩)
    · exact hclosed x (List.mem_mergeSort.1 hmem) _ rfl hy

theorem Correct.upward_antisymm (h : d.Correct f e) {a b : BlockId} (hb : f.Reachable b)
    (hab : d.Upward a b) (hba : d.Upward b a) : a = b :=
  Func.Dominates.antisymm hb (h.dominates_of_upward hab) (h.dominates_of_upward hba)

theorem Upward.of_idom {stop q q' : BlockId} (hup : d.Upward stop q) (hne : q ≠ stop)
    (hq : d.idom q = some q') : d.Upward stop q' := by
  cases hup with
  | refl => exact absurd rfl hne
  | up hstep hup' =>
    rw [hq] at hstep
    cases hstep
    exact hup'

theorem Correct.climb_constant {α : Type} (h : d.Correct f e) {stop : BlockId} {C : BlockId → α}
    (n : Nat) : ∀ q, f.Reachable q → d.Upward stop q → d.rpo.idxOf q < n →
      (∀ x ∈ d.climb stop n q, ∀ x', d.idom x = some x' → C x = C x') → C q = C stop := by
  induction n with
  | zero =>
    intro q _ _ hn
    omega
  | succ n ih =>
    intro q hq hup hn hsame
    by_cases hne : q = stop
    · rw [hne]
    · obtain ⟨q', hq'⟩ : ∃ q', d.idom q = some q' := by
        cases hup with
        | refl => exact absurd rfl hne
        | up hstep _ => exact ⟨_, hstep⟩
      obtain ⟨hreach, hlt⟩ := h.idom_lt q q' hq'
      unfold climb at hsame
      rw [if_neg hne, hq'] at hsame
      rw [hsame q List.mem_cons_self q' hq']
      refine ih q' hreach (hup.of_idom hne hq') (by omega) fun x hx => ?_
      exact hsame x (List.mem_cons_of_mem _ hx)

theorem Correct.idom_of_single (h : d.Correct f e) {b p q : BlockId} (hp : d.idom b = some p)
    (hpreds : d.preds b = [q]) : p = q := by
  have hb := (h.reachable_of_idom hp).live
  have hq : f.Reachable q ∧ f.Edge q b := by
    rw [← h.mem_preds b hb, hpreds]
    exact List.mem_singleton_self _
  have hqp : d.Upward q p := by
    rw [h.meet b p hp]
    intro q' hq' hedge
    have hmem := (h.mem_preds b hb q').2 ⟨hq', hedge⟩
    rw [hpreds, List.mem_singleton] at hmem
    rw [hmem]
    exact .refl
  exact h.upward_antisymm hq.1 (h.upward_of_edge hp hq.1 hq.2) hqp

/-- On an edge into a block outside the set nothing has changed since the immediate dominator. -/
theorem Correct.constant_on_edge {α : Type} (h : d.Correct f e) {bs out : List BlockId}
    (hclosed : ∀ x ∈ d.rpo, x ∈ bs ∨ x ∈ out → d.frontier x ⊆ out) {C : BlockId → α}
    (hC : ∀ x x', d.idom x = some x' → x ∉ bs → x ∉ out → C x = C x') {b p q : BlockId}
    (hb : b ∉ out) (hp : d.idom b = some p) (hq : f.Reachable q) (hedge : f.Edge q b) :
    C q = C p := by
  have hreach := h.reachable_of_idom hp
  have hup := h.upward_of_edge hp hq hedge
  have hmem : q ∈ d.preds b := (h.mem_preds b hreach.live q).2 ⟨hq, hedge⟩
  match hpreds : d.preds b with
  | [] =>
    rw [hpreds] at hmem
    cases hmem
  | [q'] =>
    rw [hpreds, List.mem_singleton] at hmem
    rw [hmem, h.idom_of_single hp hpreds]
  | q₁ :: q₂ :: qs =>
    have hlt : d.rpo.idxOf q < d.rpo.length :=
      List.idxOf_lt_length_of_mem ((h.ordered.mem_iff q).2 hq)
    refine h.climb_constant d.rpo.length q hq hup hlt fun x hx x' hx' => ?_
    -- a block on the way up has `b` in its frontier
    have hxr : x ∈ d.rpo := climb_subset h _ hq hx
    have hfront : b ∈ d.frontier x := by
      refine List.mem_filter.2 ⟨(h.ordered.mem_iff b).2 hreach, ?_⟩
      rw [decide_eq_true_eq, frontierOwners, hpreds, hp]
      exact List.mem_flatMap.2 ⟨q, by rw [← hpreds]; exact hmem, hx⟩
    refine hC x x' hx' (fun hbs => hb ?_) fun hout => hb ?_
    · exact hclosed x hxr (.inl hbs) hfront
    · exact hclosed x hxr (.inr hout) hfront

end DomTree

end BinaryLift
