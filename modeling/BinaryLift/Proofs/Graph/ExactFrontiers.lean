import BinaryLift.Proofs.Graph.Exactness

/-!
# Exactness of frontiers

The frontier of a block is found by walking up the tree from the predecessors of the blocks where
several ways meet. The walk meets exactly the blocks that dominate a predecessor and do not strictly
dominate the block itself, so leaving out blocks with a single way in loses nothing. The entry, which
nothing lies above, is in no frontier.
-/

namespace BinaryLift.DomTree

variable {f : Func} {e a b p q stop : BlockId} {d : DomTree}

/-! ### What lies above a block -/

/-- The blocks above a block form a chain. -/
theorem Upward.total {c : BlockId} (ha : d.Upward a c) (hb : d.Upward b c) :
    d.Upward a b ∨ d.Upward b a := by
  induction ha with
  | refl => exact .inr hb
  | up hp ha ih =>
    cases hb with
    | refl => exact .inl (.up hp ha)
    | up hp' hb =>
      rw [hp] at hp'
      cases hp'
      exact ih hb

namespace Correct

theorem upward_iff_dominates (h : d.Correct f e)
    (habove : ∀ a b, f.Reachable b → f.Dominates a b → d.Upward a b) (hb : f.Reachable b) :
    d.Upward a b ↔ f.Dominates a b :=
  ⟨h.dominates_of_upward, habove a b hb⟩

/-- Something strictly above the immediate dominator or equal to it is all that lies strictly above. -/
theorem strictly_above_iff (h : d.Correct f e) (hp : d.idom b = some p) :
    a ≠ b ∧ d.Upward a b ↔ d.Upward a p := by
  constructor
  · rintro ⟨hne, hab⟩
    exact hab.of_idom (Ne.symm hne) hp
  · intro hap
    refine ⟨?_, .up hp hap⟩
    rintro rfl
    exact (h.idom_strictly hp).1
      (h.upward_antisymm (h.reachable_of_idom hp) (.up hp .refl) hap)

/-- The walk from a block up to an ancestor meets the blocks in between. -/
theorem mem_climb (h : d.Correct f e) (n : Nat) (hq : f.Reachable q) (hup : d.Upward stop q)
    (hn : d.rpo.idxOf q < n) :
    a ∈ d.climb stop n q ↔ d.Upward a q ∧ d.Upward stop a ∧ a ≠ stop := by
  induction n generalizing q with
  | zero => omega
  | succ n ih =>
    unfold climb
    by_cases hqs : q = stop
    · subst hqs
      rw [if_pos rfl]
      refine ⟨fun hmem => absurd hmem List.not_mem_nil, ?_⟩
      rintro ⟨haq, hqa, hne⟩
      exact absurd (h.upward_antisymm hq haq hqa) hne
    · obtain ⟨q', hq'⟩ : ∃ q', d.idom q = some q' := by
        cases hup with
        | refl => exact absurd rfl hqs
        | up hstep _ => exact ⟨_, hstep⟩
      obtain ⟨hreach, hlt⟩ := h.idom_lt q q' hq'
      have hrest := ih hreach (hup.of_idom hqs hq') (by omega)
      rw [if_neg hqs, hq', Option.elim_some, List.mem_cons, hrest]
      constructor
      · rintro (rfl | ⟨haq', hstop, hne⟩)
        · exact ⟨.refl, hup, hqs⟩
        · exact ⟨.up hq' haq', hstop, hne⟩
      · rintro ⟨haq, hstop, hne⟩
        cases haq with
        | refl => exact .inl rfl
        | up hstep haq' =>
          rw [hq'] at hstep
          cases hstep
          exact .inr ⟨haq', hstop, hne⟩

/-! ### Owners of a block -/

/-- Between a predecessor and the immediate dominator lie the blocks above the predecessor that do not
lie strictly above the block. -/
theorem mem_climb_pred (h : d.Correct f e) (hp : d.idom b = some p) (hq : f.Reachable q)
    (hedge : f.Edge q b) :
    a ∈ d.climb p d.rpo.length q ↔ d.Upward a q ∧ ¬ d.Upward a p := by
  have hpq := h.upward_of_edge hp hq hedge
  have hlt := List.idxOf_lt_length_of_mem ((h.ordered.mem_iff q).2 hq)
  rw [h.mem_climb _ hq hpq hlt]
  constructor
  · rintro ⟨haq, hpa, hne⟩
    exact ⟨haq, fun hap => hne (h.upward_antisymm (h.idom_lt b p hp).1 hap hpa)⟩
  · rintro ⟨haq, hnot⟩
    refine ⟨haq, (haq.total hpq).resolve_left hnot, ?_⟩
    rintro rfl
    exact hnot .refl

theorem mem_frontierOwners (h : d.Correct f e) (hp : d.idom b = some p) :
    a ∈ d.frontierOwners b ↔
      (∃ q, f.Reachable q ∧ f.Edge q b ∧ d.Upward a q) ∧ ¬ d.Upward a p := by
  have hmem := h.mem_preds b (h.reachable_of_idom hp).live
  match hpreds : d.preds b with
  | [] =>
    rw [frontierOwners, hpreds]
    refine ⟨fun howner => absurd howner List.not_mem_nil, ?_⟩
    rintro ⟨⟨q, hq, hedge, _⟩, _⟩
    have hqp := (hmem q).2 ⟨hq, hedge⟩
    rw [hpreds] at hqp
    cases hqp
  | [q'] =>
    -- the only predecessor is the immediate dominator
    rw [frontierOwners, hpreds]
    refine ⟨fun howner => absurd howner List.not_mem_nil, ?_⟩
    rintro ⟨⟨q, hq, hedge, haq⟩, hnot⟩
    have hqp := (hmem q).2 ⟨hq, hedge⟩
    rw [hpreds, List.mem_singleton] at hqp
    rw [h.idom_of_single hp hpreds, ← hqp] at hnot
    exact absurd haq hnot
  | q₁ :: q₂ :: qs =>
    have howners : d.frontierOwners b = (d.preds b).flatMap (d.climb p d.rpo.length) := by
      rw [frontierOwners, hpreds, hp]
    rw [howners, List.mem_flatMap]
    constructor
    · rintro ⟨q, hqp, haq⟩
      obtain ⟨hq, hedge⟩ := (hmem q).1 hqp
      obtain ⟨hup, hnot⟩ := (h.mem_climb_pred hp hq hedge).1 haq
      exact ⟨⟨q, hq, hedge, hup⟩, hnot⟩
    · rintro ⟨⟨q, hq, hedge, hup⟩, hnot⟩
      exact ⟨q, (hmem q).2 ⟨hq, hedge⟩, (h.mem_climb_pred hp hq hedge).2 ⟨hup, hnot⟩⟩

theorem mem_frontier (h : d.Correct f e)
    (habove : ∀ a b, f.Reachable b → f.Dominates a b → d.Upward a b) (hb : f.Reachable b)
    (hbe : f.entry ≠ some b) :
    b ∈ d.frontier a ↔
      (∃ q, f.Reachable q ∧ f.Edge q b ∧ f.Dominates a q) ∧ ¬ f.StrictlyDominates a b := by
  obtain ⟨p, hp⟩ := h.idom b hb fun heq => hbe (heq ▸ h.entry)
  have hstrict : d.Upward a p ↔ f.StrictlyDominates a b := by
    rw [← h.strictly_above_iff hp, h.upward_iff_dominates habove hb]
    rfl
  rw [frontier, List.mem_filter, decide_eq_true_eq, h.mem_frontierOwners hp, hstrict]
  constructor
  · rintro ⟨_, ⟨q, hq, hedge, haq⟩, hnot⟩
    exact ⟨⟨q, hq, hedge, h.dominates_of_upward haq⟩, hnot⟩
  · rintro ⟨⟨q, hq, hedge, haq⟩, hnot⟩
    exact ⟨(h.ordered.mem_iff b).2 hb, ⟨q, hq, hedge, habove a q hq haq⟩, hnot⟩

theorem entry_not_mem_frontier (h : d.Correct f e) (a : BlockId) : e ∉ d.frontier a := by
  intro hmem
  have hjoin := (List.mem_filter.1 (d.frontier_subset a hmem)).2
  rw [h.idom_entry] at hjoin
  cases hjoin

end Correct

/-- A block other than the entry is in the frontier of another exactly if that dominates one of its
reachable predecessors and does not strictly dominate it; the entry is in no frontier. -/
theorem frontier_exact (f : Func) (hentry : ∀ e, f.entry = some e → f.containsBlock e = true) :
    ∃ d, compute f = .ok d ∧
      (∀ a b, f.Reachable a → f.Reachable b → f.entry ≠ some b →
        (b ∈ d.frontier a ↔
          (∃ q, f.Reachable q ∧ f.Edge q b ∧ f.Dominates a q) ∧ ¬ f.StrictlyDominates a b)) ∧
      ∀ a e, f.entry = some e → e ∉ d.frontier a := by
  cases he : f.entry with
  | none =>
    obtain ⟨d, hd, _⟩ := Func.compute_of_no_entry he
    refine ⟨d, hd, ?_, fun _ _ hcontra => by cases hcontra⟩
    rintro a b ⟨path, hpath⟩
    exact absurd he hpath.entry_ne_none
  | some e =>
    obtain ⟨d, hd, hcorrect, habove⟩ := compute_dominators he (hentry e he)
    refine ⟨d, hd, ?_, ?_⟩
    · intro a b _ hb hbe
      exact hcorrect.mem_frontier habove hb (he ▸ hbe)
    · intro a e' he'
      cases he'
      exact hcorrect.entry_not_mem_frontier a

/-- The two blocks that lead to each other are in each other's frontiers. The edge back to the entry
puts it into none. -/
theorem crossingLoop_frontiers :
    (∀ e, crossingLoop.entry = some e → crossingLoop.containsBlock e = true) ∧
    crossingLoop.Reachable ⟨1⟩ ∧ crossingLoop.Reachable ⟨2⟩ ∧ crossingLoop.Edge ⟨2⟩ ⟨0⟩ ∧
    ∃ d, compute crossingLoop = .ok d ∧ d.frontier ⟨1⟩ = [⟨2⟩] ∧
      (∃ q, crossingLoop.Reachable q ∧ crossingLoop.Edge q ⟨2⟩ ∧ crossingLoop.Dominates ⟨1⟩ q) ∧
      ¬ crossingLoop.StrictlyDominates ⟨1⟩ ⟨2⟩ ∧ ⟨0⟩ ∉ d.frontier ⟨2⟩ := by
  have hentry : ∀ e, crossingLoop.entry = some e → crossingLoop.containsBlock e = true := by
    intro e he
    cases he
    rfl
  have hroot : crossingLoop.Path [⟨0⟩] ⟨0⟩ := .entry rfl rfl
  have h₁ : crossingLoop.Reachable ⟨1⟩ := ⟨_, hroot.step ⟨_, rfl, by decide, rfl⟩⟩
  have h₂ : crossingLoop.Reachable ⟨2⟩ := ⟨_, hroot.step ⟨_, rfl, by decide, rfl⟩⟩
  obtain ⟨d, hd, hexact, hnone⟩ := frontier_exact crossingLoop hentry
  have hresult : ((compute crossingLoop).toOption.map fun d => d.frontier ⟨1⟩) = some [⟨2⟩] := by cbv
  rw [hd] at hresult
  have hfrontier : d.frontier ⟨1⟩ = [⟨2⟩] := Option.some.inj hresult
  have hmem : (⟨2⟩ : BlockId) ∈ d.frontier ⟨1⟩ := by
    rw [hfrontier]
    exact List.mem_singleton_self _
  obtain ⟨hpred, hstrict⟩ := (hexact ⟨1⟩ ⟨2⟩ h₁ h₂ (by decide)).1 hmem
  exact ⟨hentry, h₁, h₂, ⟨_, rfl, by decide, rfl⟩, d, hd, hfrontier, hpred, hstrict,
    hnone ⟨2⟩ ⟨0⟩ rfl⟩

end BinaryLift.DomTree
