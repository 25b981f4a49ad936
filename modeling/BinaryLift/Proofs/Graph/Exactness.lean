import BinaryLift.Proofs.Graph.Frontiers
import BinaryLift.Proofs.Graph.Preorder
import Mathlib

/-!
# Exactness of the dominator tree

Everything the tree says of reachability and dominance is so on paths, and the other way round: its
blocks are the reachable ones, the blocks above a block are its dominators, and the one directly above
is the nearest of the strict ones. The preorder lists each block once, behind its immediate dominator.
-/

namespace BinaryLift.DomTree

variable {f : Func} {e a b c p : BlockId} {d : DomTree}

theorem mem_ancestors_of_upward (h : d.Correct f e) (hab : d.Upward a b) (n : Nat)
    (hn : d.rpo.idxOf b ≤ n) : a ∈ d.ancestors n b := by
  induction hab generalizing n with
  | refl => cases n <;> exact List.mem_cons_self
  | @up b p hp _ ih =>
    obtain ⟨_, hlt⟩ := h.idom_lt b p hp
    cases n with
    | zero => omega
    | succ n =>
      refine List.mem_cons_of_mem _ ?_
      rw [hp]
      exact ih n (by omega)

theorem isReachable_iff (h : d.Correct f e) : d.isReachable b = true ↔ f.Reachable b := by
  rw [isReachable, List.contains_iff_mem, h.ordered.mem_iff]

/-- What the tree of a function says, on paths. -/
structure Exact (f : Func) (d : DomTree) : Prop where
  isReachable : ∀ b, d.isReachable b = true ↔ f.Reachable b
  dominates : ∀ a b, d.dominates a b = true ↔ f.Reachable a ∧ f.Reachable b ∧ f.Dominates a b
  /-- The nearest strict dominator: every strict dominator dominates it. -/
  idom : ∀ b p, d.idom b = some p ↔ f.Reachable b ∧ f.StrictlyDominates p b ∧
    ∀ c, f.StrictlyDominates c b → f.Dominates c p
  idom_none : ∀ b, d.idom b = none ↔ f.entry = some b ∨ ¬ f.Reachable b
  nodup_preorder : d.preorder.Nodup
  mem_preorder : ∀ b, b ∈ d.preorder ↔ f.Reachable b
  behind : ∀ b p, d.idom b = some p → [p, b].Sublist d.preorder

namespace Correct

theorem idom_iff (h : d.Correct f e)
    (habove : ∀ a b, f.Reachable b → f.Dominates a b → d.Upward a b) :
    d.idom b = some p ↔ f.Reachable b ∧ f.StrictlyDominates p b ∧
      ∀ c, f.StrictlyDominates c b → f.Dominates c p := by
  have hnearest : ∀ {p}, d.idom b = some p → ∀ c, f.StrictlyDominates c b → f.Dominates c p := by
    intro p hp c hc
    have hcb := habove c b (h.reachable_of_idom hp) hc.2
    exact h.dominates_of_upward (hcb.of_idom (Ne.symm hc.1) hp)
  constructor
  · intro hp
    exact ⟨h.reachable_of_idom hp, h.idom_strictly hp, hnearest hp⟩
  · rintro ⟨hb, hpb, hall⟩
    have hbe : b ≠ e := by
      rintro rfl
      have hmem := hpb.2 [b] (.entry h.entry hb.live)
      exact hpb.1 (List.mem_singleton.1 hmem)
    obtain ⟨q, hq⟩ := h.idom b hb hbe
    have hqb := h.idom_strictly hq
    rw [hq, Func.Dominates.antisymm (hpb.2.reachable hb) (hall q hqb) (hnearest hq p hpb)]

theorem exact (h : d.Correct f e) (hlive : f.containsBlock e = true)
    (habove : ∀ a b, f.Reachable b → f.Dominates a b → d.Upward a b) : d.Exact f where
  isReachable := fun b => isReachable_iff h
  dominates := by
    intro a b
    constructor
    · intro hab
      have hb : f.Reachable b := (isReachable_iff h).1 (Bool.and_eq_true_iff.1 hab).1
      have hdom := h.dominates_of_eq_true hab
      exact ⟨hdom.reachable hb, hb, hdom⟩
    · rintro ⟨_, hb, hab⟩
      have hle : d.rpo.idxOf b ≤ d.rpo.length := List.idxOf_le_length
      rw [DomTree.dominates, Bool.and_eq_true, List.contains_iff_mem]
      exact ⟨(isReachable_iff h).2 hb, mem_ancestors_of_upward h (habove a b hb hab) _ hle⟩
  idom := fun b p => h.idom_iff habove
  idom_none := by
    intro b
    constructor
    · intro hnone
      by_contra hnot
      rw [not_or, not_not] at hnot
      obtain ⟨p, hp⟩ := h.idom b hnot.2 fun hbe => hnot.1 (hbe ▸ h.entry)
      rw [hnone] at hp
      cases hp
    · rintro (hb | hb)
      · rw [h.entry] at hb
        cases hb
        exact h.idom_entry
      · exact h.idom_of_unreachable b hb
  nodup_preorder := by
    have hnodup := (descent_preorder h hlive).nodup
    rwa [List.append_nil] at hnodup
  mem_preorder := fun b => (descent_preorder h hlive).mem_done_iff h
  behind := by
    intro b p hp
    have hwalk := descent_preorder h hlive
    exact hwalk.behind b (hwalk.all_done h (h.reachable_of_idom hp)) p hp

end Correct

/-- Without an entry nothing is reachable, and the tree is empty. -/
theorem exact_of_no_entry (he : f.entry = none) (hd : d.rpo = []) : d.Exact f := by
  have hunreachable : ∀ b, ¬ f.Reachable b := by
    rintro b ⟨path, hpath⟩
    exact hpath.entry_ne_none he
  have hmem : ∀ b, d.isReachable b = false := by
    intro b
    rw [isReachable, hd]
    rfl
  have hidom : ∀ b, d.idom b = none := by
    intro b
    rw [idom, hd]
    rfl
  have hpreorder : d.preorder = [] := by
    rw [preorder, hd]
    rfl
  refine ⟨?_, ?_, ?_, ?_, ?_, ?_, ?_⟩
  · intro b
    simp [hmem b, hunreachable b]
  · intro a b
    simp [dominates, hmem b, hunreachable b]
  · intro b p
    simp [hidom b, hunreachable b]
  · intro b
    simp [hidom b, hunreachable b]
  · simp [hpreorder]
  · intro b
    simp [hpreorder, hunreachable b]
  · intro b p hp
    rw [hidom b] at hp
    cases hp

theorem compute_returns (hentry : ∀ e, f.entry = some e → f.containsBlock e = true) :
    ∃ d, compute f = .ok d := by
  cases he : f.entry with
  | none =>
    obtain ⟨d, hd, _⟩ := Func.compute_of_no_entry he
    exact ⟨d, hd⟩
  | some e =>
    obtain ⟨d, hd, _⟩ := compute_dominators he (hentry e he)
    exact ⟨d, hd⟩

theorem exact_of_compute (hentry : ∀ e, f.entry = some e → f.containsBlock e = true)
    (hd : compute f = .ok d) : d.Exact f := by
  cases he : f.entry with
  | none =>
    obtain ⟨d', hd', hnone⟩ := Func.compute_of_no_entry he
    rw [hd] at hd'
    cases hd'
    exact exact_of_no_entry he (List.head?_eq_none_iff.1 hnone)
  | some e =>
    have hlive := hentry e he
    obtain ⟨d', hd', hcorrect, habove⟩ := compute_dominators he hlive
    rw [hd] at hd'
    cases hd'
    exact hcorrect.exact hlive habove

/-- The sweeps of every function whose entry, if any, is live come to rest, and the tree they leave is
exact. -/
theorem compute_exact (f : Func) (hentry : ∀ e, f.entry = some e → f.containsBlock e = true) :
    ∃ d, compute f = .ok d ∧ d.Exact f := by
  obtain ⟨d, hd⟩ := compute_returns hentry
  exact ⟨d, hd, exact_of_compute hentry hd⟩

/-- Two blocks that lead to each other, both entered from outside, an edge back to the entry and a
block that control does not come to. -/
def crossingLoop : Func where
  name := "sample"
  params := [⟨"flag", .i1⟩]
  blocks := #[
    some { term := .branch (.arg 0) ⟨1⟩ ⟨2⟩ },
    some { term := .branch (.arg 0) ⟨2⟩ ⟨3⟩ },
    some { term := .branch (.arg 0) ⟨1⟩ ⟨0⟩ },
    some { term := .ret none },
    some { term := .jump ⟨3⟩ }]
  entry := some ⟨0⟩

/-- Neither of the two dominates the other, and the block behind the first has it above. -/
theorem crossingLoop_tree :
    (∀ e, crossingLoop.entry = some e → crossingLoop.containsBlock e = true) ∧
    ∃ d, compute crossingLoop = .ok d ∧ d.Exact crossingLoop ∧
      d.preorder = [⟨0⟩, ⟨1⟩, ⟨3⟩, ⟨2⟩] ∧
      ¬ crossingLoop.Dominates ⟨1⟩ ⟨2⟩ ∧ ¬ crossingLoop.Reachable ⟨4⟩ := by
  have hentry : ∀ e, crossingLoop.entry = some e → crossingLoop.containsBlock e = true := by
    intro e he
    cases he
    rfl
  obtain ⟨d, hd, hexact⟩ := compute_exact crossingLoop hentry
  have hresult : ((compute crossingLoop).toOption.map fun d =>
      (d.preorder, d.dominates ⟨1⟩ ⟨2⟩, d.isReachable ⟨1⟩, d.isReachable ⟨2⟩, d.isReachable ⟨4⟩)) =
      some ([⟨0⟩, ⟨1⟩, ⟨3⟩, ⟨2⟩], false, true, true, false) := by cbv
  rw [hd] at hresult
  obtain ⟨hpreorder, hdom, h₁, h₂, h₄⟩ := by
    simpa only [Except.toOption, Option.map_some, Option.some.injEq, Prod.mk.injEq] using hresult
  refine ⟨hentry, d, hd, hexact, hpreorder, fun hdominates => ?_, fun hreach => ?_⟩
  · have htrue := (hexact.dominates ⟨1⟩ ⟨2⟩).2
      ⟨(hexact.isReachable _).1 h₁, (hexact.isReachable _).1 h₂, hdominates⟩
    rw [hdom] at htrue
    cases htrue
  · rw [(hexact.isReachable ⟨4⟩).2 hreach] at h₄
    cases h₄

end BinaryLift.DomTree
