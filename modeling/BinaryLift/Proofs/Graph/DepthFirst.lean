import BinaryLift.Proofs.Graph.Orders
import BinaryLift.Proofs.Program.Checks
import Mathlib.Logic.Relation

/-!
# Depth first

The walk with a stack of open blocks does what a recursion does that explores every successor of a block
before the block is finished. By induction on the recursion, an edge from a finished block leads to a block
that was finished before or that the edge closes a cycle with, unless the block it leads to had been met
when the exploration began.
-/

namespace BinaryLift.Func

open Relation

variable {f : Func} {e b s u v : BlockId} {met met' met₁ met₂ edges post post₁ post₂ : List BlockId}

/-- The recursion: from the blocks met so far, along some edges in order, to the blocks met afterwards. The
blocks finished meanwhile are listed with the last one first. -/
inductive Explores (f : Func) : List BlockId → List BlockId → List BlockId → List BlockId → Prop
  | done {met : List BlockId} : Explores f met [] met []
  | skip {met met' edges post : List BlockId} {s : BlockId}
      (hold : ¬ (f.containsBlock s = true ∧ s ∉ met)) (hrest : Explores f met edges met' post) :
      Explores f met (s :: edges) met' post
  | visit {met met₁ met₂ edges post₁ post₂ : List BlockId} {s : BlockId} {data : Block}
      (hdata : f.block? s = some data) (hnew : s ∉ met)
      (hinner : Explores f (s :: met) data.term.successors met₁ post₁)
      (hrest : Explores f met₁ edges met₂ post₂) :
      Explores f met (s :: edges) met₂ (post₂ ++ s :: post₁)

/-! ### The walk -/

theorem Walk.run_step {n : Nat} {w : Walk} {bs : List BlockId} (hopen : w.stack ≠ [])
    (h : Walk.run f n w = .ok bs) :
    ∃ m w', n = m + 1 ∧ w.step f = .ok w' ∧ Walk.run f m w' = .ok bs := by
  unfold Walk.run at h
  split at h
  · rename_i hnil
    exact absurd hnil hopen
  · cases h
  · obtain ⟨w', hstep, hrun⟩ := bind_eq_ok.1 h
    exact ⟨_, w', rfl, hstep, hrun⟩

/-- A walk that ends explores the edges of its innermost open block and then closes it. -/
theorem Walk.run_explores (n : Nat) {rest : List (BlockId × List BlockId)} {done bs : List BlockId}
    (h : Walk.run f n ⟨(b, edges) :: rest, met, done⟩ = .ok bs) :
    ∃ met' post m, m < n ∧ f.Explores met edges met' post ∧
      Walk.run f m ⟨rest, met', b :: (post ++ done)⟩ = .ok bs := by
  induction n using Nat.strongRecOn generalizing b edges rest met done with
  | ind n ih =>
    obtain ⟨n, w', rfl, hstep, hrun⟩ := Walk.run_step (List.cons_ne_nil _ _) h
    cases edges with
    | nil =>
      cases hstep
      exact ⟨met, [], n, Nat.lt_succ_self n, .done, hrun⟩
    | cons s edges =>
      simp only [Walk.step] at hstep
      split at hstep
      · rename_i hnew
        obtain ⟨data, hdata⟩ := containsBlock_iff.1 hnew.1
        rw [successors_eq_ok hdata] at hstep
        cases hstep
        obtain ⟨met₁, post₁, n₁, hn₁, hinner, hrun₁⟩ := ih n (Nat.lt_succ_self n) hrun
        obtain ⟨met₂, post₂, n₂, hn₂, hrest, hrun₂⟩ := ih n₁ (by omega) hrun₁
        refine ⟨met₂, post₂ ++ s :: post₁, n₂, by omega, .visit hdata hnew.2 hinner hrest, ?_⟩
        rwa [List.append_assoc, List.cons_append]
      · rename_i hold
        cases hstep
        obtain ⟨met', post, m, hm, hrest, hrun'⟩ := ih n (Nat.lt_succ_self n) hrun
        exact ⟨met', post, m, by omega, .skip hold hrest, hrun'⟩

theorem explores_of_reversePostorder {rpo : List BlockId} {data : Block} (he : f.entry = some e)
    (hdata : f.block? e = some data) (h : f.reversePostorder = .ok rpo) :
    ∃ met post, f.Explores [e] data.term.successors met post ∧ rpo = e :: post := by
  simp only [reversePostorder, he, successors_eq_ok hdata] at h
  obtain ⟨met, post, m, _, hexplores, hrun⟩ := Walk.run_explores _ h
  rw [List.append_nil] at hrun
  unfold Walk.run at hrun
  cases hrun
  exact ⟨met, post, hexplores, rfl⟩

/-! ### The recursion -/

namespace Explores

theorem mem_iff (h : f.Explores met edges met' post) : b ∈ met' ↔ b ∈ met ∨ b ∈ post := by
  induction h with
  | done => simp
  | skip _ _ ih => exact ih
  | visit _ _ _ _ ihinner ihrest =>
    rw [ihrest, ihinner, List.mem_append, List.mem_cons, List.mem_cons]
    tauto

theorem mem_of_edge (h : f.Explores met edges met' post) (hs : s ∈ edges)
    (hlive : f.containsBlock s = true) : s ∈ met' := by
  induction h with
  | done => cases hs
  | @skip met _ _ _ c hold hrest ih =>
    rcases List.mem_cons.1 hs with rfl | hs
    · exact hrest.mem_iff.2 (.inl (by_contra fun hnot => hold ⟨hlive, hnot⟩))
    · exact ih hs
  | visit _ _ hinner hrest _ ih =>
    rcases List.mem_cons.1 hs with rfl | hs
    · exact hrest.mem_iff.2 (.inl (hinner.mem_iff.2 (.inl List.mem_cons_self)))
    · exact ih hs

/-- Whatever is finished has been come to along one of the edges. -/
theorem reached (h : f.Explores met edges met' post) (hu : u ∈ post) :
    ∃ s ∈ edges, f.containsBlock s = true ∧ ReflTransGen f.Edge s u := by
  induction h with
  | done => cases hu
  | skip _ _ ih =>
    obtain ⟨s, hs, hway⟩ := ih hu
    exact ⟨s, List.mem_cons_of_mem _ hs, hway⟩
  | @visit _ _ _ _ _ _ s data hdata _ _ _ ihinner ihrest =>
    have hlive : f.containsBlock s = true := containsBlock_iff.2 ⟨data, hdata⟩
    rcases List.mem_append.1 hu with hu | hu
    · obtain ⟨c, hc, hway⟩ := ihrest hu
      exact ⟨c, List.mem_cons_of_mem _ hc, hway⟩
    · refine ⟨s, List.mem_cons_self, hlive, ?_⟩
      rcases List.mem_cons.1 hu with rfl | hu
      · exact .refl
      · obtain ⟨c, hc, hclive, hway⟩ := ihinner hu
        exact .head ⟨data, hdata, hc, hclive⟩ hway

/-- The blocks finished while the successors of a block are explored lie behind it. -/
theorem behind {data : Block} (hdata : f.block? b = some data)
    (h : f.Explores met data.term.successors met' post) (hu : u ∈ post) : TransGen f.Edge b u := by
  obtain ⟨s, hs, hlive, hway⟩ := h.reached hu
  exact .head' ⟨data, hdata, hs, hlive⟩ hway

/-- An edge from a finished block leads to one that was finished before, to one that had been met before
the exploration, or back. -/
theorem edge (h : f.Explores met edges met' post) (hu : u ∈ post) (huv : f.Edge u v) :
    [u, v].Sublist post ∨ v ∈ met ∨ TransGen f.Edge v u := by
  induction h with
  | done => cases hu
  | skip _ _ ih => exact ih hu
  | @visit met met₁ met₂ edges post₁ post₂ s data hdata hnew hinner hrest ihinner ihrest =>
    have hright : ∀ {l : List BlockId}, l.Sublist (s :: post₁) → l.Sublist (post₂ ++ s :: post₁) :=
      fun hl => hl.trans (List.sublist_append_right _ _)
    rcases List.mem_append.1 hu with hu | hu
    · rcases ihrest hu with hsub | hmet | hback
      · exact .inl (hsub.trans (List.sublist_append_left _ _))
      · -- met in the part of the exploration before, or before the exploration
        have hpair : v ∈ s :: post₁ → ([u] ++ [v]).Sublist (post₂ ++ s :: post₁) := fun hv =>
          (List.singleton_sublist.2 hu).append (List.singleton_sublist.2 hv)
        rcases hinner.mem_iff.1 hmet with hmet | hpost
        · rcases List.mem_cons.1 hmet with rfl | hmet
          · exact .inl (hpair List.mem_cons_self)
          · exact .inr (.inl hmet)
        · exact .inl (hpair (List.mem_cons_of_mem _ hpost))
      · exact .inr (.inr hback)
    · rcases List.mem_cons.1 hu with rfl | hinside
      · obtain ⟨data', hdata', hv, hlive⟩ := huv
        rw [hdata] at hdata'
        cases hdata'
        rcases hinner.mem_iff.1 (hinner.mem_of_edge hv hlive) with hmet | hpost
        · rcases List.mem_cons.1 hmet with rfl | hmet
          · exact .inr (.inr (.single ⟨data, hdata, hv, hlive⟩))
          · exact .inr (.inl hmet)
        · exact .inl (hright ((List.singleton_sublist.2 hpost).cons_cons _))
      · rcases ihinner hinside with hsub | hmet | hback
        · exact .inl (hright (hsub.cons _))
        · rcases List.mem_cons.1 hmet with rfl | hmet
          · exact .inr (.inr (hinner.behind hdata hinside))
          · exact .inr (.inl hmet)
        · exact .inr (.inr hback)

/-- From the entry, which is open all the time. -/
theorem edge_from_entry {data : Block} (hdata : f.block? e = some data)
    (h : f.Explores [e] data.term.successors met post) (hu : u ∈ e :: post) (huv : f.Edge u v) :
    [u, v].Sublist (e :: post) ∨ TransGen f.Edge v u := by
  have hwhole : f.Explores [] [e] met (e :: post) := .visit hdata List.not_mem_nil h .done
  rcases hwhole.edge hu huv with hsub | hnone | hback
  · exact .inl hsub
  · cases hnone
  · exact .inr hback

end Explores

/-- The walk ends, and its list is a reverse postorder of the blocks that control can reach: that of the
recursion. It begins with the entry, every other block has a predecessor before it, and an edge that does
not lead on in the list closes a cycle, so without cycles all edges lead on. No edit removes the entry, so
it is live in every function that has been built. -/
theorem reversePostorder_depthFirst (he : f.entry = some e) (hlive : f.containsBlock e = true) :
    ∃ rpo, f.reversePostorder = .ok rpo ∧
      rpo.Nodup ∧ (∀ b, b ∈ rpo ↔ f.Reachable b) ∧ rpo.head? = some e ∧
      (∀ b ∈ rpo, b ≠ e → ∃ a, f.Edge a b ∧ [a, b].Sublist rpo) ∧
      (∀ u v, u ∈ rpo → f.Edge u v → ¬ [u, v].Sublist rpo → TransGen f.Edge v u) ∧
      ((∀ b, ¬ TransGen f.Edge b b) → ∀ u v, u ∈ rpo → f.Edge u v → [u, v].Sublist rpo) ∧
      ∃ data met post, f.block? e = some data ∧
        f.Explores [e] data.term.successors met post ∧ rpo = e :: post := by
  obtain ⟨data, hdata⟩ := containsBlock_iff.1 hlive
  obtain ⟨rpo, hrpo, hordered⟩ := reversePostorder_ordered he hlive
  obtain ⟨met, post, hexplores, rfl⟩ := explores_of_reversePostorder he hdata hrpo
  have hedge : ∀ u v, u ∈ e :: post → f.Edge u v →
      ¬ [u, v].Sublist (e :: post) → TransGen f.Edge v u :=
    fun u v hu huv hnot => (hexplores.edge_from_entry hdata hu huv).resolve_left hnot
  refine ⟨_, hrpo, hordered.nodup, hordered.mem_iff, hordered.head,
    fun b hb hne => (hordered.parent b hb).resolve_left hne, hedge, fun hacyclic u v hu huv => ?_,
    data, met, post, hdata, hexplores, rfl⟩
  by_contra hnot
  exact hacyclic u (.head huv (hedge u v hu huv hnot))

/-- Both arms of the first branch lead to one block. Behind it is a loop, which one arm enters at its end;
another arm leads to a block that has been removed, and control does not come to the last block. -/
def tangledWays : Func where
  name := "sample"
  params := [⟨"flag", .i1⟩]
  blocks := #[
    some { term := .branch (.arg 0) ⟨1⟩ ⟨1⟩ },
    some { term := .branch (.arg 0) ⟨2⟩ ⟨3⟩ },
    some { term := .jump ⟨1⟩ },
    some { term := .branch (.arg 0) ⟨4⟩ ⟨2⟩ },
    none,
    some { term := .jump ⟨3⟩ }]
  entry := some ⟨0⟩

/-- The edge that closes the loop is the only one that does not lead on. -/
theorem tangledWays_ordered :
    tangledWays.entry = some ⟨0⟩ ∧ tangledWays.containsBlock ⟨0⟩ = true ∧
      tangledWays.reversePostorder = .ok [⟨0⟩, ⟨1⟩, ⟨3⟩, ⟨2⟩] ∧
      (∀ b, tangledWays.Reachable b ↔ b ∈ [⟨0⟩, ⟨1⟩, ⟨3⟩, (⟨2⟩ : BlockId)]) ∧
      tangledWays.Edge ⟨2⟩ ⟨1⟩ ∧ TransGen tangledWays.Edge ⟨1⟩ ⟨2⟩ := by
  have hentry : tangledWays.entry = some ⟨0⟩ := rfl
  have hlive : tangledWays.containsBlock ⟨0⟩ = true := by decide
  have hlist : tangledWays.reversePostorder = .ok [⟨0⟩, ⟨1⟩, ⟨3⟩, ⟨2⟩] := rfl
  have hedge : tangledWays.Edge ⟨2⟩ ⟨1⟩ := ⟨_, rfl, List.mem_singleton_self _, by decide⟩
  obtain ⟨rpo, hrpo, _, hmem, _, _, hback, _⟩ := reversePostorder_depthFirst hentry hlive
  rw [hlist] at hrpo
  cases hrpo
  exact ⟨hentry, hlive, hlist, fun b => (hmem b).symm, hedge,
    hback _ _ (by decide) hedge (by decide)⟩

end BinaryLift.Func
