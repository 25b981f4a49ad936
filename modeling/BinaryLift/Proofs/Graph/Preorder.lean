import BinaryLift.Proofs.Graph.Dominance

/-!
# Walks down the dominator tree

The blocks to visit are blocks whose immediate dominator has been visited. When none is left, every
reachable block has been visited once, behind its immediate dominator.
-/

namespace BinaryLift.DomTree

variable {f : Func} {e b c : BlockId} {d : DomTree} {done work : List BlockId}

theorem mem_children (h : d.Correct f e) : c ∈ d.children b ↔ d.idom c = some b := by
  unfold children
  rw [List.mem_filter, decide_eq_true_eq]
  exact ⟨fun hc => hc.2, fun hc => ⟨(h.ordered.mem_iff c).2 (h.reachable_of_idom hc), hc⟩⟩

theorem nodup_children (h : d.Correct f e) (b : BlockId) : (d.children b).Nodup :=
  h.ordered.nodup.filter _

/-- What holds between the visited blocks, in order, and those to visit. -/
structure Descent (d : DomTree) (f : Func) (e : BlockId) (done work : List BlockId) : Prop where
  nodup : (done ++ work).Nodup
  reachable : ∀ b ∈ done ++ work, f.Reachable b
  entry : e ∈ done ++ work
  parent : ∀ b ∈ done ++ work, b = e ∨ ∃ p ∈ done, d.idom b = some p
  children : ∀ p ∈ done, ∀ b, d.idom b = some p → b ∈ done ++ work
  behind : ∀ b ∈ done, ∀ p, d.idom b = some p → [p, b].Sublist done

namespace Descent

theorem start (h : d.Correct f e) (hlive : f.containsBlock e = true) : d.Descent f e [] [e] where
  nodup := by simp
  reachable := by
    intro b hb
    rw [List.mem_singleton.1 hb]
    exact .entry h.entry hlive
  entry := List.mem_singleton_self e
  parent := fun b hb => .inl (List.mem_singleton.1 hb)
  children := fun p hp => nomatch hp
  behind := fun b hb => nomatch hb

theorem notMem_done (hw : d.Descent f e done (b :: work)) : b ∉ done := by
  intro hb
  have hnodup := hw.nodup
  rw [List.nodup_append] at hnodup
  exact hnodup.2.2 b hb b List.mem_cons_self rfl

/-- A block is visited and makes way for its children, in any order. -/
theorem visit (hw : d.Descent f e done (b :: work)) (h : d.Correct f e) {kids : List BlockId}
    (hkids : kids.Perm (d.children b)) : d.Descent f e (done ++ [b]) (kids ++ work) := by
  have hsplit : done ++ b :: work = done ++ [b] ++ work := by simp
  have hbdone := hw.notMem_done
  obtain ⟨hnodup, hreachable, hentry, hparent, hchildren, hbehind⟩ := hw
  rw [hsplit] at hnodup hreachable hentry hparent hchildren
  have hmem_kids : ∀ c, c ∈ kids ↔ d.idom c = some b :=
    fun c => hkids.mem_iff.trans (mem_children h)
  have hmem : ∀ c, c ∈ done ++ [b] ++ (kids ++ work) ↔
      c ∈ done ++ [b] ++ work ∨ d.idom c = some b := by
    intro c
    simp only [List.mem_append, hmem_kids]
    rw [or_left_comm, or_comm]
  -- nothing that has been met lies below the block
  have hfresh : ∀ c ∈ kids, c ∉ done ++ [b] ++ work := by
    intro c hc hmet
    have hidom := (hmem_kids c).1 hc
    rcases hparent c hmet with rfl | ⟨p, hp, hcp⟩
    · exact h.ne_entry hidom rfl
    · rw [hidom] at hcp
      cases hcp
      exact hbdone hp
  refine ⟨?_, ?_, (hmem e).2 (.inl hentry), ?_, ?_, ?_⟩
  · have hperm : (done ++ [b] ++ (kids ++ work)).Perm (kids ++ (done ++ [b] ++ work)) := by
      rw [← List.append_assoc, ← List.append_assoc]
      exact List.perm_append_comm.append_right _
    rw [hperm.nodup_iff, List.nodup_append]
    refine ⟨hkids.nodup_iff.2 (nodup_children h b), hnodup, ?_⟩
    rintro c hc c' hc' rfl
    exact hfresh c hc hc'
  · intro c hc
    rcases (hmem c).1 hc with hc | hc
    · exact hreachable c hc
    · exact h.reachable_of_idom hc
  · intro c hc
    rcases (hmem c).1 hc with hc | hc
    · refine (hparent c hc).imp_right ?_
      rintro ⟨p, hp, hidom⟩
      exact ⟨p, List.mem_append_left _ hp, hidom⟩
    · exact .inr ⟨b, List.mem_append_right _ (List.mem_singleton_self b), hc⟩
  · intro p hp c hidom
    refine (hmem c).2 ?_
    rcases List.mem_append.1 hp with hp | hp
    · exact .inl (hchildren p hp c hidom)
    · rw [List.mem_singleton.1 hp] at hidom
      exact .inr hidom
  · intro c hc p hidom
    rcases List.mem_append.1 hc with hc | hc
    · exact (hbehind c hc p hidom).trans (List.sublist_append_left _ _)
    · rw [List.mem_singleton.1 hc] at hidom ⊢
      rcases hparent b (by simp) with rfl | ⟨p', hp', hidom'⟩
      · exact absurd rfl (h.ne_entry hidom)
      · rw [hidom] at hidom'
        cases hidom'
        exact (List.singleton_sublist.2 hp').append (List.Sublist.refl [b])

theorem all_done (hw : d.Descent f e done []) (h : d.Correct f e) (hb : f.Reachable b) :
    b ∈ done := by
  induction hk : d.rpo.idxOf b using Nat.strongRecOn generalizing b with
  | ind k ih =>
    subst hk
    by_cases hbe : b = e
    · rw [hbe]
      simpa using hw.entry
    · obtain ⟨p, hp⟩ := h.idom b hb hbe
      obtain ⟨hreach, hlt⟩ := h.idom_lt b p hp
      simpa using hw.children p (ih _ hlt hreach rfl) b hp

theorem mem_done_iff (hw : d.Descent f e done []) (h : d.Correct f e) :
    b ∈ done ↔ f.Reachable b :=
  ⟨fun hb => hw.reachable b (List.mem_append_left _ hb), hw.all_done h⟩

theorem length_le (hw : d.Descent f e done work) (h : d.Correct f e) :
    done.length + work.length ≤ d.rpo.length := by
  have hsub : done ++ work ⊆ d.rpo := fun b hb => (h.ordered.mem_iff b).2 (hw.reachable b hb)
  have hle := (List.subperm_of_subset hw.nodup hsub).length_le
  rwa [List.length_append] at hle

theorem preorderFrom (h : d.Correct f e) (n : Nat) : ∀ {done work}, d.Descent f e done work →
    d.rpo.length ≤ done.length + n → d.Descent f e (done ++ d.preorderFrom n work) [] := by
  induction n with
  | zero =>
    intro done work hw hn
    have hle := hw.length_le h
    have hnil : work = [] := List.length_eq_zero_iff.1 (by omega)
    subst hnil
    simpa [DomTree.preorderFrom] using hw
  | succ n ih =>
    intro done work hw hn
    cases work with
    | nil => simpa [DomTree.preorderFrom] using hw
    | cons b work =>
      have hrest := ih (hw.visit h (.refl (d.children b))) (by
        rw [List.length_append, List.length_singleton]
        omega)
      rwa [List.append_assoc] at hrest

end Descent

/-- The preorder is a walk to its end. -/
theorem descent_preorder (h : d.Correct f e) (hlive : f.containsBlock e = true) :
    d.Descent f e d.preorder [] := by
  have hentry : d.entry = some e := h.ordered.head
  have hwalk := (Descent.start h hlive).preorderFrom h d.rpo.length (Nat.le_add_left _ _)
  rw [List.nil_append] at hwalk
  rw [preorder, hentry]
  exact hwalk

end BinaryLift.DomTree
