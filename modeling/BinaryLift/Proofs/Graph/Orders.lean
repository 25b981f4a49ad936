import BinaryLift.Graph.Dominators
import BinaryLift.Proofs.Graph.Paths
import Mathlib.Data.List.Perm.Subperm

/-!
# Reverse postorder

At every moment of the walk the open blocks, outermost first, followed by the finished ones are the
beginning of the final order: closing a block does not change this list, and opening one puts it
behind the block it was reached from.
-/

namespace BinaryLift.Func

theorem length_successors_le (t : Terminator) : t.successors.length ≤ 2 := by
  cases t <;> simp [Terminator.successors]

theorem successors_eq_ok {f : Func} {b : BlockId} {data : Block} (h : f.block? b = some data) :
    f.successors b = .ok data.term.successors := by
  simp only [successors, term, block_eq_ok.2 h]
  rfl

theorem index_inj {a b : BlockId} (h : a.index = b.index) : a = b := by
  cases a
  cases b
  cases h
  rfl

theorem length_le_of_live {f : Func} {bs : List BlockId} (hnodup : bs.Nodup)
    (hlive : ∀ b ∈ bs, f.containsBlock b = true) : bs.length ≤ f.blocks.size := by
  have hsub : bs.map (·.index) ⊆ List.range f.blocks.size := by
    intro n hn
    obtain ⟨b, hb, rfl⟩ := List.mem_map.1 hn
    obtain ⟨data, hdata⟩ := containsBlock_iff.1 (hlive b hb)
    exact List.mem_range.2 (index_lt_of_block? hdata)
  have hnodup' : (bs.map (·.index)).Nodup :=
    List.Pairwise.map _ (fun _ _ hne h => hne (index_inj h)) hnodup
  have hle := (List.subperm_of_subset hnodup' hsub).length_le
  rwa [List.length_map, List.length_range] at hle

namespace Walk

/-- The blocks met so far in the order in which they will be listed. -/
def order (w : Walk) : List BlockId := (w.stack.map (·.1)).reverse ++ w.done

/-- How many steps are left at most. -/
def potential (f : Func) (w : Walk) : Nat :=
  (w.stack.map fun x => x.2.length + 1).sum + 3 * (f.blocks.size - w.met.length)

/-- What holds at every moment of a walk from `e`. -/
structure Sound (f : Func) (e : BlockId) (w : Walk) : Prop where
  nodup : w.order.Nodup
  perm : w.met.Perm w.order
  head : w.order.head? = some e
  reachable : ∀ b ∈ w.met, f.Reachable b
  tried : ∀ x ∈ w.stack, ∃ data tried, f.block? x.1 = some data ∧
    data.term.successors = tried ++ x.2 ∧ ∀ s ∈ tried, f.containsBlock s = true → s ∈ w.met
  closed : ∀ b ∈ w.done, ∀ s, f.Edge b s → s ∈ w.met
  parent : ∀ s ∈ w.order, s = e ∨ ∃ u, f.Edge u s ∧ [u, s].Sublist w.order

variable {f : Func} {e : BlockId} {w : Walk}

theorem Sound.length_met_le (h : w.Sound f e) : w.met.length ≤ f.blocks.size :=
  length_le_of_live (h.perm.nodup_iff.2 h.nodup) fun b hb => (h.reachable b hb).live

theorem Sound.start {data : Block} (he : f.entry = some e) (hdata : f.block? e = some data) :
    Sound f e ⟨[(e, data.term.successors)], [e], []⟩ where
  nodup := by simp [order]
  perm := .refl _
  head := rfl
  reachable := by
    intro b hb
    rw [List.mem_singleton.1 hb]
    exact .entry he (containsBlock_iff.2 ⟨data, hdata⟩)
  tried := by
    intro x hx
    rw [List.mem_singleton.1 hx]
    exact ⟨data, [], hdata, rfl, by simp⟩
  closed := by simp
  parent := by
    intro s hs
    exact .inl (List.mem_singleton.1 hs)

theorem Sound.close {b : BlockId} {rest : List (BlockId × List BlockId)}
    (h : w.Sound f e) (hstack : w.stack = (b, []) :: rest) :
    Sound f e { w with stack := rest, done := b :: w.done } := by
  have horder : order { w with stack := rest, done := b :: w.done } = w.order := by
    simp [order, hstack]
  obtain ⟨data, tried, hdata, hsucc, hmet⟩ := h.tried (b, []) (by rw [hstack]; exact List.mem_cons_self)
  refine ⟨by rw [horder]; exact h.nodup, by rw [horder]; exact h.perm,
    by rw [horder]; exact h.head, h.reachable, ?_, ?_, by rw [horder]; exact h.parent⟩
  · intro x hx
    exact h.tried x (by rw [hstack]; exact List.mem_cons_of_mem _ hx)
  · intro c hc s hedge
    rcases List.mem_cons.1 hc with rfl | hc
    · obtain ⟨data', hdata', hs, hlive⟩ := hedge
      rw [hdata] at hdata'
      cases hdata'
      rw [hsucc, List.append_nil] at hs
      exact hmet s hs hlive
    · exact h.closed c hc s hedge

theorem Sound.skip {b s : BlockId} {edges : List BlockId} {rest : List (BlockId × List BlockId)}
    (h : w.Sound f e) (hstack : w.stack = (b, s :: edges) :: rest)
    (hold : f.containsBlock s = true → s ∈ w.met) :
    Sound f e { w with stack := (b, edges) :: rest } := by
  have horder : order { w with stack := (b, edges) :: rest } = w.order := by
    simp [order, hstack]
  refine ⟨by rw [horder]; exact h.nodup, by rw [horder]; exact h.perm,
    by rw [horder]; exact h.head, h.reachable, ?_, h.closed, by rw [horder]; exact h.parent⟩
  intro x hx
  rcases List.mem_cons.1 hx with rfl | hx
  · obtain ⟨data, tried, hdata, hsucc, hmet⟩ := h.tried (b, s :: edges) (by rw [hstack]; exact List.mem_cons_self)
    refine ⟨data, tried ++ [s], hdata, by rw [hsucc]; simp, ?_⟩
    intro c hc hlive
    rcases List.mem_append.1 hc with hc | hc
    · exact hmet c hc hlive
    · rw [List.mem_singleton.1 hc] at hlive ⊢
      exact hold hlive
  · exact h.tried x (by rw [hstack]; exact List.mem_cons_of_mem _ hx)

theorem Sound.open_new {b s : BlockId} {edges : List BlockId} {rest : List (BlockId × List BlockId)}
    {sdata : Block} (h : w.Sound f e) (hstack : w.stack = (b, s :: edges) :: rest)
    (hs : f.block? s = some sdata) (hnew : s ∉ w.met) :
    Sound f e { w with stack := (s, sdata.term.successors) :: (b, edges) :: rest, met := s :: w.met } := by
  obtain ⟨data, tried, hdata, hsucc, hmet⟩ := h.tried (b, s :: edges) (by rw [hstack]; exact List.mem_cons_self)
  have hedge : f.Edge b s := by
    refine ⟨data, hdata, ?_, containsBlock_iff.2 ⟨sdata, hs⟩⟩
    rw [hsucc]
    exact List.mem_append_right _ List.mem_cons_self
  have hold : w.order = (rest.map (·.1)).reverse ++ [b] ++ w.done := by
    simp [order, hstack]
  have horder : order { w with
      stack := (s, sdata.term.successors) :: (b, edges) :: rest, met := s :: w.met } =
      (rest.map (·.1)).reverse ++ [b] ++ s :: w.done := by
    simp [order]
  have hsub : w.order.Sublist ((rest.map (·.1)).reverse ++ [b] ++ s :: w.done) := by
    rw [hold]
    exact (List.Sublist.refl _).append (List.sublist_cons_self _ _)
  have hperm : ((rest.map (·.1)).reverse ++ [b] ++ s :: w.done).Perm (s :: w.order) := by
    rw [hold]
    exact List.perm_middle
  have hb : b ∈ w.met := by
    rw [h.perm.mem_iff, hold]
    simp
  refine ⟨?_, ?_, ?_, ?_, ?_, ?_, ?_⟩
  · rw [horder, hperm.nodup_iff]
    exact List.nodup_cons.2 ⟨fun hmem => hnew (h.perm.mem_iff.2 hmem), h.nodup⟩
  · rw [horder]
    exact (h.perm.cons s).trans hperm.symm
  · rw [horder]
    have hhead := h.head
    rw [hold] at hhead
    simpa using hhead
  · intro c hc
    rcases List.mem_cons.1 hc with rfl | hc
    · exact (h.reachable b hb).step hedge
    · exact h.reachable c hc
  · intro x hx
    rcases List.mem_cons.1 hx with rfl | hx
    · exact ⟨sdata, [], hs, rfl, by simp⟩
    · rcases List.mem_cons.1 hx with rfl | hx
      · refine ⟨data, tried ++ [s], hdata, by rw [hsucc]; simp, ?_⟩
        intro c hc hlive
        rcases List.mem_append.1 hc with hc | hc
        · exact List.mem_cons_of_mem _ (hmet c hc hlive)
        · rw [List.mem_singleton.1 hc]
          exact List.mem_cons_self
      · obtain ⟨d, t, hd, ht, hm⟩ := h.tried x (by rw [hstack]; exact List.mem_cons_of_mem _ hx)
        exact ⟨d, t, hd, ht, fun c hc hlive => List.mem_cons_of_mem _ (hm c hc hlive)⟩
  · intro c hc t hct
    exact List.mem_cons_of_mem _ (h.closed c hc t hct)
  · intro c hc
    rw [horder] at hc ⊢
    rcases List.mem_cons.1 (hperm.mem_iff.1 hc) with rfl | hc
    · refine .inr ⟨b, hedge, ?_⟩
      rw [List.append_assoc]
      refine List.Sublist.trans ?_ (List.sublist_append_right _ _)
      exact ((List.nil_sublist _).cons_cons _).cons_cons _
    · rcases h.parent c hc with heq | ⟨u, hu, hbefore⟩
      · exact .inl heq
      · exact .inr ⟨u, hu, hbefore.trans hsub⟩

theorem Sound.step (h : w.Sound f e) (hopen : w.stack ≠ []) :
    ∃ w' : Walk, w.step f = .ok w' ∧ w'.Sound f e ∧ w'.potential f < w.potential f := by
  unfold Walk.step
  match hstack : w.stack with
  | [] => exact absurd hstack hopen
  | (b, []) :: rest =>
    refine ⟨_, rfl, h.close hstack, ?_⟩
    simp only [potential, hstack, List.map_cons, List.sum_cons, List.length_nil]
    omega
  | (b, s :: edges) :: rest =>
    by_cases hnew : f.containsBlock s = true ∧ s ∉ w.met
    · obtain ⟨sdata, hs⟩ := containsBlock_iff.1 hnew.1
      have hsound := h.open_new hstack hs hnew.2
      have hmet := hsound.length_met_le
      have hsucc := length_successors_le sdata.term
      simp only [List.length_cons] at hmet
      simp only [if_pos hnew, successors_eq_ok hs]
      refine ⟨_, rfl, hsound, ?_⟩
      simp only [potential, hstack, List.map_cons, List.sum_cons, List.length_cons]
      omega
    · simp only [if_neg hnew]
      refine ⟨_, rfl, h.skip hstack fun hlive => ?_, ?_⟩
      · by_contra hmet
        exact hnew ⟨hlive, hmet⟩
      · simp only [potential, hstack, List.map_cons, List.sum_cons, List.length_cons]
        omega

theorem Sound.run (h : w.Sound f e) (n : Nat) (hn : w.potential f ≤ n) :
    ∃ w' : Walk, run f n w = .ok w'.done ∧ w'.Sound f e ∧ w'.stack = [] := by
  induction n generalizing w with
  | zero =>
    cases hstack : w.stack with
    | nil =>
      refine ⟨w, ?_, h, hstack⟩
      unfold Walk.run
      rw [hstack]
    | cons x rest =>
      simp only [potential, hstack, List.map_cons, List.sum_cons] at hn
      omega
  | succ n ih =>
    cases hstack : w.stack with
    | nil =>
      refine ⟨w, ?_, h, hstack⟩
      unfold Walk.run
      rw [hstack]
    | cons x rest =>
      obtain ⟨w', hstep, hsound, hlt⟩ := h.step (by rw [hstack]; exact List.cons_ne_nil _ _)
      obtain ⟨w'', hrun, hsound', hdone⟩ := ih hsound (by omega)
      refine ⟨w'', ?_, hsound', hdone⟩
      unfold Walk.run
      simp only [hstack, hstep]
      exact hrun

end Walk

/-- The reachable blocks, each once, the entry first and every other block behind one it can be
reached from. -/
structure Ordered (f : Func) (e : BlockId) (rpo : List BlockId) : Prop where
  nodup : rpo.Nodup
  head : rpo.head? = some e
  mem_iff : ∀ b, b ∈ rpo ↔ f.Reachable b
  parent : ∀ s ∈ rpo, s = e ∨ ∃ u, f.Edge u s ∧ [u, s].Sublist rpo

namespace Ordered

variable {f : Func} {e b : BlockId} {rpo : List BlockId} {i j : Nat}

theorem index_eq (h : f.Ordered e rpo) (hi : rpo[i]? = some b) (hj : rpo[j]? = some b) : i = j :=
  (List.getElem?_inj (List.getElem?_eq_some_iff.1 hi).1 h.nodup).1 (hi.trans hj.symm)

theorem getElem?_zero (h : f.Ordered e rpo) : rpo[0]? = some e := by
  rw [← List.head?_eq_getElem?]
  exact h.head

end Ordered

/-- The walk ends and lists the reachable blocks. -/
theorem reversePostorder_ordered {f : Func} {e : BlockId} (he : f.entry = some e)
    (hlive : f.containsBlock e = true) :
    ∃ rpo, f.reversePostorder = .ok rpo ∧ f.Ordered e rpo := by
  obtain ⟨data, hdata⟩ := containsBlock_iff.1 hlive
  have hstart := Walk.Sound.start he hdata
  have hsucc := length_successors_le data.term
  have hsize := index_lt_of_block? hdata
  obtain ⟨w, hrun, hsound, hstack⟩ := hstart.run (3 * f.blocks.size + 3) (by
    simp only [Walk.potential, List.map_cons, List.map_nil, List.sum_cons, List.sum_nil,
      List.length_singleton]
    omega)
  have horder : w.order = w.done := by simp [Walk.order, hstack]
  refine ⟨w.done, ?_, ?_⟩
  · unfold reversePostorder
    rw [he]
    simp only [successors_eq_ok hdata]
    exact hrun
  · have hmem : ∀ b, b ∈ w.met ↔ b ∈ w.done := by
      intro b
      rw [hsound.perm.mem_iff, horder]
    have hnodup := hsound.nodup
    have hhead := hsound.head
    have hparent := hsound.parent
    rw [horder] at hnodup hhead hparent
    refine ⟨hnodup, hhead, ?_, hparent⟩
    intro b
    refine ⟨fun hb => hsound.reachable b ((hmem b).2 hb), ?_⟩
    rintro ⟨p, hp⟩
    -- along a way: the entry is listed, and so is every block after a listed one
    induction hp with
    | entry he' _ =>
      rw [he] at he'
      cases he'
      exact List.mem_of_head? hhead
    | step _ hedge ih =>
      exact (hmem _).1 (hsound.closed _ ih _ hedge)

end BinaryLift.Func
