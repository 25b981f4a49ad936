import BinaryLift.Proofs.Graph.Orders
import BinaryLift.Proofs.Graph.Sweeps

/-!
# Dominator trees

The computed tree in terms of blocks. A block hangs below exactly what all its reachable
predecessors hang below, so whatever lies above a block dominates it.
-/

namespace BinaryLift

theorem mem_eraseReps {α : Type} [DecidableEq α] {x : α} {l : List α} :
    x ∈ l.eraseReps ↔ x ∈ l := by
  have hloop : ∀ (as : List α) (a : α) (acc : List α),
      x ∈ List.eraseRepsBy.loop (· == ·) a as acc ↔ x = a ∨ x ∈ as ∨ x ∈ acc := by
    intro as
    induction as with
    | nil =>
      intro a acc
      simp only [List.eraseRepsBy.loop, List.mem_reverse, List.mem_cons, List.not_mem_nil, false_or]
    | cons b as ih =>
      intro a acc
      unfold List.eraseRepsBy.loop
      cases hab : a == b with
      | true =>
        rw [beq_iff_eq] at hab
        subst hab
        simp only [ih, List.mem_cons]
        tauto
      | false =>
        simp only [ih, List.mem_cons]
        tauto
  cases l with
  | nil => exact Iff.rfl
  | cons a as =>
    unfold List.eraseReps List.eraseRepsBy
    rw [hloop]
    simp

theorem idxOf?_eq_some_of_nodup {α : Type} [DecidableEq α] {l : List α} (h : l.Nodup) {a : α}
    {i : Nat} : l.idxOf? a = some i ↔ l[i]? = some a := by
  rw [List.idxOf?_eq_some_iff]
  constructor
  · rintro ⟨hi, heq, _⟩
    rw [List.getElem?_eq_getElem hi, heq]
  · intro hget
    obtain ⟨hi, heq⟩ := List.getElem?_eq_some_iff.1 hget
    refine ⟨hi, heq, fun j hj heq' => ?_⟩
    have hget' : l[j]? = l[i]? := by
      rw [hget, List.getElem?_eq_getElem (Nat.lt_trans hj hi), heq']
    have hji := (List.getElem?_inj (Nat.lt_trans hj hi) h).1 hget'
    omega

theorem find?_map_key {α β : Type} [DecidableEq α] (g : α → β) {l : List α} {a : α} (h : a ∈ l) :
    (l.map fun x => (x, g x)).find? (·.1 = a) = some (a, g a) := by
  induction l with
  | nil => cases h
  | cons x l ih =>
    rw [List.map_cons, List.find?_cons]
    by_cases hxa : x = a
    · subst hxa
      simp
    · simp only [hxa, decide_false]
      exact ih ((List.mem_cons.1 h).resolve_left fun heq => hxa heq.symm)

theorem exists_lt_of_sublist {α : Type} {l : List α} {a b : α} (h : [a, b].Sublist l) :
    ∃ i j : Nat, i < j ∧ l[i]? = some a ∧ l[j]? = some b := by
  induction l with
  | nil => cases h
  | cons x l ih =>
    cases h with
    | cons _ h' =>
      obtain ⟨i, j, hij, hi, hj⟩ := ih h'
      exact ⟨i + 1, j + 1, by omega, by simpa using hi, by simpa using hj⟩
    | cons_cons _ h' =>
      obtain ⟨j, hj⟩ := List.getElem?_of_mem (List.singleton_sublist.1 h')
      exact ⟨0, j + 1, by omega, rfl, by simpa using hj⟩

namespace Func

theorem mem_predsOf {f : Func} {b c : BlockId} :
    c ∈ f.predsOf b ↔ ∃ data, f.block? c = some data ∧ b ∈ data.term.successors := by
  unfold predsOf
  rw [List.mem_map]
  constructor
  · rintro ⟨⟨d, data⟩, hmem, rfl⟩
    obtain ⟨hlive, hsucc⟩ := List.mem_filter.1 hmem
    exact ⟨data, mem_liveBlocks.1 hlive, by simpa using hsucc⟩
  · rintro ⟨data, hdata, hsucc⟩
    exact ⟨(c, data), List.mem_filter.2 ⟨mem_liveBlocks.2 hdata, by simpa using hsucc⟩, rfl⟩

theorem mem_predsOf_iff_edge {f : Func} {b c : BlockId} (hb : f.containsBlock b = true) :
    c ∈ f.predsOf b ↔ f.Edge c b := by
  rw [mem_predsOf]
  exact ⟨fun ⟨data, hd, hs⟩ => ⟨data, hd, hs, hb⟩, fun ⟨data, hd, hs, _⟩ => ⟨data, hd, hs⟩⟩

theorem mem_mentionedBlocks {f : Func} {b : BlockId} (hb : f.containsBlock b = true) :
    b ∈ f.mentionedBlocks := by
  obtain ⟨data, hdata⟩ := containsBlock_iff.1 hb
  unfold mentionedBlocks
  rw [mem_eraseReps, List.mem_mergeSort, List.mem_flatMap]
  exact ⟨(b, data), mem_liveBlocks.2 hdata, List.mem_cons_self⟩

theorem compute_of_no_entry {f : Func} (h : f.entry = none) :
    ∃ d, DomTree.compute f = .ok d ∧ d.entry = none := by
  refine ⟨⟨[], #[], f.predecessors.map fun e => (e.1, e.2.filter (· ∈ []))⟩, ?_, rfl⟩
  unfold DomTree.compute reversePostorder
  rw [h]
  rfl

end Func

namespace DomTree

/-- `a` is `b` or lies above it in the tree. -/
inductive Upward (d : DomTree) (a : BlockId) : BlockId → Prop
  | refl : Upward d a a
  | up {b p : BlockId} : d.idom b = some p → Upward d a p → Upward d a b

/-- The tree of a function with entry `e`. -/
structure Correct (f : Func) (e : BlockId) (d : DomTree) : Prop where
  entry : f.entry = some e
  ordered : f.Ordered e d.rpo
  mem_preds : ∀ b, f.containsBlock b = true → ∀ q, q ∈ d.preds b ↔ f.Reachable q ∧ f.Edge q b
  idom_entry : d.idom e = none
  idom_of_unreachable : ∀ b, ¬ f.Reachable b → d.idom b = none
  idom : ∀ b, f.Reachable b → b ≠ e → ∃ p, d.idom b = some p
  idom_lt : ∀ b p, d.idom b = some p → f.Reachable p ∧ d.rpo.idxOf p < d.rpo.idxOf b
  meet : ∀ b p, d.idom b = some p →
    ∀ a, d.Upward a p ↔ ∀ q, f.Reachable q → f.Edge q b → d.Upward a q

theorem preds_of_table {f : Func} {rpo : List BlockId} {b : BlockId}
    (hb : f.containsBlock b = true) (idoms : Array (Option Nat)) :
    preds ⟨rpo, idoms, f.predecessors.map fun e => (e.1, e.2.filter (· ∈ rpo))⟩ b =
      (f.predsOf b).filter (· ∈ rpo) := by
  have htable : (f.predecessors.map fun e => (e.1, e.2.filter (· ∈ rpo))) =
      f.mentionedBlocks.map fun c => (c, (f.predsOf c).filter (· ∈ rpo)) := by
    rw [Func.predecessors, List.map_map]
    rfl
  unfold preds
  rw [htable, find?_map_key _ (Func.mem_mentionedBlocks hb)]
  rfl

section

variable {f : Func} {e : BlockId} {rpo : List BlockId}

/-- The reachable predecessors of every listed block, by position. -/
def predPositions (f : Func) (rpo : List BlockId) : List (List Nat) :=
  rpo.map fun b => (f.predsOf b).filterMap rpo.idxOf?

theorem mem_predsAt (ho : f.Ordered e rpo) {k q : Nat} :
    q ∈ predsAt (predPositions f rpo) k ↔
      ∃ b c, rpo[k]? = some b ∧ rpo[q]? = some c ∧ f.Edge c b := by
  unfold predsAt predPositions
  rw [List.getElem?_map]
  cases hk : rpo[k]? with
  | none => simp
  | some b =>
    have hlive : f.containsBlock b = true :=
      ((ho.mem_iff b).1 (List.mem_of_getElem? hk)).live
    simp only [Option.map_some, Option.getD_some, List.mem_filterMap,
      idxOf?_eq_some_of_nodup ho.nodup, Func.mem_predsOf_iff_edge hlive]
    constructor
    · rintro ⟨c, hedge, hc⟩
      exact ⟨b, c, rfl, hc, hedge⟩
    · rintro ⟨b', c, hb', hc, hedge⟩
      cases hb'
      exact ⟨c, hedge, hc⟩

theorem flow (ho : f.Ordered e rpo) :
    Flow (predPositions f rpo).length (predsAt (predPositions f rpo)) where
  lt := by
    intro k _ q hq
    obtain ⟨b, c, _, hc, _⟩ := (mem_predsAt ho).1 hq
    rw [predPositions, List.length_map]
    exact (List.getElem?_eq_some_iff.1 hc).1
  forward := by
    intro k hpos hk
    rw [predPositions, List.length_map] at hk
    have hb : rpo[k]? = some rpo[k] := List.getElem?_eq_getElem hk
    rcases ho.parent rpo[k] (List.mem_of_getElem? hb) with heq | ⟨u, hedge, hsub⟩
    · -- only the first position holds the entry
      have hk0 : k = 0 := ho.index_eq (heq ▸ hb) ho.getElem?_zero
      omega
    · obtain ⟨i, j, hij, hi, hj⟩ := exists_lt_of_sublist hsub
      obtain rfl : j = k := ho.index_eq hj hb
      exact ⟨i, (mem_predsAt ho).2 ⟨_, u, hb, hi, hedge⟩, hij⟩

variable {idoms : Array (Option Nat)} {table : List (BlockId × List BlockId)}

theorem idom_eq_some (ho : f.Ordered e rpo) {b c : BlockId} :
    idom ⟨rpo, idoms, table⟩ b = some c ↔
      ∃ i p, rpo[i]? = some b ∧ 0 < i ∧ climbOf idoms i = some p ∧ rpo[p]? = some c := by
  unfold idom
  simp only [Option.bind_eq_bind, Option.bind_eq_some_iff, idxOf?_eq_some_of_nodup ho.nodup]
  constructor
  · rintro ⟨i, hi, hrest⟩
    split at hrest
    · cases hrest
    · obtain ⟨p, hp, hc⟩ := Option.bind_eq_some_iff.1 hrest
      exact ⟨i, p, hi, by omega, hp, hc⟩
  · rintro ⟨i, p, hi, hpos, hp, hc⟩
    refine ⟨i, hi, ?_⟩
    rw [if_neg (by omega)]
    exact Option.bind_eq_some_iff.2 ⟨p, hp, hc⟩

theorem upward_iff (ho : f.Ordered e rpo) (hr : Rooted (climbOf idoms) rpo.length) {x k : Nat}
    {a b : BlockId} (ha : rpo[x]? = some a) (hb : rpo[k]? = some b) :
    Upward ⟨rpo, idoms, table⟩ a b ↔ Above (climbOf idoms) x k := by
  constructor
  · intro h
    induction h generalizing k with
    | refl =>
      rw [ho.index_eq hb ha]
      exact .refl
    | up hstep _ ih =>
      obtain ⟨i, p, hi, _, hp, hc⟩ := (idom_eq_some ho).1 hstep
      obtain rfl : i = k := ho.index_eq hi hb
      exact .up hp (ih hc)
  · intro h
    induction h generalizing b with
    | refl =>
      rw [ha] at hb
      cases hb
      exact .refl
    | @up k p hstep habove ih =>
      obtain ⟨hk, _⟩ := List.getElem?_eq_some_iff.1 hb
      rcases Nat.eq_zero_or_pos k with rfl | hpos
      · rw [hr.root] at hstep
        cases hstep
        exact ih hb
      · have hple := hr.le hk hstep
        have hc : rpo[p]? = some rpo[p] := List.getElem?_eq_getElem (by omega)
        exact .up ((idom_eq_some ho).2 ⟨k, p, hb, hpos, hstep, hc⟩) (ih hc)

theorem upward_mem (ho : f.Ordered e rpo) {a b : BlockId} (hb : b ∈ rpo)
    (h : Upward ⟨rpo, idoms, table⟩ a b) : a ∈ rpo := by
  induction h with
  | refl => exact hb
  | up hstep _ ih =>
    obtain ⟨_, p, _, _, _, hc⟩ := (idom_eq_some ho).1 hstep
    exact ih (List.mem_of_getElem? hc)

theorem idxOf_of_getElem? (hnodup : rpo.Nodup) {i : Nat} {b : BlockId} (h : rpo[i]? = some b) :
    rpo.idxOf b = i := by
  obtain ⟨hi, rfl⟩ := List.getElem?_eq_some_iff.1 h
  exact List.Nodup.idxOf_getElem hnodup i hi

/-- What lies above the immediate dominator lies above all that lead to the block. -/
theorem upward_iff_preds (ho : f.Ordered e rpo)
    (hs : Settled (predPositions f rpo).length (predsAt (predPositions f rpo)) (climbOf idoms))
    {a b c : BlockId} (hc : idom ⟨rpo, idoms, table⟩ b = some c) :
    Upward ⟨rpo, idoms, table⟩ a c ↔
      ∀ q, f.Reachable q → f.Edge q b → Upward ⟨rpo, idoms, table⟩ a q := by
  have hlen : (predPositions f rpo).length = rpo.length := by
    rw [predPositions, List.length_map]
  have hr : Rooted (climbOf idoms) rpo.length := hlen ▸ hs.rooted
  obtain ⟨k, p, hk, hpos, hp, hcp⟩ := (idom_eq_some ho).1 hc
  have hkn := (List.getElem?_eq_some_iff.1 hk).1
  by_cases ha : a ∈ rpo
  · obtain ⟨x, hx⟩ := List.getElem?_of_mem ha
    rw [upward_iff ho hr hx hcp, hs.meet k p hpos (by omega) hp x]
    constructor
    · intro h q hq hedge
      obtain ⟨j, hj⟩ := List.getElem?_of_mem ((ho.mem_iff q).2 hq)
      exact (upward_iff ho hr hx hj).2 (h j ((mem_predsAt ho).2 ⟨b, q, hk, hj, hedge⟩))
    · intro h j hj
      obtain ⟨b', q, hb', hq, hedge⟩ := (mem_predsAt ho).1 hj
      rw [hk] at hb'
      cases hb'
      exact (upward_iff ho hr hx hq).1
        (h q ((ho.mem_iff q).1 (List.mem_of_getElem? hq)) hedge)
  · -- nothing outside the list lies above anything in it
    refine ⟨fun h => absurd (upward_mem ho (List.mem_of_getElem? hcp) h) ha, fun h => ?_⟩
    obtain ⟨j, hj, _⟩ := (flow ho).forward k hpos (by omega)
    obtain ⟨b', q, hb', hq, hedge⟩ := (mem_predsAt ho).1 hj
    rw [hk] at hb'
    cases hb'
    have hqmem := List.mem_of_getElem? hq
    exact absurd (upward_mem ho hqmem (h q ((ho.mem_iff q).1 hqmem) hedge)) ha

theorem correct_of_settled (he : f.entry = some e) (ho : f.Ordered e rpo)
    (hs : Settled (predPositions f rpo).length (predsAt (predPositions f rpo)) (climbOf idoms)) :
    Correct f e ⟨rpo, idoms, f.predecessors.map fun e => (e.1, e.2.filter (· ∈ rpo))⟩ := by
  have hlen : (predPositions f rpo).length = rpo.length := by
    rw [predPositions, List.length_map]
  have hr : Rooted (climbOf idoms) rpo.length := hlen ▸ hs.rooted
  constructor
  case entry => exact he
  case ordered => exact ho
  case mem_preds =>
    intro b hb q
    rw [preds_of_table hb, List.mem_filter, Func.mem_predsOf_iff_edge hb, decide_eq_true_eq,
      ho.mem_iff q, and_comm]
  case idom_entry =>
    rw [Option.eq_none_iff_forall_ne_some]
    intro c hc
    obtain ⟨i, p, hi, hpos, _, _⟩ := (idom_eq_some ho).1 hc
    have hi0 : i = 0 := ho.index_eq hi ho.getElem?_zero
    omega
  case idom_of_unreachable =>
    intro b hb
    rw [Option.eq_none_iff_forall_ne_some]
    intro c hc
    obtain ⟨i, p, hi, _, _, _⟩ := (idom_eq_some ho).1 hc
    exact hb ((ho.mem_iff b).1 (List.mem_of_getElem? hi))
  case idom =>
    intro b hb hbe
    obtain ⟨i, hi⟩ := List.getElem?_of_mem ((ho.mem_iff b).2 hb)
    have hpos : 0 < i := by
      rcases Nat.eq_zero_or_pos i with rfl | hpos
      · exact absurd (Option.some.inj (hi.symm.trans ho.getElem?_zero)) hbe
      · exact hpos
    obtain ⟨p, hp, hlt⟩ := hr.step i hpos (List.getElem?_eq_some_iff.1 hi).1
    have hpn : p < rpo.length := Nat.lt_trans hlt (List.getElem?_eq_some_iff.1 hi).1
    exact ⟨rpo[p], (idom_eq_some ho).2 ⟨i, p, hi, hpos, hp, List.getElem?_eq_getElem hpn⟩⟩
  case idom_lt =>
    intro b c hc
    obtain ⟨i, p, hi, hpos, hp, hcp⟩ := (idom_eq_some ho).1 hc
    refine ⟨(ho.mem_iff c).1 (List.mem_of_getElem? hcp), ?_⟩
    simp only
    rw [idxOf_of_getElem? ho.nodup hi, idxOf_of_getElem? ho.nodup hcp]
    obtain ⟨p', hp', hlt⟩ := hr.step i hpos (List.getElem?_eq_some_iff.1 hi).1
    rw [hp] at hp'
    cases hp'
    exact hlt
  case meet => exact fun b c hc a => upward_iff_preds ho hs hc

/-- Dominance by position. -/
theorem transmitted_dominates (he : f.entry = some e) (hlive : f.containsBlock e = true)
    (ho : f.Ordered e rpo) :
    Transmitted (predPositions f rpo).length (predsAt (predPositions f rpo)) fun x k =>
      ∃ a b, rpo[x]? = some a ∧ rpo[k]? = some b ∧ f.Dominates a b where
  root := by
    rintro x ⟨a, b, ha, hb, hab⟩
    obtain rfl : b = e := Option.some.inj (hb.symm.trans ho.getElem?_zero)
    obtain rfl : a = b := List.mem_singleton.1 (hab [b] (.entry he hlive))
    exact ho.index_eq ha hb
  preds := by
    rintro x k q _ ⟨a, b, ha, hb, hab⟩ hne hq
    obtain ⟨b', c, hb', hc, hedge⟩ := (mem_predsAt ho).1 hq
    rw [hb] at hb'
    cases hb'
    refine ⟨a, c, ha, hc, Func.StrictlyDominates.of_edge ⟨?_, hab⟩ hedge⟩
    rintro rfl
    exact hne (ho.index_eq ha hb)

/-- The tree of a function with a live entry is found, with all dominators of a block above it. -/
theorem compute_dominators (he : f.entry = some e) (hlive : f.containsBlock e = true) :
    ∃ d, compute f = .ok d ∧ d.Correct f e ∧
      ∀ a b, f.Reachable b → f.Dominates a b → d.Upward a b := by
  obtain ⟨rpo, hrpo, ho⟩ := Func.reversePostorder_ordered he hlive
  have hlen : (predPositions f rpo).length = rpo.length := by
    rw [predPositions, List.length_map]
  have hpos : 0 < (predPositions f rpo).length := by
    rw [hlen]
    exact List.length_pos_of_mem ((ho.mem_iff e).2 (.entry he hlive))
  obtain ⟨idoms, hsettle, hs, habove⟩ :=
    settle_unplaced (flow ho) hpos (transmitted_dominates he hlive ho)
  rw [hlen] at hsettle
  refine ⟨_, ?_, correct_of_settled he ho hs, ?_⟩
  · unfold compute
    rw [hrpo]
    simp only [bind, Except.bind]
    rw [show settle (rpo.map fun b => (f.predsOf b).filterMap rpo.idxOf?)
      (rpo.length * rpo.length + 2) ((Array.replicate rpo.length none).setIfInBounds 0 (some 0)) =
      .ok idoms from hsettle]
    rfl
  · intro a b hb hab
    obtain ⟨x, hx⟩ := List.getElem?_of_mem ((ho.mem_iff a).2 (hab.reachable hb))
    obtain ⟨k, hk⟩ := List.getElem?_of_mem ((ho.mem_iff b).2 hb)
    have hkn := (List.getElem?_eq_some_iff.1 hk).1
    exact (upward_iff ho (hlen ▸ hs.rooted) hx hk).2
      (habove x k (by omega) ⟨a, b, hx, hk, hab⟩)

/-- The tree of a function with a live entry is found. -/
theorem compute_correct (he : f.entry = some e) (hlive : f.containsBlock e = true) :
    ∃ d, compute f = .ok d ∧ d.Correct f e := by
  obtain ⟨d, hd, hcorrect, _⟩ := compute_dominators he hlive
  exact ⟨d, hd, hcorrect⟩

end

/-! ### What lies above a block -/

namespace Correct

variable {f : Func} {e : BlockId} {d : DomTree} {a b c p q : BlockId}

theorem reachable_of_idom (h : d.Correct f e) (hp : d.idom b = some p) : f.Reachable b := by
  by_contra hb
  rw [h.idom_of_unreachable b hb] at hp
  cases hp

theorem ne_entry (h : d.Correct f e) (hp : d.idom b = some p) : b ≠ e := by
  rintro rfl
  rw [h.idom_entry] at hp
  cases hp

theorem upward_of_edge (h : d.Correct f e) (hp : d.idom b = some p) (hq : f.Reachable q)
    (hedge : f.Edge q b) : d.Upward p q :=
  (h.meet b p hp p).1 .refl q hq hedge

theorem mem_of_upward (h : d.Correct f e) {path : List BlockId} (hp : f.Path path b)
    (hab : d.Upward a b) : a ∈ path := by
  induction hp generalizing a with
  | entry he' _ =>
    rw [h.entry] at he'
    cases he'
    cases hab with
    | refl => exact List.mem_singleton_self _
    | up hstep _ => exact absurd rfl (h.ne_entry hstep)
  | step hq hedge ih =>
    cases hab with
    | refl => exact List.mem_cons_self
    | up hstep ha =>
      refine List.mem_cons_of_mem _ (ih ?_)
      exact (h.meet _ _ hstep a).1 ha _ ⟨_, hq⟩ hedge

theorem dominates_of_upward (h : d.Correct f e) (hab : d.Upward a b) : f.Dominates a b :=
  fun _ hp => h.mem_of_upward hp hab

theorem upward_of_mem_ancestors (n : Nat) (h : a ∈ d.ancestors n b) : d.Upward a b := by
  induction n generalizing b with
  | zero =>
    rw [List.mem_singleton.1 h]
    exact .refl
  | succ n ih =>
    rcases List.mem_cons.1 h with rfl | h
    · exact .refl
    · cases hp : d.idom b with
      | none =>
        rw [hp] at h
        cases h
      | some p =>
        rw [hp] at h
        exact .up hp (ih h)

theorem dominates_of_eq_true (h : d.Correct f e) (hab : d.dominates a b = true) :
    f.Dominates a b := by
  simp only [DomTree.dominates, Bool.and_eq_true, List.contains_iff_mem] at hab
  exact h.dominates_of_upward (upward_of_mem_ancestors _ hab.2)

theorem idom_strictly (h : d.Correct f e) (hp : d.idom b = some p) : f.StrictlyDominates p b := by
  refine ⟨?_, h.dominates_of_upward (.up hp .refl)⟩
  rintro rfl
  exact Nat.lt_irrefl _ (h.idom_lt p p hp).2

theorem exists_path_le (h : d.Correct f e) (hb : f.Reachable b) :
    ∃ path, f.Path path b ∧ ∀ c ∈ path, d.rpo.idxOf c ≤ d.rpo.idxOf b := by
  induction hn : d.rpo.idxOf b using Nat.strongRecOn generalizing b with
  | ind n ih =>
    subst hn
    rcases h.ordered.parent b ((h.ordered.mem_iff b).2 hb) with rfl | ⟨u, hedge, hsub⟩
    · refine ⟨[b], .entry h.entry hb.live, ?_⟩
      intro c hc
      have hcb : c = b := List.mem_singleton.1 hc
      exact Nat.le_of_eq (congrArg d.rpo.idxOf hcb)
    · obtain ⟨i, j, hij, hi, hj⟩ := exists_lt_of_sublist hsub
      have hui := idxOf_of_getElem? h.ordered.nodup hi
      have hbj := idxOf_of_getElem? h.ordered.nodup hj
      have hu : f.Reachable u := (h.ordered.mem_iff u).1 (List.mem_of_getElem? hi)
      obtain ⟨path, hpath, hle⟩ := ih (d.rpo.idxOf u) (by omega) hu rfl
      refine ⟨b :: path, hpath.step hedge, fun c hc => ?_⟩
      rcases List.mem_cons.1 hc with rfl | hc
      · exact Nat.le_refl _
      · have hcu := hle c hc
        omega

theorem idxOf_lt (h : d.Correct f e) (hb : f.Reachable b) (hab : f.StrictlyDominates a b) :
    d.rpo.idxOf a < d.rpo.idxOf b := by
  obtain ⟨path, hpath, hle⟩ := h.exists_path_le hb
  refine Nat.lt_of_le_of_ne (hle a (hab.2 path hpath)) fun heq => hab.1 ?_
  exact (List.idxOf_inj ((h.ordered.mem_iff a).2 (hab.2.reachable hb))).1 heq

end Correct

end DomTree

end BinaryLift
