import BinaryLift.Proofs.Transform.SlotPhis

/-!
# Current values of slots

What a promotion takes for the value of a slot at every place of a function. The value comes from
the entry, from a phi of a dominating block or from a store on every way to the place, so it is
there when it is needed.
-/

namespace BinaryLift

open Func

/-- Slots to promote, the dominator tree to walk and the phis that were placed. -/
structure Promotion (f : Func) where
  entry : BlockId
  dom : DomTree
  slots : List (InstId × Ty)
  front : InstId → List BlockId
  placed : Func
  phis : SlotPhis

namespace Promotion

variable {f : Func}

structure Sound (P : Promotion f) : Prop where
  wellFormed : f.WellFormed
  correct : P.dom.Correct f P.entry
  fresh_entry : ∀ q, f.Reachable q → ¬ f.Edge q P.entry
  slot : ∀ (n : Nat) s ty, P.slots[n]? = some (s, ty) → f.IsSlot s ty
  alloca : ∀ (n : Nat) s ty, P.slots[n]? = some (s, ty) →
    ∃ size o, f.inst? s = some ⟨.alloca size, o⟩
  nodup : (P.slots.map (·.1)).Nodup
  closed : ∀ s, ∀ x ∈ P.dom.rpo, x ∈ f.storeBlocks s ∨ x ∈ P.front s →
    P.dom.frontier x ⊆ P.front s
  joins : ∀ s, ∀ b ∈ P.front s, (P.dom.idom b).isSome
  placed : Placed f P.slots (fun n b => ∃ x, P.slots[n]? = some x ∧ b ∈ P.front x.1) P.placed P.phis

/-- Follow the stores of one instruction. -/
def track (P : Promotion f) (cur : List Value) (id : InstId) : List Value :=
  match f.inst? id with
  | some ⟨.store p v, _⟩ =>
    match slotNumber? P.slots p with
    | some n => cur.set n v
    | none => cur
  | _ => cur

def scan (P : Promotion f) (cur : List Value) (ids : List InstId) : List Value :=
  ids.foldl P.track cur

/-- The phis of a block are the new values. -/
def entered (P : Promotion f) (b : BlockId) (cur : List Value) : List Value :=
  (P.phis.ofBlock b).foldl (fun cur p => cur.set p.1 (.inst p.2)) cur

def leave (P : Promotion f) (b : BlockId) (cur : List Value) : List Value :=
  P.scan (P.entered b cur) (f.instsOf b)

def start (P : Promotion f) : List Value := P.slots.map fun s => Value.int 0 s.2

def headFrom (P : Promotion f) : Nat → BlockId → List Value
  | 0, _ => P.start
  | n + 1, b =>
    match P.dom.idom b with
    | none => P.start
    | some p => P.leave p (headFrom P n p)

/-- The values before the phis of a block. -/
def head (P : Promotion f) (b : BlockId) : List Value := P.headFrom P.dom.rpo.length b

/-- The values in a block behind some of its instructions. -/
def current (P : Promotion f) (b : BlockId) (pre : List InstId) : List Value :=
  P.scan (P.entered b (P.head b)) pre

def out (P : Promotion f) (b : BlockId) : List Value := P.current b (f.instsOf b)

variable {P : Promotion f}

/-! ### Numbers of slots -/

theorem Sound.slotNumber?_iff (h : P.Sound) {p : Value} {n : Nat} :
    slotNumber? P.slots p = some n ↔ ∃ s ty, p = .inst s ∧ P.slots[n]? = some (s, ty) := by
  cases p with
  | const c => simp [slotNumber?]
  | arg k => simp [slotNumber?]
  | inst s =>
    have hmem : ∀ x : (InstId × Ty) × Nat,
        x ∈ P.slots.zipIdx.reverse ↔ P.slots[x.2]? = some x.1 := by
      intro x
      rw [List.mem_reverse]
      exact List.mem_zipIdx_iff_getElem?
    unfold slotNumber?
    rw [Option.map_eq_some_iff]
    constructor
    · rintro ⟨⟨⟨s', ty⟩, k⟩, hfind, rfl⟩
      have hs' : s' = s := by simpa using List.find?_some hfind
      subst hs'
      exact ⟨s', ty, rfl, (hmem _).1 (List.mem_of_find?_eq_some hfind)⟩
    · rintro ⟨s', ty, heq, hget⟩
      cases heq
      cases hfind : P.slots.zipIdx.reverse.find? (·.1.1 = s) with
      | none =>
        have hnot := List.find?_eq_none.1 hfind ((s, ty), n) ((hmem _).2 hget)
        simp at hnot
      | some x =>
        refine ⟨x, rfl, ?_⟩
        have hx := (hmem x).1 (List.mem_of_find?_eq_some hfind)
        have hxs : x.1.1 = s := by simpa using List.find?_some hfind
        have hfirst : (P.slots.map (·.1))[x.2]? = (P.slots.map (·.1))[n]? := by
          rw [List.getElem?_map, List.getElem?_map, hx, hget, Option.map_some, hxs]
          rfl
        have hlt : x.2 < (P.slots.map (·.1)).length := by
          rw [List.length_map]
          exact (List.getElem?_eq_some_iff.1 hx).1
        exact (List.getElem?_inj hlt h.nodup).1 hfirst

theorem Sound.slotNumber?_inst (h : P.Sound) {n : Nat} {s : InstId} {ty : Ty}
    (hs : P.slots[n]? = some (s, ty)) : slotNumber? P.slots (.inst s) = some n :=
  h.slotNumber?_iff.2 ⟨s, ty, rfl, hs⟩

theorem Sound.slot_inj (h : P.Sound) {n m : Nat} {s : InstId} {ty ty' : Ty}
    (hn : P.slots[n]? = some (s, ty)) (hm : P.slots[m]? = some (s, ty')) : n = m := by
  have heq := h.slotNumber?_inst hn
  rw [h.slotNumber?_inst hm] at heq
  exact (Option.some.inj heq).symm

theorem track_eq_self {cur : List Value} {id : InstId}
    (h : ∀ p v o, f.inst? id = some ⟨.store p v, o⟩ → slotNumber? P.slots p = none) :
    P.track cur id = cur := by
  unfold track
  split
  · rename_i p v o hi
    rw [h p v o hi]
  · rfl

theorem track_store {cur : List Value} {id : InstId} {p v : Value} {o : Option Ty} {n : Nat}
    (hi : f.inst? id = some ⟨.store p v, o⟩) (hp : slotNumber? P.slots p = some n) :
    P.track cur id = cur.set n v := by
  simp only [track, hi, hp]

theorem track_phi {cur : List Value} {id : InstId} (h : f.isPhi id = true) :
    P.track cur id = cur := by
  refine track_eq_self fun p v o hi => ?_
  rw [isPhi, hi] at h
  cases h

theorem scan_append (cur : List Value) (l r : List InstId) :
    P.scan cur (l ++ r) = P.scan (P.scan cur l) r := List.foldl_append

theorem current_snoc (b : BlockId) (pre : List InstId) (id : InstId) :
    P.current b (pre ++ [id]) = P.track (P.current b pre) id := by
  rw [current, scan_append]
  rfl

theorem scan_phis {cur : List Value} {ids : List InstId} (h : ∀ id ∈ ids, f.isPhi id = true) :
    P.scan cur ids = cur := by
  induction ids with
  | nil => rfl
  | cons id ids ih =>
    unfold scan
    rw [List.foldl_cons, track_phi (h id List.mem_cons_self)]
    exact ih fun id hid => h id (List.mem_cons_of_mem _ hid)

/-! ### Lengths and lookups -/

theorem length_track (cur : List Value) (id : InstId) : (P.track cur id).length = cur.length := by
  unfold track
  split
  · split
    · exact List.length_set
    · rfl
  · rfl

theorem length_scan (cur : List Value) (ids : List InstId) :
    (P.scan cur ids).length = cur.length := by
  induction ids generalizing cur with
  | nil => rfl
  | cons id ids ih => exact (ih (P.track cur id)).trans (length_track cur id)

theorem length_foldl_set (l : List (Nat × InstId)) (cur : List Value) :
    (l.foldl (fun cur p => cur.set p.1 (.inst p.2)) cur).length = cur.length := by
  induction l generalizing cur with
  | nil => rfl
  | cons x l ih => exact (ih _).trans List.length_set

theorem length_headFrom (n : Nat) (b : BlockId) : (P.headFrom n b).length = P.slots.length := by
  induction n generalizing b with
  | zero => exact List.length_map _
  | succ n ih =>
    unfold headFrom
    split
    · exact List.length_map _
    · rename_i p _
      rw [leave, length_scan, entered, length_foldl_set]
      exact ih p

theorem length_entered_head (b : BlockId) : (P.entered b (P.head b)).length = P.slots.length :=
  (length_foldl_set _ _).trans (length_headFrom _ b)

theorem length_current (b : BlockId) (pre : List InstId) :
    (P.current b pre).length = P.slots.length :=
  (length_scan _ _).trans (length_entered_head b)

theorem valueOf_set {cur : List Value} {n m : Nat} {v : Value} (hn : n < cur.length) :
    valueOf (cur.set n v) m = if n = m then v else valueOf cur m := by
  rw [valueOf, List.getElem?_set]
  split
  · rfl
  · rfl

theorem valueOf_foldl_set_of_not_mem {l : List (Nat × InstId)} {n : Nat} (hn : n ∉ l.map (·.1))
    (cur : List Value) :
    valueOf (l.foldl (fun cur p => cur.set p.1 (.inst p.2)) cur) n = valueOf cur n := by
  induction l generalizing cur with
  | nil => rfl
  | cons x l ih =>
    rw [List.map_cons, List.mem_cons, not_or] at hn
    refine (ih hn.2 (cur.set x.1 (.inst x.2))).trans ?_
    rw [valueOf, valueOf, List.getElem?_set_ne (Ne.symm hn.1)]

theorem valueOf_foldl_set {l : List (Nat × InstId)} (hnodup : (l.map (·.1)).Nodup) {n : Nat}
    {p : InstId} (hp : (n, p) ∈ l) {cur : List Value} (hn : n < cur.length) :
    valueOf (l.foldl (fun cur p => cur.set p.1 (.inst p.2)) cur) n = .inst p := by
  induction l generalizing cur with
  | nil => cases hp
  | cons x l ih =>
    rw [List.map_cons, List.nodup_cons] at hnodup
    rcases List.mem_cons.1 hp with rfl | hp
    · refine (valueOf_foldl_set_of_not_mem hnodup.1 _).trans ?_
      rw [valueOf_set hn, if_pos rfl]
    · refine ih hnodup.2 hp ?_
      rwa [List.length_set]

theorem Sound.valueOf_entered (h : P.Sound) {b : BlockId} {n : Nat} {p : InstId}
    (hp : (n, p) ∈ P.phis.ofBlock b) : valueOf (P.entered b (P.head b)) n = .inst p := by
  refine valueOf_foldl_set (h.placed.numbers b) hp ?_
  obtain ⟨_, s, ty, hslot, _⟩ := h.placed.new b n p hp
  rw [head, length_headFrom]
  exact (List.getElem?_eq_some_iff.1 hslot).1

theorem valueOf_entered_of_not {b : BlockId} {n : Nat} (hn : ∀ p, (n, p) ∉ P.phis.ofBlock b) :
    valueOf (P.entered b (P.head b)) n = valueOf (P.head b) n := by
  refine valueOf_foldl_set_of_not_mem ?_ _
  intro hmem
  obtain ⟨⟨m, p⟩, hp, rfl⟩ := List.mem_map.1 hmem
  exact hn p hp

/-! ### The tree -/

theorem headFrom_eq (h : P.Sound) {n m : Nat} {b : BlockId} (hn : P.dom.rpo.idxOf b < n)
    (hm : P.dom.rpo.idxOf b < m) : P.headFrom n b = P.headFrom m b := by
  induction n generalizing m b with
  | zero => omega
  | succ n ih =>
    obtain ⟨m, rfl⟩ : ∃ k, m = k + 1 := ⟨m - 1, by omega⟩
    unfold headFrom
    cases hp : P.dom.idom b with
    | none => rfl
    | some p =>
      have hlt := (h.correct.idom_lt b p hp).2
      simp only
      rw [ih (by omega) (m := m) (by omega)]

theorem Sound.head_of_idom (h : P.Sound) {b p : BlockId} (hp : P.dom.idom b = some p) :
    P.head b = P.out p := by
  have hb : P.dom.rpo.idxOf b < P.dom.rpo.length :=
    List.idxOf_lt_length_of_mem ((h.correct.ordered.mem_iff b).2 (h.correct.reachable_of_idom hp))
  have hlt := (h.correct.idom_lt b p hp).2
  have hstep : P.headFrom (P.dom.rpo.length + 1) b = P.out p := by
    unfold headFrom
    rw [hp]
    rfl
  rw [← hstep]
  exact headFrom_eq h hb (by omega)

theorem Sound.head_entry (h : P.Sound) : P.head P.entry = P.start := by
  unfold head
  cases P.dom.rpo.length with
  | zero => rfl
  | succ n =>
    unfold headFrom
    rw [h.correct.idom_entry]

end Promotion

end BinaryLift
