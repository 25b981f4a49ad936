import BinaryLift.Proofs.Target.ValueSets
import Mathlib

/-!
# Value sets as sets with a cut-off

A set that is made by the operations is unknown or has one form: its members in strictly ascending
order, at most `maxSize` of them. Each operation gives exactly the union or the image, unless an
operand is unknown, the operation has no result for some member, or there are too many results. Only
the final number of members decides, however the operation comes to it, so the union does not depend
on order and grouping.
-/

namespace BinaryLift

theorem nodup_of_ascending {vs : List Word} (h : vs.Pairwise (· < ·)) : vs.Nodup :=
  h.imp BitVec.ne_of_lt

/-- A strictly ascending list is known by its members. -/
theorem eq_of_ascending {us vs : List Word} (hus : us.Pairwise (· < ·)) (hvs : vs.Pairwise (· < ·))
    (h : us.toFinset = vs.toFinset) : us = vs := by
  have hperm : us.Perm vs := by
    rw [List.perm_ext_iff_of_nodup (nodup_of_ascending hus) (nodup_of_ascending hvs)]
    intro x
    rw [← List.mem_toFinset, h, List.mem_toFinset]
  exact hperm.eq_of_pairwise (fun _ _ _ _ hlt hgt => absurd hgt (BitVec.lt_asymm hlt)) hus hvs

theorem pairwise_mergeAsc {us vs : List Word} (hus : us.Pairwise (· < ·))
    (hvs : vs.Pairwise (· < ·)) : (mergeAsc us vs).Pairwise (· < ·) := by
  fun_induction mergeAsc us vs with
  | case1 ys => exact hvs
  | case2 x xs => exact hus
  | case3 x xs y ys hlt ih =>
    obtain ⟨hx, hxs⟩ := List.pairwise_cons.1 hus
    refine List.pairwise_cons.2 ⟨fun z hz => ?_, ih hxs hvs⟩
    rcases (mem_mergeAsc z xs (y :: ys)).1 hz with hz | hz
    · exact hx z hz
    · rcases List.mem_cons.1 hz with rfl | hz
      · exact hlt
      · exact BitVec.lt_trans hlt ((List.pairwise_cons.1 hvs).1 z hz)
  | case4 x xs y ys _ hlt ih =>
    obtain ⟨hy, hys⟩ := List.pairwise_cons.1 hvs
    refine List.pairwise_cons.2 ⟨fun z hz => ?_, ih hus hys⟩
    rcases (mem_mergeAsc z (x :: xs) ys).1 hz with hz | hz
    · rcases List.mem_cons.1 hz with rfl | hz
      · exact hlt
      · exact BitVec.lt_trans hlt ((List.pairwise_cons.1 hus).1 z hz)
    · exact hy z hz
  | case5 x xs y ys hge hle ih =>
    obtain rfl : x = y := BitVec.le_antisymm (BitVec.not_lt.1 hle) (BitVec.not_lt.1 hge)
    obtain ⟨hx, hxs⟩ := List.pairwise_cons.1 hus
    obtain ⟨hy, hys⟩ := List.pairwise_cons.1 hvs
    refine List.pairwise_cons.2 ⟨fun z hz => ?_, ih hxs hys⟩
    exact ((mem_mergeAsc z xs ys).1 hz).elim (hx z) (hy z)

namespace ValueSet

/-! ### Form and members -/

/-- Unknown, or the members in strictly ascending order and not too many. -/
def IsNormal : ValueSet → Prop
  | unknown => True
  | known vs => vs.Pairwise (· < ·) ∧ vs.length ≤ maxSize

/-- The members of a known set. -/
def elems : ValueSet → Finset Word
  | unknown => ∅
  | known vs => vs.toFinset

/-- The set is unknown exactly if `fails` or `S` has more than `maxSize` members, and otherwise it
is `S`. -/
structure CutOff (fails : Prop) (S : Finset Word) (r : ValueSet) : Prop where
  unknown_iff : r = unknown ↔ fails ∨ maxSize < S.card
  elems_eq : r ≠ unknown → r.elems = S

variable {r r' s t u : ValueSet} {fails fails' : Prop} {S T : Finset Word}

theorem known_ne_unknown (vs : List Word) : known vs ≠ unknown := fun h => by cases h

theorem eq_of_elems_eq (hs : s.IsNormal) (ht : t.IsNormal) (hiff : s = unknown ↔ t = unknown)
    (h : s.elems = t.elems) : s = t := by
  cases s with
  | unknown => exact (hiff.1 rfl).symm
  | known us =>
    cases t with
    | unknown => exact hiff.2 rfl
    | known vs => exact congrArg known (eq_of_ascending hs.1 ht.1 h)

/-- Cut off in the same way, the same members make the same set. -/
theorem CutOff.unique (hr : CutOff fails S r) (hr' : CutOff fails' S r') (hn : r.IsNormal)
    (hn' : r'.IsNormal) (hiff : fails ↔ fails') : r = r' := by
  have hunknown : r = unknown ↔ r' = unknown := by
    rw [hr.unknown_iff, hr'.unknown_iff, hiff]
  refine eq_of_elems_eq hn hn' hunknown ?_
  by_cases h : r = unknown
  · rw [h, hunknown.1 h]
  · rw [hr.elems_eq h, hr'.elems_eq fun h' => h (hunknown.2 h')]

/-- A known result of normal form never holds too many members. -/
theorem cutOff_of_known (hn : r.IsNormal)
    (hknown : ∀ vs, r = known vs → ¬ fails ∧ ∀ x, x ∈ vs ↔ x ∈ S)
    (hunknown : r = unknown → fails ∨ maxSize < S.card) : CutOff fails S r := by
  cases r with
  | unknown => exact ⟨iff_of_true rfl (hunknown rfl), fun h => absurd rfl h⟩
  | known vs =>
    obtain ⟨hfails, hmem⟩ := hknown vs rfl
    have hS : vs.toFinset = S := by
      ext x
      rw [List.mem_toFinset, hmem x]
    have hcard : S.card ≤ maxSize := by
      rw [← hS, List.toFinset_card_of_nodup (nodup_of_ascending hn.1)]
      exact hn.2
    refine ⟨iff_of_false (known_ne_unknown vs) ?_, fun _ => hS⟩
    rintro (h | h)
    · exact hfails h
    · exact absurd hcard (Nat.not_le_of_lt h)

/-! ### Adding results one after another -/

theorem isNormal_bounded {vs : List Word} (h : vs.Pairwise (· < ·)) : (bounded vs).IsNormal := by
  unfold bounded
  split
  · rename_i hlen
    exact ⟨h, hlen⟩
  · trivial

theorem bounded_eq_unknown {vs : List Word} (h : bounded vs = unknown) : maxSize < vs.length := by
  unfold bounded at h
  split at h
  · cases h
  · rename_i hlen
    exact Nat.lt_of_not_le hlen

theorem isNormal_add (hs : s.IsNormal) (w : Word) : (s.add w).IsNormal := by
  cases s with
  | unknown => trivial
  | known vs =>
    simp only [add]
    split
    · exact hs
    · exact isNormal_bounded (pairwise_insertAsc hs.1)

theorem add_eq_unknown (hs : s.IsNormal) {w : Word} (h : s.add w = unknown) :
    s = unknown ∨ maxSize < (insert w s.elems).card := by
  cases s with
  | unknown => exact .inl rfl
  | known vs =>
    refine .inr ?_
    simp only [add] at h
    split at h
    · cases h
    · have hlen := bounded_eq_unknown h
      have hmembers : (insertAsc w vs).toFinset = insert w vs.toFinset := by
        ext x
        simp only [List.mem_toFinset, Finset.mem_insert, mem_insertAsc]
      rw [elems, ← hmembers,
        List.toFinset_card_of_nodup (nodup_of_ascending (pairwise_insertAsc hs.1))]
      exact hlen

theorem isNormal_addResult (hs : s.IsNormal) (o : Option Word) : (s.addResult o).IsNormal := by
  cases o with
  | none => trivial
  | some w => exact isNormal_add hs w

theorem isNormal_foldl_addResult (hs : s.IsNormal) (os : List (Option Word)) :
    (os.foldl addResult s).IsNormal := by
  induction os generalizing s with
  | nil => exact hs
  | cons o os ih => exact ih (isNormal_addResult hs o)

theorem isNormal_empty : empty.IsNormal := ⟨List.Pairwise.nil, Nat.zero_le _⟩

theorem foldl_addResult_eq_unknown (hs : s.IsNormal) {os : List (Option Word)}
    (h : os.foldl addResult s = unknown) :
    s = unknown ∨ none ∈ os ∨ maxSize < (s.elems ∪ os.toFinset.eraseNone).card := by
  induction os generalizing s with
  | nil => exact .inl h
  | cons o os ih =>
    cases o with
    | none => exact .inr (.inl List.mem_cons_self)
    | some w =>
      -- what is too many before the other results are added stays too many
      have hsub : insert w s.elems ⊆ s.elems ∪ (some w :: os).toFinset.eraseNone := by
        intro x hx
        rw [Finset.mem_union, Finset.mem_eraseNone, List.mem_toFinset]
        rcases Finset.mem_insert.1 hx with rfl | hx
        · exact .inr List.mem_cons_self
        · exact .inl hx
      rcases ih (isNormal_addResult hs (some w)) h with hadd | hnone | hcard
      · rcases add_eq_unknown hs hadd with hs | hlt
        · exact .inl hs
        · exact .inr (.inr (Nat.lt_of_lt_of_le hlt (Finset.card_le_card hsub)))
      · exact .inr (.inl (List.mem_cons_of_mem _ hnone))
      · by_cases hadd : s.add w = unknown
        · rcases add_eq_unknown hs hadd with hs | hlt
          · exact .inl hs
          · exact .inr (.inr (Nat.lt_of_lt_of_le hlt (Finset.card_le_card hsub)))
        · refine .inr (.inr (Nat.lt_of_lt_of_le hcard (Finset.card_le_card ?_)))
          obtain ⟨vs, hvs⟩ : ∃ vs, s.add w = known vs := by
            cases hres : s.add w with
            | unknown => exact absurd hres hadd
            | known vs => exact ⟨vs, rfl⟩
          obtain ⟨us, rfl, hmem⟩ := add_eq_known hvs
          intro x hx
          rw [addResult, hvs, Finset.mem_union, elems, List.mem_toFinset, hmem] at hx
          rcases hx with (hx | rfl) | hx
          · exact hsub (Finset.mem_insert_of_mem (List.mem_toFinset.2 hx))
          · exact hsub (Finset.mem_insert_self _ _)
          · rw [Finset.mem_eraseNone, List.mem_toFinset] at hx
            rw [Finset.mem_union, Finset.mem_eraseNone, List.mem_toFinset]
            exact .inr (List.mem_cons_of_mem _ hx)

/-- A list of results gives the set of all of them. -/
theorem cutOff_foldl_addResult (os : List (Option Word)) :
    CutOff (none ∈ os) os.toFinset.eraseNone (os.foldl addResult empty) := by
  refine cutOff_of_known (isNormal_foldl_addResult isNormal_empty os) ?_ ?_
  · intro vs hvs
    obtain ⟨us, hus, hall, hmem⟩ := foldl_addResult_eq_known hvs
    cases hus
    refine ⟨fun hnone => Bool.noConfusion (hall none hnone), fun x => ?_⟩
    rw [hmem x, Finset.mem_eraseNone, List.mem_toFinset]
    exact or_iff_right List.not_mem_nil
  · intro hunknown
    rcases foldl_addResult_eq_unknown isNormal_empty hunknown with h | h | h
    · cases h
    · exact .inl h
    · rw [show empty.elems = ∅ from rfl, Finset.empty_union] at h
      exact .inr h

/-! ### The operations -/

theorem ofList_eq (ws : List Word) : ofList ws = (ws.map some).foldl addResult empty := by
  rw [ofList, List.foldl_map]
  rfl

theorem isNormal_ofList (ws : List Word) : (ofList ws).IsNormal := by
  rw [ofList_eq]
  exact isNormal_foldl_addResult isNormal_empty _

theorem cutOff_ofList (ws : List Word) : CutOff False ws.toFinset (ofList ws) := by
  have h := cutOff_foldl_addResult (ws.map some)
  have hmembers : (ws.map some).toFinset.eraseNone = ws.toFinset := by
    ext x
    simp
  have hnone : (none ∈ ws.map some) ↔ False := by simp
  rwa [← ofList_eq, hmembers, hnone] at h

theorem isNormal_merge (hs : s.IsNormal) (ht : t.IsNormal) : (s.merge t).IsNormal := by
  cases s with
  | unknown => trivial
  | known us =>
    cases t with
    | unknown => trivial
    | known vs => exact isNormal_bounded (pairwise_mergeAsc hs.1 ht.1)

theorem cutOff_merge (hs : s.IsNormal) (ht : t.IsNormal) :
    CutOff (s = unknown ∨ t = unknown) (s.elems ∪ t.elems) (s.merge t) := by
  refine cutOff_of_known (isNormal_merge hs ht) ?_ ?_
  · intro vs hvs
    obtain ⟨us, ws, rfl, rfl, hmem⟩ := merge_eq_known hvs
    refine ⟨not_or.2 ⟨known_ne_unknown us, known_ne_unknown ws⟩, fun x => ?_⟩
    rw [hmem x, Finset.mem_union, elems, elems, List.mem_toFinset, List.mem_toFinset]
  · intro hunknown
    cases s with
    | unknown => exact .inl (.inl rfl)
    | known us =>
      cases t with
      | unknown => exact .inl (.inr rfl)
      | known ws =>
        refine .inr ?_
        have hmembers : (mergeAsc us ws).toFinset = us.toFinset ∪ ws.toFinset := by
          ext x
          rw [List.mem_toFinset, mem_mergeAsc, Finset.mem_union, List.mem_toFinset, List.mem_toFinset]
        rw [elems, elems, ← hmembers,
          List.toFinset_card_of_nodup (nodup_of_ascending (pairwise_mergeAsc hs.1 ht.1))]
        exact bounded_eq_unknown hunknown

theorem map_known (us : List Word) (g : Word → Option Word) :
    (known us).map g = (us.map g).foldl addResult empty := by
  rw [List.foldl_map]
  rfl

theorem isNormal_map (s : ValueSet) (g : Word → Option Word) : (s.map g).IsNormal := by
  cases s with
  | unknown => trivial
  | known us =>
    rw [map_known]
    exact isNormal_foldl_addResult isNormal_empty _

theorem cutOff_map (s : ValueSet) (g : Word → Option Word) :
    CutOff (s = unknown ∨ ∃ x ∈ s.elems, g x = none) (s.elems.image g).eraseNone (s.map g) := by
  cases s with
  | unknown => exact ⟨iff_of_true rfl (.inl (.inl rfl)), fun h => absurd rfl h⟩
  | known us =>
    have h := cutOff_foldl_addResult (us.map g)
    have hmembers : (us.map g).toFinset = (known us).elems.image g := by
      ext x
      simp [elems]
    have hnone : none ∈ us.map g ↔ known us = unknown ∨ ∃ x ∈ (known us).elems, g x = none := by
      simp [elems]
    rwa [← map_known, hmembers, hnone] at h

theorem product_known {us vs : List Word} (hus : us.length ≤ maxSize) (hvs : vs.length ≤ maxSize)
    (g : Word → Word → Option Word) :
    (known us).product (known vs) g =
      (us.flatMap fun x => vs.map (g x)).foldl addResult empty := by
  have hsmall : us.length * vs.length ≤ maxSize * maxSize := Nat.mul_le_mul hus hvs
  simp only [product]
  rw [if_neg (Nat.not_lt_of_le hsmall), List.foldl_flatMap]
  simp only [List.foldl_map]

theorem isNormal_product (hs : s.IsNormal) (ht : t.IsNormal) (g : Word → Word → Option Word) :
    (s.product t g).IsNormal := by
  cases s with
  | unknown => trivial
  | known us =>
    cases t with
    | unknown => trivial
    | known vs =>
      rw [product_known hs.2 ht.2]
      exact isNormal_foldl_addResult isNormal_empty _

theorem cutOff_product (hs : s.IsNormal) (ht : t.IsNormal) (g : Word → Word → Option Word) :
    CutOff (s = unknown ∨ t = unknown ∨ ∃ x ∈ s.elems, ∃ y ∈ t.elems, g x y = none)
      (Finset.image₂ g s.elems t.elems).eraseNone (s.product t g) := by
  cases s with
  | unknown => exact ⟨iff_of_true rfl (.inl (.inl rfl)), fun h => absurd rfl h⟩
  | known us =>
    cases t with
    | unknown => exact ⟨iff_of_true rfl (.inl (.inr (.inl rfl))), fun h => absurd rfl h⟩
    | known vs =>
      have h := cutOff_foldl_addResult (us.flatMap fun x => vs.map (g x))
      have hmembers : (us.flatMap fun x => vs.map (g x)).toFinset =
          Finset.image₂ g (known us).elems (known vs).elems := by
        ext x
        simp [elems]
      have hnone : (none ∈ us.flatMap fun x => vs.map (g x)) ↔
          known us = unknown ∨ known vs = unknown ∨
            ∃ x ∈ (known us).elems, ∃ y ∈ (known vs).elems, g x y = none := by
        simp [elems]
      rwa [← product_known hs.2 ht.2, hmembers, hnone] at h

/-- Which operand comes first only decides which argument comes first. -/
theorem product_swap (hs : s.IsNormal) (ht : t.IsNormal) (g : Word → Word → Option Word) :
    s.product t g = t.product s fun x y => g y x := by
  have hts := cutOff_product ht hs fun x y => g y x
  rw [← Finset.image₂_swap g s.elems t.elems] at hts
  refine (cutOff_product hs ht g).unique hts (isNormal_product hs ht g) (isNormal_product ht hs _) ?_
  constructor
  · rintro (h | h | ⟨x, hx, y, hy, h⟩)
    · exact .inr (.inl h)
    · exact .inl h
    · exact .inr (.inr ⟨y, hy, x, hx, h⟩)
  · rintro (h | h | ⟨y, hy, x, hx, h⟩)
    · exact .inr (.inl h)
    · exact .inl h
    · exact .inr (.inr ⟨x, hx, y, hy, h⟩)

/-! ### Laws of the union -/

theorem merge_comm (hs : s.IsNormal) (ht : t.IsNormal) : s.merge t = t.merge s := by
  have hts := cutOff_merge ht hs
  rw [Finset.union_comm] at hts
  exact (cutOff_merge hs ht).unique hts (isNormal_merge hs ht) (isNormal_merge ht hs) or_comm

theorem merge_self (hs : s.IsNormal) : s.merge s = s := by
  have hself : CutOff (s = unknown ∨ s = unknown) (s.elems ∪ s.elems) s := by
    refine cutOff_of_known hs ?_ fun h => .inl (.inl h)
    rintro vs rfl
    refine ⟨not_or.2 ⟨known_ne_unknown vs, known_ne_unknown vs⟩, fun x => ?_⟩
    rw [Finset.union_self, elems, List.mem_toFinset]
  exact (cutOff_merge hs hs).unique hself (isNormal_merge hs hs) hs Iff.rfl

/-- Of three sets too, only the members of all of them count. -/
theorem cutOff_merge_merge (hs : s.IsNormal) (ht : t.IsNormal) (hu : u.IsNormal) :
    CutOff (s = unknown ∨ t = unknown ∨ u = unknown) (s.elems ∪ t.elems ∪ u.elems)
      ((s.merge t).merge u) := by
  have hst := cutOff_merge hs ht
  have houter := cutOff_merge (isNormal_merge hs ht) hu
  by_cases hunknown : s.merge t = unknown
  · rw [hunknown]
    refine ⟨iff_of_true rfl ?_, fun h => absurd rfl h⟩
    rcases hst.unknown_iff.1 hunknown with (h | h) | hcard
    · exact .inl (.inl h)
    · exact .inl (.inr (.inl h))
    · exact .inr (Nat.lt_of_lt_of_le hcard (Finset.card_le_card Finset.subset_union_left))
  · rw [hst.elems_eq hunknown] at houter
    refine ⟨?_, houter.elems_eq⟩
    have hknown := mt hst.unknown_iff.2 hunknown
    rw [houter.unknown_iff]
    tauto

theorem merge_assoc (hs : s.IsNormal) (ht : t.IsNormal) (hu : u.IsNormal) :
    (s.merge t).merge u = s.merge (t.merge u) := by
  have hright := cutOff_merge_merge ht hu hs
  rw [Finset.union_comm, ← Finset.union_assoc] at hright
  rw [merge_comm hs (isNormal_merge ht hu)]
  refine (cutOff_merge_merge hs ht hu).unique hright
    (isNormal_merge (isNormal_merge hs ht) hu) (isNormal_merge (isNormal_merge ht hu) hs) ?_
  tauto

theorem isNormal_foldl_merge {l : List ValueSet} (hl : ∀ s ∈ l, s.IsNormal) {acc : ValueSet}
    (hacc : acc.IsNormal) : (l.foldl .merge acc).IsNormal := by
  induction l generalizing acc with
  | nil => exact hacc
  | cons s l ih =>
    have hs := hl s List.mem_cons_self
    exact ih (fun t ht => hl t (List.mem_cons_of_mem _ ht)) (isNormal_merge hacc hs)

/-- In whatever order sets are united, the union is the same. -/
theorem foldl_merge_perm {l l' : List ValueSet} (h : l.Perm l') (hl : ∀ s ∈ l, s.IsNormal)
    {acc : ValueSet} (hacc : acc.IsNormal) : l.foldl .merge acc = l'.foldl .merge acc := by
  induction h generalizing acc with
  | nil => rfl
  | cons s _ ih =>
    have hs := hl s List.mem_cons_self
    exact ih (fun t ht => hl t (List.mem_cons_of_mem _ ht)) (isNormal_merge hacc hs)
  | swap s t l =>
    have ht := hl t List.mem_cons_self
    have hs := hl s (List.mem_cons_of_mem _ List.mem_cons_self)
    have hswap : (acc.merge t).merge s = (acc.merge s).merge t := by
      rw [merge_assoc hacc ht hs, merge_comm ht hs, merge_assoc hacc hs ht]
    simp only [List.foldl_cons, hswap]
  | trans h _ ih ih' => exact (ih hl hacc).trans (ih' (fun s hs => hl s (h.mem_iff.2 hs)) hacc)

/-! ### Sets made by the operations -/

/-- The sets that can be made, each from ones made before. -/
inductive Built : ValueSet → Prop
  | unknown : Built unknown
  | empty : Built empty
  | single (w : Word) : Built (single w)
  | ofList (ws : List Word) : Built (ofList ws)
  | add {s : ValueSet} (w : Word) : Built s → Built (s.add w)
  | merge {s t : ValueSet} : Built s → Built t → Built (s.merge t)
  | map {s : ValueSet} (g : Word → Option Word) : Built s → Built (s.map g)
  | product {s t : ValueSet} (g : Word → Word → Option Word) :
    Built s → Built t → Built (s.product t g)

theorem Built.isNormal (h : Built s) : s.IsNormal := by
  induction h with
  | unknown => trivial
  | empty => exact isNormal_empty
  | single w => exact ⟨List.pairwise_singleton _ _, Nat.le_add_left 1 15⟩
  | ofList ws => exact isNormal_ofList ws
  | add w _ ih => exact isNormal_add ih w
  | merge _ _ ihs iht => exact isNormal_merge ihs iht
  | @map s g _ _ => exact isNormal_map s g
  | product g _ _ ihs iht => exact isNormal_product ihs iht g

/-- Exact algebra with a cut-off: every set made is unknown or a short ascending list; collecting
values, the union and the images hold exactly what they should, unless that is more than `maxSize`
words or cannot be known; the union is commutative, associative and idempotent. -/
theorem built_algebra :
    (∀ s, Built s → s.IsNormal) ∧
    (∀ ws, CutOff False ws.toFinset (ofList ws)) ∧
    (∀ s t, Built s → Built t →
      CutOff (s = .unknown ∨ t = .unknown) (s.elems ∪ t.elems) (s.merge t)) ∧
    (∀ s g, Built s →
      CutOff (s = .unknown ∨ ∃ x ∈ s.elems, g x = none) (s.elems.image g).eraseNone (s.map g)) ∧
    (∀ s t g, Built s → Built t →
      CutOff (s = .unknown ∨ t = .unknown ∨ ∃ x ∈ s.elems, ∃ y ∈ t.elems, g x y = none)
        (Finset.image₂ g s.elems t.elems).eraseNone (s.product t g)) ∧
    (∀ s t, Built s → Built t → s.merge t = t.merge s) ∧
    (∀ s t u, Built s → Built t → Built u → (s.merge t).merge u = s.merge (t.merge u)) ∧
    ∀ s, Built s → s.merge s = s := by
  refine ⟨fun s hs => hs.isNormal, cutOff_ofList, ?_, fun s g _ => cutOff_map s g, ?_, ?_, ?_, ?_⟩
  · intro s t hs ht
    exact cutOff_merge hs.isNormal ht.isNormal
  · intro s t g hs ht
    exact cutOff_product hs.isNormal ht.isNormal g
  · intro s t hs ht
    exact merge_comm hs.isNormal ht.isNormal
  · intro s t u hs ht hu
    exact merge_assoc hs.isNormal ht.isNormal hu.isNormal
  · intro s hs
    exact merge_self hs.isNormal

/-- As many words as a set may have. -/
def sixteen : ValueSet := ofList ((List.range 16).map (BitVec.ofNat 64))

/-- A member can be added to a full set and another word cannot, in whatever grouping; images of it
may be small, and an operation without a result for one pair says nothing. -/
theorem sixteen_algebra :
    Built sixteen ∧ Built (single 7) ∧ Built (single 100) ∧
    sixteen.merge (single 100) = unknown ∧
    (sixteen.merge (single 7)).elems = sixteen.elems ∪ {7} ∧
    (sixteen.map fun x => some (x &&& 3)).elems = {0, 1, 2, 3} ∧
    sixteen.product sixteen (fun x y => if y = 0 then none else some (x + y)) = unknown ∧
    (sixteen.merge (single 7)).merge (single 100) =
      sixteen.merge ((single 7).merge (single 100)) := by
  have hfull : Built sixteen := .ofList _
  obtain ⟨_, _, hmerge, hmap, hproduct, _, hassoc, _⟩ := built_algebra
  have hmember := hmerge sixteen (single 7) hfull (.single 7)
  have hother := hmerge sixteen (single 100) hfull (.single 100)
  have hlow := hmap sixteen (fun x => some (x &&& 3)) hfull
  have hpairs := hproduct sixteen sixteen (fun x y => if y = 0 then none else some (x + y)) hfull hfull
  have hnone : ∃ x ∈ sixteen.elems, ∃ y ∈ sixteen.elems,
      (if y = 0 then none else some (x + y)) = none := ⟨0, by decide, 0, by decide, rfl⟩
  refine ⟨hfull, .single 7, .single 100, hother.unknown_iff.2 (.inr (by decide)),
    hmember.elems_eq (mt hmember.unknown_iff.1 (by decide)), ?_,
    hpairs.unknown_iff.2 (.inl (.inr (.inr hnone))),
    hassoc sixteen (single 7) (single 100) hfull (.single 7) (.single 100)⟩
  rw [hlow.elems_eq (by decide)]
  decide

end ValueSet

end BinaryLift
