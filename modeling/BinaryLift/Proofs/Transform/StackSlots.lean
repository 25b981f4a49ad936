import BinaryLift.Proofs.Transform.Slots
import BinaryLift.Transform.Stack
import Mathlib.Data.List.Pairwise

/-!
# Slots behind the stack parameter

If the stack parameter is used for constant offsets only, and these for accesses only, each access
goes to one slot: the offset determines the slot, and no two slots share a byte.
-/

namespace BinaryLift

namespace Table

variable {κ ν : Type} [DecidableEq κ]

theorem mem_of_get? {t : Table κ ν} {k : κ} {v : ν} (h : t.get? k = some v) : (k, v) ∈ t := by
  induction t with
  | nil => cases h
  | cons e t ih =>
    obtain ⟨k', v'⟩ := e
    unfold get? at h
    split at h
    · rename_i hk
      cases h
      rw [hk]
      exact List.mem_cons_self
    · exact List.mem_cons_of_mem _ (ih h)

theorem mem_insert {t : Table κ ν} {k : κ} {v : ν} {x : κ × ν} (h : x ∈ t.insert k v) :
    x = (k, v) ∨ x ∈ t := by
  induction t with
  | nil => exact .inl (List.mem_singleton.1 h)
  | cons e t ih =>
    obtain ⟨k', v'⟩ := e
    unfold insert at h
    split at h
    · rename_i hk
      rw [hk] at h
      exact (List.mem_cons.1 h).imp_right (List.mem_cons_of_mem _)
    · rcases List.mem_cons.1 h with rfl | h
      · exact .inr List.mem_cons_self
      · exact (ih h).imp_right (List.mem_cons_of_mem _)

theorem mem_insert_self (t : Table κ ν) (k : κ) (v : ν) : (k, v) ∈ t.insert k v :=
  mem_of_get? (by rw [get?_insert, if_pos rfl])

/-- An entry stays unless it is the one that is replaced. -/
theorem mem_insert_of_mem {t : Table κ ν} {k : κ} {v : ν} {x : κ × ν} (h : x ∈ t) :
    x ∈ t.insert k v ∨ t.get? k = some x.2 := by
  induction t with
  | nil => cases h
  | cons e t ih =>
    obtain ⟨k', v'⟩ := e
    unfold insert get?
    split
    · rcases List.mem_cons.1 h with rfl | h
      · exact .inr rfl
      · exact .inl (List.mem_cons_of_mem _ h)
    · rcases List.mem_cons.1 h with rfl | h
      · exact .inl List.mem_cons_self
      · exact (ih h).imp_left (List.mem_cons_of_mem _)

end Table

/-- Slots in ascending order end before the next one starts. -/
theorem apart_spec {slots : StackSlots} : ∀ {stop : Int}, Func.apart stop slots = true →
    slots.Pairwise (fun (x y : Int × StackSlot) => x.1 + x.2.width ≤ y.1) ∧
      ∀ x ∈ slots, stop ≤ x.1 ∧ x.1 + x.2.width < Func.signedSpan := by
  induction slots with
  | nil =>
    intro stop _
    exact ⟨.nil, fun _ hx => nomatch hx⟩
  | cons x slots ih =>
    intro stop h
    obtain ⟨offset, slot⟩ := x
    simp only [Func.apart, Bool.and_eq_true, decide_eq_true_eq] at h
    obtain ⟨⟨hstop, hspan⟩, hrest⟩ := h
    obtain ⟨hpairs, hall⟩ := ih hrest
    refine ⟨List.pairwise_cons.2 ⟨fun y hy => (hall y hy).1, hpairs⟩, fun y hy => ?_⟩
    rcases List.mem_cons.1 hy with rfl | hy
    · exact ⟨hstop, hspan⟩
    · obtain ⟨hle, hlt⟩ := hall y hy
      exact ⟨by omega, hlt⟩

namespace Func

variable {f : Func} {stack : Value} {s id : InstId} {ty : Ty}

theorem accesses_of_slotAccess (h : f.slotAccess (.inst s) id = .ok (some ty)) :
    ∃ i, f.inst? id = some i ∧ f.Accesses s ty i := by
  unfold slotAccess at h
  cases hi : f.inst id with
  | error e =>
    rw [hi] at h
    cases h
  | ok i =>
    rw [hi] at h
    refine ⟨i, inst_eq_ok hi, ?_⟩
    obtain ⟨kind, o⟩ := i
    cases kind with
    | load p =>
      simp only [bind, Except.bind] at h
      split at h
      · rename_i hp
        cases h
        rw [hp]
        exact .load
      · cases h
    | store p v =>
      simp only [bind, Except.bind] at h
      split at h
      · rename_i hp
        rw [hp.1]
        exact .store hp.2 (valueTy_eq_ok h).symm
      · cases h
    | _ => cases h

/-- The address `a` is `offset` bytes behind the stack parameter, and all that is done with it are
accesses to `width` bytes. -/
structure IsAddress (f : Func) (stack : Value) (offset : Int) (width : Nat) (a : InstId) : Prop where
  offset : ∃ c ty, f.inst? a = some ⟨.ptrAdd stack (.const c), ty⟩ ∧ c.signed = offset
  live : ∃ b, a ∈ f.instsOf b
  users : ∀ u ∈ f.usersOf (.inst a), ∃ id i ty, u = .inst id ∧ f.inst? id = some i ∧
    f.Accesses a ty i ∧ ty.bytes = width

theorem accessWidth_spec (users : List User) :
    ∀ {acc o}, f.accessWidth (.inst s) acc users = .ok (some o) →
      (∀ w, acc = some w → o = some w) ∧
      (∀ u ∈ users, ∃ id i ty, u = .inst id ∧ f.inst? id = some i ∧ f.Accesses s ty i ∧
        o = some ty.bytes) := by
  induction users with
  | nil =>
    intro acc o h
    cases h
    refine ⟨fun w hw => hw, ?_⟩
    intro u hu
    cases hu
  | cons u users ih =>
    intro acc o h
    cases u with
    | term b => cases h
    | inst id =>
      unfold accessWidth at h
      cases hacc : f.slotAccess (.inst s) id with
      | error e =>
        rw [hacc] at h
        cases h
      | ok t =>
        rw [hacc] at h
        cases t with
        | none => cases h
        | some ty =>
          simp only [bind, Except.bind] at h
          split at h
          · rename_i hall
            obtain ⟨hsame, husers⟩ := ih h
            have ho := hsame ty.bytes rfl
            refine ⟨?_, ?_⟩
            · rintro w rfl
              rw [ho]
              simpa [eq_comm] using hall
            · intro u hu
              rcases List.mem_cons.1 hu with rfl | hu
              · obtain ⟨i, hi, haccess⟩ := accesses_of_slotAccess hacc
                exact ⟨id, i, ty, rfl, hi, haccess, ho⟩
              · exact husers u hu
          · cases h

/-- What has been found of the uses of the stack parameter so far. -/
structure StackUses (f : Func) (stack : Value) (slots : StackSlots) (seen : List User) : Prop where
  address : ∀ x ∈ slots, ∀ a ∈ x.2.addresses, f.IsAddress stack x.1 x.2.width a
  covers : ∀ u ∈ seen, ∃ a c ty, u = .inst a ∧ f.inst? a = some ⟨.ptrAdd stack (.const c), ty⟩ ∧
    (f.usersOf (.inst a) = [] ∨ ∃ x ∈ slots, a ∈ x.2.addresses)

theorem StackUses.insert {slots : StackSlots} {seen : List User} (h : f.StackUses stack slots seen)
    {a : InstId} {width : Nat} {c : Constant} {o : Option Ty}
    (hi : f.inst? a = some ⟨.ptrAdd stack (.const c), o⟩)
    (ha : f.IsAddress stack c.signed width a)
    (hwidth : ((slots.get? c.signed).getD ⟨width, []⟩).width = width) :
    f.StackUses stack (slots.insert c.signed
      { (slots.get? c.signed).getD ⟨width, []⟩ with
        addresses := ((slots.get? c.signed).getD ⟨width, []⟩).addresses ++ [a] })
      (seen ++ [.inst a]) where
  address := by
    intro x hx a' ha'
    rcases Table.mem_insert hx with rfl | hx
    · rcases List.mem_append.1 ha' with hold | hnew
      · cases hget : slots.get? c.signed with
        | none =>
          rw [hget] at hold
          cases hold
        | some slot =>
          rw [hget] at hold
          exact h.address _ (Table.mem_of_get? hget) a' hold
      · rw [List.mem_singleton.1 hnew]
        simp only [hwidth]
        exact ha
    · exact h.address x hx a' ha'
  covers := by
    intro u hu
    rcases List.mem_append.1 hu with hu | hu
    · obtain ⟨a', c', o', rfl, hi', hseen⟩ := h.covers u hu
      refine ⟨a', c', o', rfl, hi', hseen.imp_right ?_⟩
      rintro ⟨x, hx, hmem⟩
      rcases Table.mem_insert_of_mem (k := c.signed) hx with hx | hget
      · exact ⟨x, hx, hmem⟩
      · refine ⟨_, Table.mem_insert_self _ _ _, ?_⟩
        rw [hget]
        exact List.mem_append_left _ hmem
    · rw [List.mem_singleton.1 hu]
      exact ⟨a, c, o, rfl, hi, .inr ⟨_, Table.mem_insert_self _ _ _,
        List.mem_append_right _ (List.mem_singleton_self a)⟩⟩

theorem addStackUse_spec {slots slots' : StackSlots} {seen : List User} {u : User}
    (h : f.StackUses stack slots seen) (hu : u ∈ f.usersOf stack)
    (hadd : f.addStackUse stack slots u = .ok (some slots')) :
    f.StackUses stack slots' (seen ++ [u]) := by
  cases u with
  | term b => cases hadd
  | inst a =>
    unfold addStackUse at hadd
    cases hkind : f.kind a with
    | error e =>
      simp only [hkind, bind, Except.bind] at hadd
      cases hadd
    | ok k =>
      obtain ⟨⟨k', o⟩, hi, rfl⟩ := kind_eq_ok hkind
      simp only [hkind, bind, Except.bind] at hadd
      split at hadd
      · rename_i base c
        split at hadd
        · cases hadd
        rename_i hbase
        have hbase' : base = stack := by simpa using hbase
        subst hbase'
        cases hwidth : f.accessWidth (.inst a) none (f.usersOf (.inst a)) with
        | error e =>
          rw [hwidth] at hadd
          cases hadd
        | ok r =>
          rw [hwidth] at hadd
          cases r with
          | none => cases hadd
          | some w =>
            obtain ⟨_, husers⟩ := accessWidth_spec _ hwidth
            cases w with
            | none =>
              -- the address is not used at all
              cases hadd
              refine ⟨h.address, fun u hu => ?_⟩
              rcases List.mem_append.1 hu with hu | hu
              · exact h.covers u hu
              · rw [List.mem_singleton.1 hu]
                refine ⟨a, c, o, rfl, hi, .inl (List.eq_nil_iff_forall_not_mem.2 fun u hu => ?_)⟩
                obtain ⟨_, _, _, _, _, _, heq⟩ := husers u hu
                cases heq
            | some width =>
              simp only at hadd
              split at hadd
              · cases hadd
              rename_i hsame
              cases hadd
              obtain ⟨b, data, hdata, ⟨id, i, hid, _, _, heq⟩ | ⟨_, heq⟩⟩ := mem_usersOf.1 hu
              · cases heq
                refine h.insert hi ⟨⟨c, o, hi, rfl⟩, ⟨b, instsOf_eq hdata ▸ hid⟩, fun u hu => ?_⟩
                  (by simpa using hsame)
                obtain ⟨id, i, ty, hu, hi, hacc, heq⟩ := husers u hu
                exact ⟨id, i, ty, hu, hi, hacc, (Option.some.inj heq).symm⟩
              · cases heq
      · cases hadd

theorem addStackUses_spec (users : List User) (hsub : users ⊆ f.usersOf stack) :
    ∀ {slots slots' : StackSlots} {seen : List User}, f.StackUses stack slots seen →
      f.addStackUses stack slots users = .ok (some slots') →
      f.StackUses stack slots' (seen ++ users) := by
  induction users with
  | nil =>
    intro slots slots' seen h hadd
    cases hadd
    rwa [List.append_nil]
  | cons u users ih =>
    intro slots slots' seen h hadd
    unfold addStackUses at hadd
    cases huse : f.addStackUse stack slots u with
    | error e =>
      rw [huse] at hadd
      cases hadd
    | ok r =>
      rw [huse] at hadd
      cases r with
      | none => cases hadd
      | some slots₁ =>
        have h₁ := addStackUse_spec h (hsub List.mem_cons_self) huse
        have hrest := ih (fun x hx => hsub (List.mem_cons_of_mem _ hx)) h₁ hadd
        rwa [List.append_assoc, List.singleton_append] at hrest

/-- The uses of the stack parameter make up slots that lie apart. -/
structure StackSplit (f : Func) (stack : Value) (slots : StackSlots) : Prop
    extends f.StackUses stack slots (f.usersOf stack) where
  pairwise : slots.Pairwise fun (x y : Int × StackSlot) => x.1 + x.2.width ≤ y.1
  bounds : ∀ x ∈ slots, -signedSpan ≤ x.1 ∧ x.1 + x.2.width < signedSpan

theorem stackSlots_spec {slots : StackSlots} (h : f.stackSlots stack = .ok (some slots)) :
    f.StackSplit stack slots := by
  unfold stackSlots at h
  cases hadd : f.addStackUses stack [] (f.usersOf stack) with
  | error e =>
    rw [hadd] at h
    cases h
  | ok r =>
    rw [hadd] at h
    cases r with
    | none => cases h
    | some found =>
      simp only [bind, Except.bind] at h
      split at h
      · rename_i hapart
        cases h
        have hstart : f.StackUses stack [] [] :=
          ⟨fun _ hx => absurd hx List.not_mem_nil, fun _ hu => absurd hu List.not_mem_nil⟩
        have huses := addStackUses_spec _ (List.Subset.refl _) hstart hadd
        rw [List.nil_append] at huses
        obtain ⟨hpairs, hbounds⟩ := apart_spec hapart
        refine ⟨⟨fun x hx => huses.address x (List.mem_mergeSort.1 hx), ?_⟩, hpairs, hbounds⟩
        intro u hu
        obtain ⟨a, c, ty, hua, hi, hseen⟩ := huses.covers u hu
        refine ⟨a, c, ty, hua, hi, hseen.imp_right ?_⟩
        rintro ⟨x, hx, ha⟩
        exact ⟨x, List.mem_mergeSort.2 hx, ha⟩
      · cases h

/-! ### The search returns -/

/-- What live instructions read, phis apart, has been made. -/
def ReadsMade (f : Func) : Prop :=
  ∀ b id i, id ∈ f.instsOf b → f.inst? id = some i → i.kind.isPhi = false →
    ∀ j, .inst j ∈ i.kind.operands → ∃ k, f.inst? j = some k

/-- What live instructions of a typed function read has been made. -/
theorem WellTyped.exists_operand (hty : f.WellTyped) (hc : f.Consistent) {b : BlockId} {i : Inst}
    {j : InstId} (hid : id ∈ f.instsOf b) (hi : f.inst? id = some i)
    (hj : .inst j ∈ i.kind.operands) : ∃ k, f.inst? j = some k := by
  have hlive : f.isLive id = true := hc.isLive_of_mem hid
  have htyped := (hty.kind hlive hi).operand hj
  cases hk : f.inst? j with
  | some k => exact ⟨k, rfl⟩
  | none =>
    rw [typeOf, hk] at htyped
    cases htyped

theorem WellTyped.readsMade (hty : f.WellTyped) (hc : f.Consistent) : f.ReadsMade :=
  fun _ _ _ hid hi _ _ hj => hty.exists_operand hc hid hi hj

theorem mem_instsOf_of_user {v : Value} (h : .inst id ∈ f.usersOf v) :
    ∃ b i, id ∈ f.instsOf b ∧ f.inst? id = some i := by
  obtain ⟨b, data, hdata, ⟨id', i, hid, hi, _, heq⟩ | ⟨_, heq⟩⟩ := mem_usersOf.1 h
  · cases heq
    exact ⟨b, i, instsOf_eq hdata ▸ hid, hi⟩
  · cases heq

theorem accessWidth_returns (hmade : f.ReadsMade) (users : List User)
    (hsub : users ⊆ f.usersOf (.inst s)) :
    ∀ acc, ∃ o, f.accessWidth (.inst s) acc users = .ok o := by
  induction users with
  | nil => exact fun acc => ⟨some acc, rfl⟩
  | cons u users ih =>
    intro acc
    cases u with
    | term b => exact ⟨none, rfl⟩
    | inst id =>
      obtain ⟨b, i, hid, hi⟩ := mem_instsOf_of_user (hsub List.mem_cons_self)
      obtain ⟨o, ho, _⟩ := slotAccess_spec (s := s) hi (hmade b id i hid hi)
      unfold accessWidth
      simp only [ho, bind, Except.bind]
      cases o with
      | none => exact ⟨none, rfl⟩
      | some ty =>
        simp only
        split
        · exact ih (fun x hx => hsub (List.mem_cons_of_mem _ hx)) _
        · exact ⟨none, rfl⟩

theorem addStackUse_returns (hmade : f.ReadsMade) {u : User} (hu : u ∈ f.usersOf stack)
    (slots : StackSlots) : ∃ o, f.addStackUse stack slots u = .ok o := by
  cases u with
  | term b => exact ⟨none, rfl⟩
  | inst a =>
    obtain ⟨b, ⟨kind, ty⟩, _, hi⟩ := mem_instsOf_of_user hu
    unfold addStackUse
    simp only [kind_of_inst? hi, bind, Except.bind]
    split
    · split
      · exact ⟨none, rfl⟩
      · obtain ⟨o, ho⟩ := accessWidth_returns hmade _ (List.Subset.refl (f.usersOf (.inst a))) none
        rw [ho]
        rcases o with _ | _ | width
        · exact ⟨none, rfl⟩
        · exact ⟨some slots, rfl⟩
        · simp only
          split
          · exact ⟨none, rfl⟩
          · exact ⟨_, rfl⟩
    · exact ⟨none, rfl⟩

theorem stackSlots_returns (hmade : f.ReadsMade) (stack : Value) :
    ∃ o, f.stackSlots stack = .ok o := by
  have hall : ∀ users ⊆ f.usersOf stack, ∀ slots, ∃ o, f.addStackUses stack slots users = .ok o := by
    intro users
    induction users with
    | nil => exact fun _ slots => ⟨some slots, rfl⟩
    | cons u users ih =>
      intro hsub slots
      obtain ⟨o, ho⟩ := addStackUse_returns hmade (hsub List.mem_cons_self) slots
      unfold addStackUses
      rw [ho]
      cases o with
      | none => exact ⟨none, rfl⟩
      | some slots => exact ih (fun x hx => hsub (List.mem_cons_of_mem _ hx)) slots
  obtain ⟨o, ho⟩ := hall _ (List.Subset.refl _) []
  unfold stackSlots
  rw [ho]
  cases o with
  | none => exact ⟨none, rfl⟩
  | some slots => exact ⟨_, rfl⟩

/-! ### Slots apart -/

/-- Slots of different numbers share no byte. -/
theorem StackSplit.apart (h : f.StackSplit stack slots) {n k : Nat} {x y : Int × StackSlot}
    (hx : slots[n]? = some x) (hy : slots[k]? = some y) (hne : n ≠ k) :
    x.1 + x.2.width ≤ y.1 ∨ y.1 + y.2.width ≤ x.1 := by
  obtain ⟨hn, rfl⟩ := List.getElem?_eq_some_iff.1 hx
  obtain ⟨hk, rfl⟩ := List.getElem?_eq_some_iff.1 hy
  rcases Nat.lt_or_gt_of_ne hne with hlt | hlt
  · exact .inl (List.pairwise_iff_getElem.1 h.pairwise n k hn hk hlt)
  · exact .inr (List.pairwise_iff_getElem.1 h.pairwise k n hk hn hlt)

end Func

end BinaryLift
