import BinaryLift.Program.Func.Basic
import Mathlib.Algebra.Order.Ring.Nat
import Mathlib.Tactic.Common

/-!
# Typing

Types of operands, and what each kind of instruction demands of the types of its operands and of its
result. `Agrees` asks only for the agreements that a reader of payloads relies on; `Typed` is the
whole discipline. A payload fits a type if it has no bits above the type's width.
-/

namespace BinaryLift

/-- The payload is one of the type. -/
def Ty.Fits (ty : Ty) (w : Word) : Prop := w &&& ty.mask = w

instance (ty : Ty) (w : Word) : Decidable (ty.Fits w) := inferInstanceAs (Decidable (_ = _))

namespace Ty

theorem fits_and_mask (ty : Ty) (w : Word) : ty.Fits (w &&& ty.mask) := by
  unfold Fits
  rw [BitVec.and_assoc, BitVec.and_self]

theorem fits_bool (ty : Ty) (b : Bool) : ty.Fits (if b then 1 else 0) := by
  cases ty <;> cases b <;> decide

theorem fits_zero (ty : Ty) : ty.Fits 0 := by
  cases ty <;> decide

theorem toNat_mask (ty : Ty) : ty.mask.toNat = 2 ^ ty.bits - 1 := by cases ty <;> decide

theorem mask_of_bits_eq {ty : Ty} (h : ty.bits = 64) : ty.mask = BitVec.allOnes 64 := by
  unfold mask
  rw [h]
  decide

theorem fits_of_bits_eq {ty : Ty} (h : ty.bits = 64) (w : Word) : ty.Fits w := by
  unfold Fits
  rw [mask_of_bits_eq h]
  exact BitVec.and_allOnes

theorem fits_of_lt {ty : Ty} {w : Word} (h : w.toNat < 2 ^ ty.bits) : ty.Fits w := by
  apply BitVec.eq_of_toNat_eq
  rw [BitVec.toNat_and, toNat_mask, Nat.and_two_pow_sub_one_eq_mod]
  exact Nat.mod_eq_of_lt h

theorem toNat_lt_of_fits {ty : Ty} {w : Word} (h : ty.Fits w) : w.toNat < 2 ^ ty.bits := by
  have hw : (w &&& ty.mask).toNat = w.toNat := congrArg BitVec.toNat h
  rw [BitVec.toNat_and, toNat_mask, Nat.and_two_pow_sub_one_eq_mod] at hw
  rw [← hw]
  exact Nat.mod_lt _ (Nat.two_pow_pos _)

end Ty

namespace Func

/-- Type of an operand, if it has one. -/
def typeOf (f : Func) : Value → Option Ty
  | .const c => some c.ty
  | .arg n => f.params[n]?.map (·.ty)
  | .inst id => (f.inst? id).bind (·.ty)

/-- Type of an operand, a full word if it has none. -/
def wordTy (f : Func) (v : Value) : Ty := (f.typeOf v).getD .i64

theorem valueTy_eq_ok {f : Func} {v : Value} {t : Option Ty} (h : f.valueTy v = .ok t) :
    t = f.typeOf v := by
  cases v with
  | const c => exact (Except.ok.inj h).symm
  | arg n => exact (Except.ok.inj h).symm
  | inst id =>
    simp only [valueTy, inst, typeOf] at h ⊢
    cases hi : f.inst? id with
    | none =>
      rw [hi] at h
      cases h
    | some i =>
      rw [hi] at h
      exact (Except.ok.inj h).symm

theorem inst_eq_ok {f : Func} {id : InstId} {i : Inst} (h : f.inst id = .ok i) :
    f.inst? id = some i := by
  unfold inst at h
  split at h
  · rename_i j hj
    rw [hj, Except.ok.inj h]
  · cases h

theorem kind_eq_ok {f : Func} {id : InstId} {k : Kind} (h : f.kind id = .ok k) :
    ∃ i, f.inst? id = some i ∧ i.kind = k := by
  unfold kind at h
  cases hi : f.inst id with
  | error e =>
    rw [hi] at h
    cases h
  | ok i =>
    rw [hi] at h
    exact ⟨i, inst_eq_ok hi, Except.ok.inj h⟩

theorem kind_of_inst? {f : Func} {id : InstId} {i : Inst} (h : f.inst? id = some i) :
    f.kind id = .ok i.kind := by
  simp only [kind, inst, h]
  rfl

theorem typeOf_inst {f : Func} {id : InstId} {i : Inst} (h : f.inst? id = some i) :
    f.typeOf (.inst id) = i.ty := by
  simp only [typeOf, h, Option.bind_some]

theorem wordTy_inst {f : Func} {id : InstId} {i : Inst} (h : f.inst? id = some i) :
    f.wordTy (.inst id) = i.ty.getD .i64 := by
  rw [wordTy, typeOf_inst h]

end Func

namespace Kind

/-- Operands and result share a type where the kind passes payloads on, and pointers are made at
pointer type. -/
def Agrees (f : Func) (ty : Option Ty) : Kind → Prop
  | binary _ a b => f.typeOf a = ty ∧ f.typeOf b = ty
  | select _ a b => f.typeOf a = ty ∧ f.typeOf b = ty
  | phi inc => ∀ e ∈ inc, f.typeOf e.2 = ty
  | cast .inttoptr _ => ty = some .ptr
  | ptrAdd _ _ => ty = some .ptr
  | _ => True

/-- Operand and result types of a conversion. -/
def CastTyped (op : CastOp) : Option Ty → Option Ty → Prop
  | some source, some target =>
    match op with
    | .trunc => target.bits < source.bits ∧ target ≠ .ptr
    | .zext => source.bits < target.bits ∧ target ≠ .ptr
    | .sext => source.bits < target.bits ∧ target ≠ .ptr
    | .ptrtoint => source = .ptr ∧ target ≠ .ptr
    | .inttoptr => source ≠ .ptr ∧ target = .ptr
  | _, _ => False

/-- The types that a kind demands. -/
def Typed (f : Func) (ty : Option Ty) : Kind → Prop
  | alloca _ => ty = some .ptr
  | load p => f.typeOf p = some .ptr ∧ ty.isSome
  | store p v => f.typeOf p = some .ptr ∧ (f.typeOf v).isSome ∧ ty = none
  | binary _ a b => ty.isSome ∧ f.typeOf a = ty ∧ f.typeOf b = ty
  | icmp _ a b => (f.typeOf a).isSome ∧ f.typeOf b = f.typeOf a ∧ ty = some .i1
  | cast op v => CastTyped op (f.typeOf v) ty
  | ptrAdd b o => f.typeOf b = some .ptr ∧ (f.typeOf o).isSome ∧ ty = some .ptr
  | select c a b => f.typeOf c = some .i1 ∧ ty.isSome ∧ f.typeOf a = ty ∧ f.typeOf b = ty
  | phi inc => ty.isSome ∧ ∀ e ∈ inc, f.typeOf e.2 = ty
  | call _ args => ∀ a ∈ args, (f.typeOf a).isSome

instance (op : CastOp) : (source target : Option Ty) → Decidable (CastTyped op source target)
  | some source, some target =>
    match op with
    | .trunc => inferInstanceAs (Decidable (target.bits < source.bits ∧ target ≠ .ptr))
    | .zext => inferInstanceAs (Decidable (source.bits < target.bits ∧ target ≠ .ptr))
    | .sext => inferInstanceAs (Decidable (source.bits < target.bits ∧ target ≠ .ptr))
    | .ptrtoint => inferInstanceAs (Decidable (source = .ptr ∧ target ≠ .ptr))
    | .inttoptr => inferInstanceAs (Decidable (source ≠ .ptr ∧ target = .ptr))
  | none, none => isFalse id
  | none, some _ => isFalse id
  | some _, none => isFalse id

instance (f : Func) (ty : Option Ty) : (k : Kind) → Decidable (k.Typed f ty)
  | alloca _ => inferInstanceAs (Decidable (_ = _))
  | load _ => inferInstanceAs (Decidable (_ ∧ _))
  | store _ _ => inferInstanceAs (Decidable (_ ∧ _ ∧ _))
  | binary _ _ _ => inferInstanceAs (Decidable (_ ∧ _ ∧ _))
  | icmp _ _ _ => inferInstanceAs (Decidable (_ ∧ _ ∧ _))
  | cast op v => inferInstanceAs (Decidable (CastTyped op (f.typeOf v) ty))
  | ptrAdd _ _ => inferInstanceAs (Decidable (_ ∧ _ ∧ _))
  | select _ _ _ => inferInstanceAs (Decidable (_ ∧ _ ∧ _ ∧ _))
  | phi inc => inferInstanceAs (Decidable (_ ∧ ∀ e ∈ inc, f.typeOf e.2 = ty))
  | call _ args => inferInstanceAs (Decidable (∀ a ∈ args, (f.typeOf a).isSome))

/-- A typed instruction reads results only. -/
theorem Typed.operand {f : Func} {ty : Option Ty} {k : Kind} (h : k.Typed f ty) {v : Value}
    (hv : v ∈ k.operands) : (f.typeOf v).isSome = true := by
  cases k with
  | alloca n => cases hv
  | load p =>
    rw [List.mem_singleton.1 hv, h.1]
    rfl
  | store p w =>
    rcases List.mem_cons.1 hv with rfl | hv
    · rw [h.1]
      rfl
    · rw [List.mem_singleton.1 hv]
      exact h.2.1
  | binary op a b =>
    obtain ⟨hty, ha, hb⟩ := h
    rcases List.mem_cons.1 hv with rfl | hv
    · rwa [ha]
    · rwa [List.mem_singleton.1 hv, hb]
  | icmp p a b =>
    obtain ⟨hty, hb, _⟩ := h
    rcases List.mem_cons.1 hv with rfl | hv
    · exact hty
    · rwa [List.mem_singleton.1 hv, hb]
  | cast op w =>
    rw [List.mem_singleton.1 hv]
    change CastTyped op (f.typeOf w) ty at h
    cases hw : f.typeOf w with
    | none =>
      rw [hw] at h
      exact absurd h id
    | some source => rfl
  | ptrAdd b o =>
    rcases List.mem_cons.1 hv with rfl | hv
    · rw [h.1]
      rfl
    · rw [List.mem_singleton.1 hv]
      exact h.2.1
  | select c a b =>
    obtain ⟨hc, hty, ha, hb⟩ := h
    rcases List.mem_cons.1 hv with rfl | hv
    · rw [hc]
      rfl
    · rcases List.mem_cons.1 hv with rfl | hv
      · rwa [ha]
      · rwa [List.mem_singleton.1 hv, hb]
  | phi inc =>
    obtain ⟨e, he, rfl⟩ := List.mem_map.1 hv
    rw [h.2 e he]
    exact h.1
  | call callee args => exact h v hv

theorem Typed.agrees {f : Func} {ty : Option Ty} {k : Kind} (h : k.Typed f ty) : k.Agrees f ty := by
  cases k with
  | alloca n => trivial
  | load p => trivial
  | store p w => trivial
  | binary op a b => exact h.2
  | icmp p a b => trivial
  | cast op v =>
    cases op with
    | inttoptr =>
      change CastTyped .inttoptr (f.typeOf v) ty at h
      cases hv : f.typeOf v with
      | none =>
        rw [hv] at h
        exact absurd h id
      | some source =>
        cases ty with
        | none =>
          rw [hv] at h
          exact absurd h id
        | some target =>
          rw [hv] at h
          exact congrArg some h.2
    | _ => trivial
  | ptrAdd b o => exact h.2.2
  | select c a b => exact h.2.2
  | phi inc => exact h.2
  | call callee args => trivial

end Kind

namespace Func

/-- Every live instruction keeps the agreements. -/
def Agrees (f : Func) : Prop :=
  ∀ s ∈ f.arena.toList, s.block.isSome → s.inst.kind.Agrees f s.inst.ty

/-- Every live instruction is typed. -/
def WellTyped (f : Func) : Prop :=
  ∀ s ∈ f.arena.toList, s.block.isSome → s.inst.kind.Typed f s.inst.ty

instance (f : Func) : Decidable f.WellTyped :=
  inferInstanceAs (Decidable (∀ s ∈ f.arena.toList, s.block.isSome → s.inst.kind.Typed f s.inst.ty))

/-- No live instruction loads a single bit. -/
def NoBitLoad (f : Func) : Prop :=
  ∀ s ∈ f.arena.toList, s.block.isSome → ∀ p, s.inst ≠ ⟨.load p, some .i1⟩

theorem exists_slot {f : Func} {id : InstId} {i : Inst} (hlive : f.isLive id)
    (hi : f.inst? id = some i) : ∃ s ∈ f.arena.toList, s.block.isSome ∧ s.inst = i := by
  simp only [isLive, instBlock, inst?] at hlive hi
  cases hs : f.arena[id.index]? with
  | none =>
    rw [hs] at hi
    cases hi
  | some s =>
    rw [hs] at hlive hi
    refine ⟨s, ?_, hlive, Option.some.inj hi⟩
    exact Array.mem_toList_iff.2 (Array.mem_of_getElem? hs)

theorem Agrees.kind {f : Func} (h : f.Agrees) {id : InstId} {i : Inst} (hlive : f.isLive id)
    (hi : f.inst? id = some i) : i.kind.Agrees f i.ty := by
  obtain ⟨s, hs, hb, rfl⟩ := exists_slot hlive hi
  exact h s hs hb

theorem WellTyped.kind {f : Func} (h : f.WellTyped) {id : InstId} {i : Inst} (hlive : f.isLive id)
    (hi : f.inst? id = some i) : i.kind.Typed f i.ty := by
  obtain ⟨s, hs, hb, rfl⟩ := exists_slot hlive hi
  exact h s hs hb

theorem wellTyped_iff {f : Func} : f.WellTyped ↔
    ∀ id i, f.isLive id = true → f.inst? id = some i → i.kind.Typed f i.ty := by
  refine ⟨fun h id i hlive hi => h.kind hlive hi, fun h s hs hlive => ?_⟩
  obtain ⟨n, hn⟩ := List.mem_iff_getElem?.1 hs
  have hslot : f.arena[n]? = some s := by rwa [Array.getElem?_toList] at hn
  refine h ⟨n⟩ s.inst ?_ ?_
  · simpa only [isLive, instBlock, hslot, Option.bind_some] using hlive
  · simp only [inst?, hslot, Option.map_some]

theorem WellTyped.agrees {f : Func} (h : f.WellTyped) : f.Agrees :=
  fun s hs hlive => (h s hs hlive).agrees

theorem NoBitLoad.ty_ne {f : Func} (h : f.NoBitLoad) {id : InstId} {p : Value} {ty : Option Ty}
    (hlive : f.isLive id) (hi : f.inst? id = some ⟨.load p, ty⟩) : ty ≠ some .i1 := by
  obtain ⟨s, hs, hb, he⟩ := exists_slot hlive hi
  rintro rfl
  exact h s hs hb p he

end Func

end BinaryLift
