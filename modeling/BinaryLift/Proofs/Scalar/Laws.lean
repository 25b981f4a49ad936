import BinaryLift.Proofs.Program.Typing
import BinaryLift.Transform.Combine

/-!
# Laws of arithmetic

Cut to the width of a type, words form a ring and a Boolean algebra; so constants along a chain of
one operation can be gathered, and an operation with a neutral or absorbing constant needs no
execution. A conversion to a wider type and back changes nothing.
-/

namespace BinaryLift

namespace Ty

variable {ty : Ty} {a : Word}

/-- Two words are equal below the mask if they are equal at the width. -/
theorem and_mask_eq_iff (ty : Ty) (x y : Word) :
    x &&& ty.mask = y &&& ty.mask ↔ x.setWidth ty.bits = y.setWidth ty.bits := by
  rw [← BitVec.toNat_inj, ← BitVec.toNat_inj, BitVec.toNat_and, BitVec.toNat_and, toNat_mask,
    Nat.and_two_pow_sub_one_eq_mod, Nat.and_two_pow_sub_one_eq_mod, BitVec.toNat_setWidth,
    BitVec.toNat_setWidth]

theorem setWidth_and_mask (ty : Ty) (x : Word) :
    (x &&& ty.mask).setWidth ty.bits = x.setWidth ty.bits := by
  rw [← and_mask_eq_iff, BitVec.and_assoc, BitVec.and_self]

theorem setWidth_sub (ty : Ty) (x y : Word) :
    (x - y).setWidth ty.bits = x.setWidth ty.bits - y.setWidth ty.bits := by
  rw [BitVec.sub_eq_add_neg, BitVec.setWidth_add _ _ ty.bits_le,
    BitVec.setWidth_neg_of_le ty.bits_le, ← BitVec.sub_eq_add_neg]

theorem getLsbD_mask (ty : Ty) (i : Nat) : ty.mask.getLsbD i = decide (i < ty.bits) := by
  have hle := ty.bits_le
  rw [mask, BitVec.getLsbD_setWidth, BitVec.getLsbD_allOnes]
  by_cases hi : i < ty.bits
  · simp [hi, Nat.lt_of_lt_of_le hi hle]
  · simp [hi]

/-- The mask of a wider type leaves the mask of a narrower one. -/
theorem mask_and_mask {source : Ty} (h : source.bits ≤ ty.bits) :
    ty.mask &&& source.mask = source.mask := by
  apply BitVec.eq_of_getLsbD_eq
  intro i _
  rw [BitVec.getLsbD_and, getLsbD_mask, getLsbD_mask]
  by_cases hi : i < source.bits
  · simp [hi, Nat.lt_of_lt_of_le hi h]
  · simp [hi]

theorem signExtend_and_mask (ty : Ty) (a : Word) : signExtend a ty &&& ty.mask = a &&& ty.mask := by
  rw [and_mask_eq_iff]
  apply BitVec.eq_of_getLsbD_eq
  intro i hi
  have hle := ty.bits_le
  have hlt : 64 - ty.bits + i < 64 := by omega
  have hi' : i < 64 := by omega
  have hle' : ¬ 64 ≤ i := by omega
  have hshift : ¬ 64 - ty.bits + i < 64 - ty.bits := by omega
  rw [BitVec.getLsbD_setWidth, BitVec.getLsbD_setWidth, signExtend, BitVec.getLsbD_sshiftRight]
  simp [hi, hlt, hi', hle', hshift]

end Ty

namespace BinOp

variable {op : BinOp} {ty : Ty} {a b c w : Word}

theorem fits_of_fold (h : op.fold a b ty = some w) : ty.Fits w := by
  obtain ⟨u, _, rfl⟩ := Option.map_eq_some_iff.1 h
  exact ty.fits_and_mask u

theorem fold_comm (hop : op.isCommutative = true) (a b : Word) (ty : Ty) :
    op.fold a b ty = op.fold b a ty := by
  cases op with
  | add => simp only [fold, raw, BitVec.add_comm]
  | mul => simp only [fold, raw, BitVec.mul_comm]
  | and => simp only [fold, raw, BitVec.and_comm]
  | or => simp only [fold, raw, BitVec.or_comm]
  | xor => simp only [fold, raw, BitVec.xor_comm]
  | _ => cases hop

/-- A difference is the sum with the negated operand. -/
theorem fold_sub_eq_add (a c : Word) (ty : Ty) :
    BinOp.sub.fold a c ty = BinOp.add.fold a ((0 - c) &&& ty.mask) ty := by
  have hzero : (0 : Word).setWidth ty.bits = 0 := BitVec.setWidth_zero _ _
  simp only [fold, raw, Option.map_some, Option.some.injEq]
  rw [Ty.and_mask_eq_iff, Ty.setWidth_sub]
  simp only [BitVec.setWidth_add _ _ ty.bits_le, Ty.setWidth_and_mask, Ty.setWidth_sub, hzero]
  rw [BitVec.sub_eq_add_neg, BitVec.ofNat_eq_ofNat, BitVec.zero_sub]

/-- Constants along a chain of one operation. -/
theorem fold_assoc (hop : op.isAssociative = true) (a b c : Word) (ty : Ty) :
    (op.fold a b ty).bind (op.fold · c ty) = (op.fold b c ty).bind (op.fold a · ty) := by
  have hle := ty.bits_le
  cases op with
  | add =>
    simp only [fold, raw, Option.map_some, Option.bind_some, Option.some.injEq]
    rw [Ty.and_mask_eq_iff]
    simp only [BitVec.setWidth_add _ _ hle, Ty.setWidth_and_mask, BitVec.add_assoc]
  | mul =>
    simp only [fold, raw, Option.map_some, Option.bind_some, Option.some.injEq]
    rw [Ty.and_mask_eq_iff]
    simp only [BitVec.setWidth_mul _ _ hle, Ty.setWidth_and_mask, BitVec.mul_assoc]
  | and =>
    simp only [fold, raw, Option.map_some, Option.bind_some, Option.some.injEq]
    apply BitVec.eq_of_getLsbD_eq
    intro i _
    simp only [BitVec.getLsbD_and]
    cases a.getLsbD i <;> cases b.getLsbD i <;> cases c.getLsbD i <;> cases ty.mask.getLsbD i <;> rfl
  | or =>
    simp only [fold, raw, Option.map_some, Option.bind_some, Option.some.injEq]
    rw [Ty.and_mask_eq_iff]
    simp only [BitVec.setWidth_or, Ty.setWidth_and_mask, BitVec.or_assoc]
  | xor =>
    simp only [fold, raw, Option.map_some, Option.bind_some, Option.some.injEq]
    rw [Ty.and_mask_eq_iff]
    simp only [BitVec.setWidth_xor, Ty.setWidth_and_mask, BitVec.xor_assoc]
  | _ => cases hop

/-! ### Neutral and absorbing operands -/

/-- The operations that zero on the right leaves alone. -/
def keepsAtZero : BinOp → Bool
  | add | sub | or | xor | shl | lshr | ashr => true
  | _ => false

theorem fold_zero (hop : op.keepsAtZero = true) (h : ty.Fits a) : op.fold a 0 ty = some a := by
  have ha : a &&& ty.mask = a := h
  cases op with
  | ashr => simp [fold, raw, ha, ty.bits_pos, Ty.signExtend_and_mask]
  | shl => simp [fold, raw, ha, ty.bits_pos]
  | lshr => simp [fold, raw, ha, ty.bits_pos]
  | add => simp [fold, raw, ha]
  | sub => simp [fold, raw, ha]
  | or => simp [fold, raw, ha]
  | xor => simp [fold, raw, ha]
  | _ => cases hop

theorem fold_mul_zero (a : Word) (ty : Ty) : BinOp.mul.fold a 0 ty = some 0 := by
  simp [fold, raw]

theorem fold_and_zero (a : Word) (ty : Ty) : BinOp.and.fold a 0 ty = some 0 := by
  simp [fold, raw]

theorem fold_and_mask (h : ty.Fits a) : BinOp.and.fold a ty.mask ty = some a := by
  have ha : a &&& ty.mask = a := h
  simp only [fold, raw, BitVec.and_self, ha, Option.map_some]

theorem fold_or_mask (a : Word) (ty : Ty) : BinOp.or.fold a ty.mask ty = some ty.mask := by
  simp only [fold, raw, BitVec.and_self, Option.map_some, Option.some.injEq]
  apply BitVec.eq_of_getLsbD_eq
  intro i _
  simp only [BitVec.getLsbD_and, BitVec.getLsbD_or]
  cases a.getLsbD i <;> cases ty.mask.getLsbD i <;> rfl

theorem one_and_mask (ty : Ty) : 1#64 &&& ty.mask = 1#64 := by
  cases ty <;> decide

theorem fold_mul_one (h : ty.Fits a) : BinOp.mul.fold a 1 ty = some a := by
  have ha : a &&& ty.mask = a := h
  simp [fold, raw, ha, one_and_mask]

theorem fold_udiv_one (h : ty.Fits a) : BinOp.udiv.fold a 1 ty = some a := by
  have ha : a &&& ty.mask = a := h
  simp [fold, raw, ha, one_and_mask]

/-- At a single bit, one is minus one; a quotient by it is the same bit all the same. -/
theorem fold_sdiv_one (h : ty.Fits a) : BinOp.sdiv.fold a 1 ty = some a := by
  by_cases hbit : ty = .i1
  · subst hbit
    have hlt := Ty.toNat_lt_of_fits h
    have hcases : a = 0 ∨ a = 1 := by
      rcases Nat.lt_or_ge a.toNat 1 with hzero | hone
      · exact .inl (BitVec.eq_of_toNat_eq (by simpa using hzero))
      · refine .inr (BitVec.eq_of_toNat_eq ?_)
        simp only [Ty.bits] at hlt
        simp
        omega
    rcases hcases with rfl | rfl <;> decide
  · have hone : signExtend 1#64 ty = 1#64 := by
      cases ty with
      | i1 => exact absurd rfl hbit
      | _ => decide
    have hdivides : signedDivides (signExtend a ty) 1#64 = true := by simp [signedDivides]
    have ha : a &&& ty.mask = a := h
    simp [fold, raw, ha, one_and_mask, hone, hdivides, Ty.signExtend_and_mask]

/-! ### Twice the same operand -/

theorem fold_sub_self (a : Word) (ty : Ty) : BinOp.sub.fold a a ty = some 0 := by
  simp [fold, raw]

theorem fold_xor_self (a : Word) (ty : Ty) : BinOp.xor.fold a a ty = some 0 := by
  simp [fold, raw]

theorem fold_and_self (h : ty.Fits a) : BinOp.and.fold a a ty = some a := by
  have ha : a &&& ty.mask = a := h
  simp only [fold, raw, BitVec.and_self, ha, Option.map_some]

theorem fold_or_self (h : ty.Fits a) : BinOp.or.fold a a ty = some a := by
  have ha : a &&& ty.mask = a := h
  simp only [fold, raw, BitVec.or_self, ha, Option.map_some]

end BinOp

theorem Predicate.fold_self (p : Predicate) (a : Word) (ty : Ty) :
    p.fold a a ty = p.isReflexive := by
  cases p <;> simp [fold, isReflexive]

namespace CastOp

variable {source target : Ty} {a : Word}

theorem fits_fold (op : CastOp) (a : Word) (source target : Ty) :
    target.Fits (op.fold a source target) :=
  target.fits_and_mask _

/-- To a type that is no narrower, and back. -/
theorem fold_back {op back : CastOp} (hback : back ≠ .sext) (h : source.Fits a)
    (hle : source.bits ≤ target.bits) : back.fold (op.fold a source target) target source = a := by
  have ha : a &&& source.mask = a := h
  have hkeep : ∀ w : Word, back.fold (w &&& target.mask) target source = w &&& source.mask := by
    intro w
    cases back with
    | sext => exact absurd rfl hback
    | _ =>
      simp only [fold]
      rw [BitVec.and_assoc w, BitVec.and_self, BitVec.and_assoc, Ty.mask_and_mask hle]
  refine (hkeep _).trans ?_
  cases op with
  | sext => simp only [Ty.signExtend_and_mask, ha]
  | _ => simp only [ha]

end CastOp

end BinaryLift
