import BinaryLift.Proofs.Scalar.Laws

/-!
# Words as two's-complement numbers

An operation at a type is the operation of bit vectors of the type's width: only the low bits of the
operands count, and the high bits of the result are zero. It is undefined for a division by zero, for
a shift by the width or more, and at the width of a word also for the signed quotient that is no
signed word. A narrower quotient of that kind wraps.
-/

namespace BinaryLift

variable {ty : Ty} {lhs rhs : Word} {op : BinOp}

theorem Ty.and_mask_eq_setWidth (ty : Ty) (w : Word) :
    w &&& ty.mask = (w.setWidth ty.bits).setWidth 64 := by
  apply BitVec.eq_of_toNat_eq
  have hlt : w.toNat % 2 ^ ty.bits < 2 ^ 64 :=
    Nat.lt_of_le_of_lt (Nat.mod_le _ _) w.isLt
  rw [BitVec.toNat_and, toNat_mask, Nat.and_two_pow_sub_one_eq_mod, BitVec.toNat_setWidth,
    BitVec.toNat_setWidth, Nat.mod_eq_of_lt hlt]

theorem Ty.toNat_and_mask (ty : Ty) (w : Word) :
    (w &&& ty.mask).toNat = (w.setWidth ty.bits).toNat := by
  rw [BitVec.toNat_and, toNat_mask, Nat.and_two_pow_sub_one_eq_mod, BitVec.toNat_setWidth]

/-! ### Signed payloads -/

theorem signExtend_eq (w : Word) (ty : Ty) :
    signExtend w ty = (w.setWidth ty.bits).signExtend 64 := by
  have hpos := ty.bits_pos
  have hle := ty.bits_le
  apply BitVec.eq_of_getLsbD_eq
  intro i hi
  have hle' : ¬ 64 ≤ i := by omega
  rw [signExtend, BitVec.getLsbD_sshiftRight, BitVec.getLsbD_signExtend]
  by_cases hlow : i < ty.bits
  · have hlt : 64 - ty.bits + i < 64 := by omega
    have hshift : ¬ 64 - ty.bits + i < 64 - ty.bits := by omega
    simp [hi, hle', hlow, hlt, hshift]
  · have hlt : ¬ 64 - ty.bits + i < 64 := by omega
    have hlast : ty.bits - 1 < ty.bits := by omega
    have hbound : ¬ 63 < 64 - ty.bits := by omega
    simp only [hi, hle', hlow, hlt, hlast, BitVec.msb_eq_getLsbD_last, BitVec.getLsbD_shiftLeft,
      BitVec.getLsbD_setWidth, hbound, show 64 - 1 - (64 - ty.bits) = ty.bits - 1 by omega]
    simp

theorem toInt_signExtend (w : Word) (ty : Ty) :
    (signExtend w ty).toInt = (w.setWidth ty.bits).toInt := by
  rw [signExtend_eq, BitVec.toInt_signExtend_of_le ty.bits_le]

/-- A word that is cut to a width keeps its signed reading as far as the width goes. -/
theorem toInt_setWidth_of_le {n : Nat} (hn : n ≤ 64) (w : Word) :
    (w.setWidth n).toInt = w.toInt.bmod (2 ^ n) := by
  rw [← BitVec.signExtend_eq_setWidth_of_le w hn, BitVec.toInt_signExtend, Nat.min_eq_left hn]

theorem setWidth_of_toNat_eq {n : Nat} {w : Word} {u : BitVec n} (h : w.toNat = u.toNat) :
    w.setWidth n = u := by
  apply BitVec.eq_of_toNat_eq
  rw [BitVec.toNat_setWidth, h, Nat.mod_eq_of_lt u.isLt]

theorem setWidth_of_toInt_eq {n : Nat} (hn : n ≤ 64) {w : Word} {u : BitVec n}
    (h : w.toInt = u.toInt) : w.setWidth n = u := by
  apply BitVec.eq_of_toInt_eq
  rw [toInt_setWidth_of_le hn, h, BitVec.toInt_bmod_cancel]

/-- The quotient wraps twice, at the word and at the width, which comes to once at the width. -/
theorem setWidth_sdiv (x y : Word) (ty : Ty) :
    ((signExtend x ty).sdiv (signExtend y ty)).setWidth ty.bits =
      (x.setWidth ty.bits).sdiv (y.setWidth ty.bits) := by
  have hdvd : 2 ^ ty.bits ∣ 2 ^ 64 := Nat.pow_dvd_pow 2 ty.bits_le
  apply BitVec.eq_of_toInt_eq
  rw [toInt_setWidth_of_le ty.bits_le, BitVec.toInt_sdiv, BitVec.toInt_sdiv,
    Int.bmod_bmod_of_dvd hdvd, toInt_signExtend, toInt_signExtend]

theorem setWidth_srem (x y : Word) (ty : Ty) :
    ((signExtend x ty).srem (signExtend y ty)).setWidth ty.bits =
      (x.setWidth ty.bits).srem (y.setWidth ty.bits) := by
  apply setWidth_of_toInt_eq ty.bits_le
  rw [BitVec.toInt_srem, BitVec.toInt_srem, toInt_signExtend, toInt_signExtend]

theorem setWidth_sshiftRight (x : Word) (k : Nat) (ty : Ty) :
    ((signExtend x ty).sshiftRight k).setWidth ty.bits = (x.setWidth ty.bits).sshiftRight k := by
  apply setWidth_of_toInt_eq ty.bits_le
  rw [BitVec.toInt_sshiftRight, BitVec.toInt_sshiftRight, toInt_signExtend]

theorem signExtend_eq_zero_iff (w : Word) (ty : Ty) :
    signExtend w ty = 0 ↔ w.setWidth ty.bits = 0 := by
  rw [← BitVec.toInt_inj, ← BitVec.toInt_inj, toInt_signExtend]
  simp

/-- Only at the width of a word is the least payload the least word. -/
theorem bits_eq_of_signExtend_eq_intMin {w : Word} (h : signExtend w ty = BitVec.intMin 64) :
    ty.bits = 64 := by
  have hpos := ty.bits_pos
  have hle := ty.bits_le
  have hleast : (w.setWidth ty.bits).toInt = -2 ^ 63 := by
    rw [← toInt_signExtend, h]
    decide
  have hbound := BitVec.le_toInt (w.setWidth ty.bits)
  by_contra hne
  have hpow : 2 ^ (ty.bits - 1) ≤ 2 ^ 62 := Nat.pow_le_pow_right (by decide) (by omega)
  have hpow' : (2 : Int) ^ (ty.bits - 1) ≤ 2 ^ 62 := by exact_mod_cast hpow
  rw [hleast] at hbound
  omega

theorem signExtend_of_bits_eq (h : ty.bits = 64) (w : Word) : signExtend w ty = w := by
  have hfits := Ty.fits_of_bits_eq h (signExtend w ty)
  rw [← hfits, Ty.signExtend_and_mask]
  exact Ty.fits_of_bits_eq h w

namespace BinOp

/-! ### Operations on bit vectors -/

/-- The operation on bit vectors of any width. -/
def onBits {n : Nat} (op : BinOp) (x y : BitVec n) : BitVec n :=
  match op with
  | add => x + y
  | sub => x - y
  | mul => x * y
  | udiv => x / y
  | sdiv => x.sdiv y
  | urem => x % y
  | srem => x.srem y
  | and => x &&& y
  | or => x ||| y
  | xor => x ^^^ y
  | shl => x <<< y
  | lshr => x >>> y
  | ashr => x.sshiftRight' y

@[simp]
def isDivision : BinOp → Bool
  | udiv | sdiv | urem | srem => true
  | _ => false

@[simp]
def isSignedDivision : BinOp → Bool
  | sdiv | srem => true
  | _ => false

@[simp]
def isShift : BinOp → Bool
  | shl | lshr | ashr => true
  | _ => false

/-- A division by zero or a shift by the width or more. -/
def Undefined {n : Nat} (op : BinOp) (y : BitVec n) : Prop :=
  (op.isDivision = true ∧ y = 0) ∨ (op.isShift = true ∧ n ≤ y.toNat)

/-- A signed division of the least word by minus one. -/
def Overflows (op : BinOp) (x y : Word) (ty : Ty) : Prop :=
  op.isSignedDivision = true ∧ ty.bits = 64 ∧ x = BitVec.intMin 64 ∧ y = -1

instance {n : Nat} (op : BinOp) (y : BitVec n) : Decidable (op.Undefined y) :=
  inferInstanceAs (Decidable (_ ∨ _))

instance (op : BinOp) (x y : Word) (ty : Ty) : Decidable (op.Overflows x y ty) :=
  inferInstanceAs (Decidable (_ ∧ _))

theorem signedDivides_eq_false_iff (x y : Word) (ty : Ty) :
    signedDivides (signExtend x ty) (signExtend y ty) = false ↔
      y.setWidth ty.bits = 0 ∨ (ty.bits = 64 ∧ x = BitVec.intMin 64 ∧ y = -1) := by
  have hdivides : signedDivides (signExtend x ty) (signExtend y ty) = false ↔
      signExtend y ty = 0 ∨ (signExtend x ty = BitVec.intMin 64 ∧ signExtend y ty = -1) := by
    simp [signedDivides]
    tauto
  rw [hdivides, signExtend_eq_zero_iff]
  apply or_congr_right
  constructor
  · rintro ⟨hx, hy⟩
    have hbits := bits_eq_of_signExtend_eq_intMin hx
    rw [signExtend_of_bits_eq hbits] at hx hy
    exact ⟨hbits, hx, hy⟩
  · rintro ⟨hbits, hx, hy⟩
    rw [signExtend_of_bits_eq hbits, signExtend_of_bits_eq hbits]
    exact ⟨hx, hy⟩

theorem overflows_and_mask (op : BinOp) (x y : Word) (ty : Ty) :
    op.Overflows (x &&& ty.mask) (y &&& ty.mask) ty ↔ op.Overflows x y ty := by
  unfold Overflows
  apply and_congr_right
  intro _
  apply and_congr_right
  intro hbits
  rw [Ty.fits_of_bits_eq hbits x, Ty.fits_of_bits_eq hbits y]

/-- When an operation on operands that have been cut has no result. -/
theorem raw_eq_none_iff (op : BinOp) {b : Word} (hb : ty.Fits b) (a : Word) :
    op.raw a b ty = none ↔ op.Undefined (b.setWidth ty.bits) ∨ op.Overflows a b ty := by
  have hnat : (b.setWidth ty.bits).toNat = b.toNat := by rw [← Ty.toNat_and_mask, hb]
  have hzero : b = BitVec.ofNat 64 0 ↔ b.setWidth ty.bits = BitVec.ofNat ty.bits 0 := by
    rw [← BitVec.toNat_inj, ← BitVec.toNat_inj, hnat]
    simp
  have hdivides := signedDivides_eq_false_iff a b ty
  cases op with
  | udiv => simp [raw, Undefined, Overflows, hzero]
  | urem => simp [raw, Undefined, Overflows, hzero]
  | sdiv => simp [raw, Undefined, Overflows, hdivides]
  | srem => simp [raw, Undefined, Overflows, hdivides]
  | shl => simp [raw, Undefined, Overflows, hnat]
  | lshr => simp [raw, Undefined, Overflows, hnat]
  | ashr => simp [raw, Undefined, Overflows, hnat]
  | _ => simp [raw, Undefined, Overflows]

/-- Before the last cut, the low bits of the result are those of the operation at the width. -/
theorem setWidth_raw {a b w : Word} (ha : ty.Fits a) (hb : ty.Fits b) (h : op.raw a b ty = some w) :
    w.setWidth ty.bits = op.onBits (a.setWidth ty.bits) (b.setWidth ty.bits) := by
  have hle := ty.bits_le
  have hnat : ∀ {v : Word}, ty.Fits v → (v.setWidth ty.bits).toNat = v.toNat := by
    intro v hv
    rw [← Ty.toNat_and_mask, hv]
  cases op with
  | add =>
    cases h
    exact BitVec.setWidth_add a b hle
  | sub =>
    cases h
    exact Ty.setWidth_sub ty a b
  | mul =>
    cases h
    exact BitVec.setWidth_mul a b hle
  | udiv =>
    obtain ⟨_, rfl⟩ : b ≠ 0 ∧ a / b = w := by simpa [raw] using h
    apply setWidth_of_toNat_eq
    rw [onBits, BitVec.toNat_udiv, BitVec.toNat_udiv, hnat ha, hnat hb]
  | urem =>
    obtain ⟨_, rfl⟩ : b ≠ 0 ∧ a % b = w := by simpa [raw] using h
    apply setWidth_of_toNat_eq
    rw [onBits, BitVec.toNat_umod, BitVec.toNat_umod, hnat ha, hnat hb]
  | sdiv =>
    obtain ⟨_, rfl⟩ : _ ∧ (signExtend a ty).sdiv (signExtend b ty) = w := by simpa [raw] using h
    exact setWidth_sdiv a b ty
  | srem =>
    obtain ⟨_, rfl⟩ : _ ∧ (signExtend a ty).srem (signExtend b ty) = w := by simpa [raw] using h
    exact setWidth_srem a b ty
  | and =>
    cases h
    exact BitVec.setWidth_and
  | or =>
    cases h
    exact BitVec.setWidth_or
  | xor =>
    cases h
    exact BitVec.setWidth_xor
  | shl =>
    obtain ⟨_, rfl⟩ : b.toNat < ty.bits ∧ a <<< b.toNat = w := by simpa [raw] using h
    rw [BitVec.setWidth_shiftLeft_of_le hle, onBits, BitVec.shiftLeft_eq', hnat hb]
  | lshr =>
    obtain ⟨_, rfl⟩ : b.toNat < ty.bits ∧ a >>> b.toNat = w := by simpa [raw] using h
    apply setWidth_of_toNat_eq
    rw [onBits, BitVec.ushiftRight_eq', BitVec.toNat_ushiftRight, BitVec.toNat_ushiftRight, hnat ha,
      hnat hb]
  | ashr =>
    obtain ⟨_, rfl⟩ : b.toNat < ty.bits ∧ (signExtend a ty).sshiftRight b.toNat = w := by
      simpa [raw] using h
    rw [setWidth_sshiftRight, onBits, BitVec.sshiftRight_eq', hnat hb]

theorem fold_congr {lhs' rhs' : Word} (hlhs : lhs'.setWidth ty.bits = lhs.setWidth ty.bits)
    (hrhs : rhs'.setWidth ty.bits = rhs.setWidth ty.bits) :
    op.fold lhs' rhs' ty = op.fold lhs rhs ty := by
  rw [fold, fold, (Ty.and_mask_eq_iff ty lhs' lhs).2 hlhs, (Ty.and_mask_eq_iff ty rhs' rhs).2 hrhs]

theorem fold_eq_none_iff (op : BinOp) (lhs rhs : Word) (ty : Ty) :
    op.fold lhs rhs ty = none ↔
      op.Undefined (rhs.setWidth ty.bits) ∨ op.Overflows lhs rhs ty := by
  rw [fold, Option.map_eq_none_iff, raw_eq_none_iff op (ty.fits_and_mask rhs),
    Ty.setWidth_and_mask, overflows_and_mask]

theorem fold_eq_some {w : Word} (h : op.fold lhs rhs ty = some w) :
    w = (op.onBits (lhs.setWidth ty.bits) (rhs.setWidth ty.bits)).setWidth 64 := by
  obtain ⟨u, hu, rfl⟩ := Option.map_eq_some_iff.1 h
  have hbits := setWidth_raw (ty.fits_and_mask lhs) (ty.fits_and_mask rhs) hu
  rw [Ty.and_mask_eq_setWidth, hbits, Ty.setWidth_and_mask, Ty.setWidth_and_mask]

/-- The whole meaning of an operation at a type. -/
theorem fold_twosComplement (op : BinOp) (lhs rhs : Word) (ty : Ty) :
    (op.fold lhs rhs ty = none ↔ op.Undefined (rhs.setWidth ty.bits) ∨ op.Overflows lhs rhs ty) ∧
    (¬ (op.Undefined (rhs.setWidth ty.bits) ∨ op.Overflows lhs rhs ty) →
      op.fold lhs rhs ty =
        some ((op.onBits (lhs.setWidth ty.bits) (rhs.setWidth ty.bits)).setWidth 64)) ∧
    ∀ lhs' rhs' : Word, lhs'.setWidth ty.bits = lhs.setWidth ty.bits →
      rhs'.setWidth ty.bits = rhs.setWidth ty.bits →
      op.fold lhs' rhs' ty = op.fold lhs rhs ty := by
  refine ⟨fold_eq_none_iff op lhs rhs ty, ?_, fun _ _ => fold_congr⟩
  intro hdefined
  rw [← fold_eq_none_iff op lhs rhs ty] at hdefined
  obtain ⟨w, hw⟩ := Option.ne_none_iff_exists'.1 hdefined
  rw [hw, fold_eq_some hw]

/-- A narrower quotient that does not fit wraps. -/
example : BinOp.sdiv.fold 0x80 0xff .i8 = some 0x80 := by decide

/-- The undefined operations are not all that have no result: the least word divided by minus one
has none either. -/
theorem not_only_undefined : ¬ ∀ (op : BinOp) (lhs rhs : Word) (ty : Ty),
    op.fold lhs rhs ty = none ↔ op.Undefined (rhs.setWidth ty.bits) := by
  intro h
  have hnone : BinOp.sdiv.fold (BitVec.intMin 64) (-1) .i64 = none := by decide
  have hundefined := (h .sdiv (BitVec.intMin 64) (-1) .i64).1 hnone
  revert hundefined
  decide

end BinOp

end BinaryLift
