import BinaryLift.Proofs.Program.Checks
import BinaryLift.Proofs.Transform.StackSteps

/-!
# Stack slots and pointer arithmetic

A slot is found under the offset read with its sign, while pointer arithmetic adds the payload as it
is. The two come to the same word unless the constant is narrower than a pointer and its highest bit
is set. For all other constants slots are what the addresses say: those of one slot are equal, and
accesses to two slots share no byte, around the end of the address space too.
-/

namespace BinaryLift

/-! ### Offsets with and without a sign -/

namespace Constant

/-- The payload is the same word whether it is read with a sign or without. -/
def SignFree (c : Constant) : Prop := c.ty.bits = 64 ∨ c.bits.toNat < 2 ^ (c.ty.bits - 1)

instance (c : Constant) : Decidable c.SignFree := inferInstanceAs (Decidable (_ ∨ _))

theorem ofInt_signed_eq (c : Constant) : BitVec.ofInt 64 c.signed = signExtend c.bits c.ty :=
  BitVec.ofInt_toInt

/-- A payload below the sign bit is moved to the top and back. -/
theorem signExtend_of_lt {w : Word} {ty : Ty} (h : w.toNat < 2 ^ (ty.bits - 1)) :
    signExtend w ty = w := by
  have hpos := ty.bits_pos
  have hle := ty.bits_le
  have hpow : 2 ^ (ty.bits - 1) * 2 ^ (64 - ty.bits) = 2 ^ 63 := by
    rw [← Nat.pow_add]
    congr 1
    omega
  have hlt : w.toNat * 2 ^ (64 - ty.bits) < 2 ^ 63 := by
    rw [← hpow]
    exact (Nat.mul_lt_mul_right (Nat.two_pow_pos _)).2 h
  have hshift : (w <<< (64 - ty.bits)).toNat = w.toNat * 2 ^ (64 - ty.bits) := by
    rw [BitVec.toNat_shiftLeft, Nat.shiftLeft_eq, Nat.mod_eq_of_lt (by omega)]
  have hmsb : (w <<< (64 - ty.bits)).msb = false := by
    rw [BitVec.msb_eq_decide, hshift]
    exact decide_eq_false (by omega)
  rw [signExtend, BitVec.sshiftRight_eq_of_msb_false hmsb]
  apply BitVec.eq_of_toNat_eq
  rw [BitVec.toNat_ushiftRight, hshift, Nat.shiftRight_eq_div_pow,
    Nat.mul_div_cancel _ (Nat.two_pow_pos _)]

/-- The sign bit comes to the top and stays there. -/
theorem msb_signExtend (w : Word) (ty : Ty) : (signExtend w ty).msb = w.getLsbD (ty.bits - 1) := by
  have hpos := ty.bits_pos
  have hle := ty.bits_le
  have hbound : ¬ 63 < 64 - ty.bits := by omega
  rw [signExtend, BitVec.msb_sshiftRight, BitVec.msb_eq_getLsbD_last, BitVec.getLsbD_shiftLeft]
  simp only [hbound, show 64 - 1 - (64 - ty.bits) = ty.bits - 1 by omega]
  simp

theorem ofInt_signed_eq_iff (c : Constant) : BitVec.ofInt 64 c.signed = c.bits ↔ c.SignFree := by
  have hpos := c.ty.bits_pos
  have hle := c.ty.bits_le
  rw [ofInt_signed_eq]
  by_cases hlow : c.bits.toNat < 2 ^ (c.ty.bits - 1)
  · exact iff_of_true (signExtend_of_lt hlow) (.inr hlow)
  by_cases hwide : c.ty.bits = 64
  · refine iff_of_true ?_ (.inl hwide)
    rw [← Ty.fits_of_bits_eq hwide (signExtend c.bits c.ty), Ty.signExtend_and_mask, c.masked]
  · refine iff_of_false (fun heq => ?_) fun h => h.elim hwide hlow
    -- the sign bit would be the highest bit of a payload that has none up there
    have hfits : c.bits.toNat < 2 ^ c.ty.bits := Ty.toNat_lt_of_fits c.masked
    have hpow : 2 ^ c.ty.bits ≤ 2 ^ 63 := Nat.pow_le_pow_right (by decide) (by omega)
    have hmsb := congrArg BitVec.msb heq
    rw [msb_signExtend, BitVec.msb_eq_decide, decide_eq_false (by omega)] at hmsb
    have hdouble : 2 ^ c.ty.bits = 2 * 2 ^ (c.ty.bits - 1) := by
      rw [← Nat.pow_succ']
      congr 1
      omega
    have hbit : c.bits.getLsbD (c.ty.bits - 1) = true := by
      rw [BitVec.getLsbD, Nat.testBit_eq_decide_div_mod_eq]
      have hdiv : c.bits.toNat / 2 ^ (c.ty.bits - 1) = 1 :=
        Nat.div_eq_of_lt_le (by omega) (by omega)
      rw [hdiv]
      rfl
    rw [hbit] at hmsb
    cases hmsb

end Constant

/-! ### One slot for each offset -/

theorem Table.nodup_insert {κ ν : Type} [DecidableEq κ] {t : Table κ ν} (h : t.keys.Nodup) (key : κ)
    (value : ν) : (t.insert key value).keys.Nodup := by
  rw [Table.keys_insert]
  split
  · exact h
  · rename_i hnew
    rw [← List.concat_eq_append]
    exact h.concat hnew

namespace Func

variable {f : Func} {stack : Value} {slots slots' : StackSlots} {x y : Int × StackSlot}
  {a b : InstId} {c d : Constant} {n k : Nat}

/-- A use of the stack parameter is written under one offset, or not at all. -/
theorem addStackUse_cases {u : User} (h : f.addStackUse stack slots u = .ok (some slots')) :
    slots' = slots ∨ ∃ offset slot, slots' = slots.insert offset slot := by
  cases u with
  | term e => cases h
  | inst id =>
    obtain ⟨kind, _, h⟩ := bind_eq_ok.1 h
    split at h
    · split at h
      · cases h
      obtain ⟨width, _, h⟩ := bind_eq_ok.1 h
      split at h
      · cases h
      · cases h
        exact .inl rfl
      · simp only at h
        split at h
        · cases h
        · cases h
          exact .inr ⟨_, _, rfl⟩
    · cases h

theorem addStackUses_nodup (users : List User) : ∀ {slots slots' : StackSlots}, slots.keys.Nodup →
    f.addStackUses stack slots users = .ok (some slots') → slots'.keys.Nodup := by
  induction users with
  | nil =>
    intro slots slots' hkeys h
    cases h
    exact hkeys
  | cons u users ih =>
    intro slots slots' hkeys h
    obtain ⟨found, huse, h⟩ := bind_eq_ok.1 h
    cases found with
    | none => cases h
    | some slots₁ =>
      refine ih ?_ h
      rcases addStackUse_cases huse with rfl | ⟨offset, slot, rfl⟩
      · exact hkeys
      · exact Table.nodup_insert hkeys offset slot

/-- No two slots have the same offset. -/
theorem stackSlots_nodup (h : f.stackSlots stack = .ok (some slots)) : slots.keys.Nodup := by
  obtain ⟨found, hadd, h⟩ := bind_eq_ok.1 h
  cases found with
  | none => cases h
  | some found =>
    have hstart : (Table.keys ([] : StackSlots)).Nodup := List.nodup_nil
    have hkeys := addStackUses_nodup _ hstart hadd
    simp only at h
    split at h
    · cases h
      exact ((List.mergeSort_perm found _).map _).nodup_iff.2 hkeys
    · cases h

/-! ### Slots and addresses -/

/-- The instruction `a` is one of those that compute the address of the slot `x`: it adds `c` to the
stack parameter. -/
structure SlotAddress (f : Func) (stack : Value) (slots : StackSlots) (x : Int × StackSlot)
    (a : InstId) (c : Constant) : Prop where
  slot : x ∈ slots
  address : a ∈ x.2.addresses
  inst : ∃ ty, f.inst? a = some ⟨.ptrAdd stack (.const c), ty⟩

/-- A load or a store goes through the address `a`, at a type of `n` bytes. -/
def Reaches (f : Func) (a : InstId) (n : Nat) : Prop :=
  ∃ b id ty, id ∈ f.instsOf b ∧ f.access? id = some (.inst a, ty) ∧ ty.bytes = n

theorem IsAddress.width_eq {offset : Int} {width : Nat} (h : f.IsAddress stack offset width a)
    (hn : f.Reaches a n) : n = width := by
  obtain ⟨b, id, ty, hid, haccess, rfl⟩ := hn
  obtain ⟨i, hi, _, hop⟩ := operand_of_access? haccess
  obtain ⟨data, hdata, hin⟩ := exists_block_of_mem hid
  have huser : .inst id ∈ f.usersOf (.inst a) :=
    mem_usersOf.2 ⟨b, data, hdata, .inl ⟨id, i, hin, hi, hop, rfl⟩⟩
  obtain ⟨_, i', ty', heq, hi', hacc, hwidth⟩ := h.users _ huser
  cases heq
  have hty := (hacc.access? hi').symm.trans haccess
  cases hty
  exact hwidth

theorem SlotAddress.isAddress (hs : f.StackSplit stack slots) (h : f.SlotAddress stack slots x a c) :
    f.IsAddress stack x.1 x.2.width a :=
  hs.address x h.slot a h.address

theorem SlotAddress.offset_eq (hs : f.StackSplit stack slots)
    (h : f.SlotAddress stack slots x a c) : x.1 = c.signed := by
  obtain ⟨_, _, hi, hoffset⟩ := (h.isAddress hs).offset
  obtain ⟨_, hi'⟩ := h.inst
  rw [hi] at hi'
  cases hi'
  exact hoffset.symm

/-- Slots are what the offsets with their signs say. -/
theorem stackSlots_follow_signed (h : f.stackSlots stack = .ok (some slots))
    (hx : f.SlotAddress stack slots x a c) (hy : f.SlotAddress stack slots y b d) (p : Word) :
    (x = y ↔ p + signExtend c.bits c.ty = p + signExtend d.bits d.ty) ∧
    (x ≠ y → ∀ n k, f.Reaches a n → f.Reaches b k → ∀ i < n, ∀ j < k,
      p + signExtend c.bits c.ty + BitVec.ofNat 64 i ≠
        p + signExtend d.bits d.ty + BitVec.ofNat 64 j) := by
  have hs := stackSlots_spec h
  rw [← c.ofInt_signed_eq, ← d.ofInt_signed_eq, ← hx.offset_eq hs, ← hy.offset_eq hs]
  obtain ⟨hlow, hhigh⟩ := hs.bounds x hx.slot
  obtain ⟨hlow', hhigh'⟩ := hs.bounds y hy.slot
  refine ⟨⟨fun heq => by rw [heq], fun heq => ?_⟩, fun hne n k hn hk i hi j hj heq => ?_⟩
  · have hfirst : behind p x.1 0 = behind p y.1 0 := by rw [behind, behind, heq]
    have hsame : x.1 + (0 : Nat) = y.1 + (0 : Nat) :=
      behind_inj (by omega) (by omega) (by omega) (by omega) hfirst
    exact List.inj_on_of_nodup_map (stackSlots_nodup h) hx.slot hy.slot (by omega)
  · rw [(hx.isAddress hs).width_eq hn] at hi
    rw [(hy.isAddress hs).width_eq hk] at hj
    have hsame : x.1 + i = y.1 + j :=
      behind_inj (by omega) (by omega) (by omega) (by omega) heq
    obtain ⟨m, hm⟩ := List.mem_iff_getElem?.1 hx.slot
    obtain ⟨l, hl⟩ := List.mem_iff_getElem?.1 hy.slot
    have hml : m ≠ l := by
      rintro rfl
      exact hne (Option.some.inj (hm.symm.trans hl))
    have hapart := hs.apart hm hl hml
    omega

/-- Where offsets are the same with and without a sign, two addresses are of one slot exactly if they
are equal, and what is accessed in two slots does not overlap. -/
theorem stackSlots_follow_pointers (h : f.stackSlots stack = .ok (some slots))
    (hx : f.SlotAddress stack slots x a c) (hy : f.SlotAddress stack slots y b d)
    (hc : c.SignFree) (hd : d.SignFree) (p : Word) :
    (x = y ↔ p + c.bits = p + d.bits) ∧
    (x ≠ y → ∀ n k, f.Reaches a n → f.Reaches b k → ∀ i < n, ∀ j < k,
      p + c.bits + BitVec.ofNat 64 i ≠ p + d.bits + BitVec.ofNat 64 j) := by
  have hsigned := stackSlots_follow_signed h hx hy p
  rwa [← c.ofInt_signed_eq, ← d.ofInt_signed_eq, c.ofInt_signed_eq_iff.2 hc,
    d.ofInt_signed_eq_iff.2 hd] at hsigned

/-! ### Narrow and wide offsets -/

/-- A store and a load, each with an offset of its own from the stack parameter. -/
def storeAndLoad (c d : Constant) : Func where
  name := "sample"
  params := [⟨"stack", .ptr⟩]
  ret := some .i64
  arena := #[
    ⟨⟨.ptrAdd (.arg 0) (.const c), some .ptr⟩, some ⟨0⟩⟩,
    ⟨⟨.store (.inst ⟨0⟩) (.int 5 .i64), none⟩, some ⟨0⟩⟩,
    ⟨⟨.ptrAdd (.arg 0) (.const d), some .ptr⟩, some ⟨0⟩⟩,
    ⟨⟨.load (.inst ⟨2⟩), some .i64⟩, some ⟨0⟩⟩]
  blocks := #[some {
    insts := [⟨0⟩, ⟨1⟩, ⟨2⟩, ⟨3⟩], term := .ret (some (.inst ⟨3⟩)) }]
  entry := some ⟨0⟩

/-- A narrow offset above the parameter and a wide one below it, where the address space wraps. -/
theorem storeAndLoad_apart :
    (storeAndLoad (.ofWord 0x10 .i8) (.ofWord (-8) .i64)).stackSlots (.arg 0) =
      .ok (some [(-8, ⟨8, [⟨2⟩]⟩), (16, ⟨8, [⟨0⟩]⟩)]) ∧
    (Constant.ofWord 0x10 .i8).SignFree ∧ (Constant.ofWord (-8) .i64).SignFree ∧
    ∀ i < 8, ∀ j < 8, (4 : Word) + 0x10 + BitVec.ofNat 64 i ≠ 4 + -8 + BitVec.ofNat 64 j := by
  have hslots : (storeAndLoad (.ofWord 0x10 .i8) (.ofWord (-8) .i64)).stackSlots (.arg 0) =
      .ok (some [(-8, ⟨8, [⟨2⟩]⟩), (16, ⟨8, [⟨0⟩]⟩)]) := by cbv
  have hnarrow : (Constant.ofWord 0x10 .i8).SignFree := by decide
  have hwide : (Constant.ofWord (-8) .i64).SignFree := by decide
  have hstore : (storeAndLoad (.ofWord 0x10 .i8) (.ofWord (-8) .i64)).Reaches ⟨0⟩ 8 :=
    ⟨⟨0⟩, ⟨1⟩, .i64, by decide, rfl, rfl⟩
  have hload : (storeAndLoad (.ofWord 0x10 .i8) (.ofWord (-8) .i64)).Reaches ⟨2⟩ 8 :=
    ⟨⟨0⟩, ⟨3⟩, .i64, by decide, rfl, rfl⟩
  refine ⟨hslots, hnarrow, hwide, ?_⟩
  exact (stackSlots_follow_pointers hslots
    ⟨List.mem_cons_of_mem _ List.mem_cons_self, List.mem_cons_self, _, rfl⟩
    ⟨List.mem_cons_self, List.mem_cons_self, _, rfl⟩ hnarrow hwide 4).2 (by simp) 8 8 hstore hload

/-- A narrow offset with its highest bit set shares a slot with another address, and is not in the slot
of its own. -/
theorem stackSlots_mix_addresses :
    (storeAndLoad (.ofWord 0xf8 .i8) (.ofWord (-8) .i64)).stackSlots (.arg 0) =
        .ok (some [(-8, ⟨8, [⟨0⟩, ⟨2⟩]⟩)]) ∧
      (Constant.ofWord 0xf8 .i8).bits ≠ (Constant.ofWord (-8) .i64).bits ∧
    (storeAndLoad (.ofWord 0xf8 .i8) (.ofWord 0xf8 .i64)).stackSlots (.arg 0) =
        .ok (some [(-8, ⟨8, [⟨0⟩]⟩), (248, ⟨8, [⟨2⟩]⟩)]) ∧
      (Constant.ofWord 0xf8 .i8).bits = (Constant.ofWord 0xf8 .i64).bits := by
  refine ⟨by cbv, by decide, by cbv, by decide⟩

end Func

end BinaryLift
