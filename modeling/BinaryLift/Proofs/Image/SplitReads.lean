import BinaryLift.Proofs.Image.ReadonlyReads

/-!
# Reads byte by byte

The bytes of a read are looked up one by one, so a read falls apart into two that follow each other:
it succeeds if both do, wherever sections meet or end, and the first one holds the low digits. A
shorter read at the same address therefore gives the low bytes of a longer one.
-/

namespace BinaryLift

/-! ### Byte lists -/

theorem littleEndian_append (xs ys : List Byte) :
    littleEndian (xs ++ ys) = littleEndian xs + 2 ^ (8 * xs.length) * littleEndian ys := by
  induction xs with
  | nil => simp [littleEndian]
  | cons x xs ih =>
    have hpow : 2 ^ (8 * (xs.length + 1)) = 256 * 2 ^ (8 * xs.length) := by
      rw [Nat.mul_succ, Nat.pow_add, Nat.mul_comm]
    rw [List.cons_append, littleEndian, littleEndian, ih, List.length_cons, hpow, Nat.mul_add,
      ← Nat.mul_assoc, Nat.add_assoc]

theorem littleEndian_lt (bs : List Byte) : littleEndian bs < 2 ^ (8 * bs.length) := by
  induction bs with
  | nil => decide
  | cons b rest ih =>
    have hb : b.toNat < 256 := b.isLt
    have hpow : 2 ^ (8 * (b :: rest).length) = 256 * 2 ^ (8 * rest.length) := by
      rw [List.length_cons, Nat.mul_add, Nat.pow_add, Nat.mul_comm]
    rw [hpow, littleEndian]
    omega

/-- Two steps forward reach what one step does, and there is no second step where the first one
leaves the address space. -/
theorem Word.add?_ofNat_add (a : Word) {m n : Nat} (h : m + n < 2 ^ 64) :
    Word.add? a (BitVec.ofNat 64 (m + n)) =
      (Word.add? a (BitVec.ofNat 64 m)).bind fun b => Word.add? b (BitVec.ofNat 64 n) := by
  have hnat : ∀ k, k < 2 ^ 64 → (BitVec.ofNat 64 k).toNat = k := fun k hk => by
    rw [BitVec.toNat_ofNat, Nat.mod_eq_of_lt hk]
  apply Option.ext
  intro c
  rw [Option.bind_eq_some_iff, Word.add?_eq_some, hnat _ h]
  constructor
  · intro hc
    have hlt := c.isLt
    refine ⟨BitVec.ofNat 64 (a.toNat + m), ?_, ?_⟩
    · rw [Word.add?_eq_some, hnat _ (by omega), hnat _ (by omega)]
    · rw [Word.add?_eq_some, hnat _ (by omega), hnat _ (by omega)]
      omega
  · rintro ⟨b, hb, hc⟩
    rw [Word.add?_eq_some, hnat _ (by omega)] at hb hc
    omega

namespace Image

variable {img : Image} {a v : Word} {w : Nat}

theorem length_of_bytes? {bs : List Byte} (h : img.bytes? a w = some bs) : bs.length = w := by
  rw [length_of_mapM_eq_some h, List.length_range]

/-- The bytes of a window are those of its first part and those from the end of that part on. -/
theorem bytes?_add (img : Image) (a : Word) {m n : Nat} (hn : 0 < n) (h : m + n ≤ 2 ^ 64) :
    img.bytes? a (m + n) = (do
      let xs ← img.bytes? a m
      let b ← Word.add? a (BitVec.ofNat 64 m)
      let ys ← img.bytes? b n
      return xs ++ ys) := by
  unfold bytes?
  rw [List.range_add, List.mapM_append, List.mapM_map]
  refine bind_congr fun xs => ?_
  cases hb : Word.add? a (BitVec.ofNat 64 m) with
  | none =>
    -- already the first byte of the second part has no address
    obtain ⟨k, rfl⟩ := Nat.exists_eq_succ_of_ne_zero (Nat.ne_of_gt hn)
    simp [List.range_succ_eq_map, hb]
  | some b =>
    have hsame : ∀ i ∈ List.range n,
        Word.add? a (BitVec.ofNat 64 (m + i)) = Word.add? b (BitVec.ofNat 64 i) := by
      intro i hi
      have hlt := List.mem_range.1 hi
      rw [Word.add?_ofNat_add a (by omega), hb, Option.bind_some]
    have hbytes : (List.range n).mapM
        (fun i => Word.add? a (BitVec.ofNat 64 (m + i)) >>= img.byte?) =
        (List.range n).mapM fun i => Word.add? b (BitVec.ofNat 64 i) >>= img.byte? :=
      mapM_congr fun i hi => by rw [hsame i hi]
    simp only [Function.comp_def, Option.bind_eq_bind, Option.bind_some] at hbytes ⊢
    rw [hbytes]

/-! ### Reads -/

theorem toNat_littleEndian {bs : List Byte} (h : img.bytes? a w = some bs) (hw : w ≤ 8) :
    (BitVec.ofNat 64 (littleEndian bs)).toNat = littleEndian bs := by
  have hlt := littleEndian_lt bs
  have hle : 2 ^ (8 * w) ≤ 2 ^ 64 := Nat.pow_le_pow_right (by decide) (by omega)
  rw [length_of_bytes? h] at hlt
  rw [BitVec.toNat_ofNat, Nat.mod_eq_of_lt (by omega)]

theorem read_eq_some_iff : img.read a w = some v ↔
    (0 < w ∧ w ≤ 8) ∧ ∃ bs, img.bytes? a w = some bs ∧ v.toNat = littleEndian bs := by
  unfold read
  split
  · simp only [reduceCtorEq, false_iff, not_and]
    omega
  · rename_i hw
    rw [Option.map_eq_some_iff]
    constructor
    · rintro ⟨bs, hbs, rfl⟩
      exact ⟨by omega, bs, hbs, toNat_littleEndian hbs (by omega)⟩
    · rintro ⟨_, bs, hbs, hv⟩
      exact ⟨bs, hbs, BitVec.eq_of_toNat_eq (by rw [toNat_littleEndian hbs (by omega), hv])⟩

theorem exists_read_of_bytes? {bs : List Byte} (h : img.bytes? a w = some bs) (hpos : 0 < w)
    (hw : w ≤ 8) : ∃ v, img.read a w = some v ∧ v.toNat = littleEndian bs := by
  have hnat := toNat_littleEndian h hw
  exact ⟨_, read_eq_some_iff.2 ⟨⟨hpos, hw⟩, bs, h, hnat⟩, hnat⟩

theorem toNat_lt_of_read (h : img.read a w = some v) : v.toNat < 2 ^ (8 * w) := by
  obtain ⟨_, bs, hbs, hv⟩ := read_eq_some_iff.1 h
  rw [hv, ← length_of_bytes? hbs]
  exact littleEndian_lt bs

/-- A read and the two that it consists of. -/
theorem read_add_eq_some_iff {m n : Nat} (hm : 0 < m) (hn : 0 < n) (h : m + n ≤ 8) :
    img.read a (m + n) = some v ↔ ∃ b x y, Word.add? a (BitVec.ofNat 64 m) = some b ∧
      img.read a m = some x ∧ img.read b n = some y ∧
      v.toNat = x.toNat + 2 ^ (8 * m) * y.toNat := by
  rw [read_eq_some_iff, bytes?_add img a hn (by omega)]
  constructor
  · rintro ⟨_, bs, hbs, hv⟩
    obtain ⟨xs, hxs, hrest⟩ := Option.bind_eq_some_iff.1 hbs
    obtain ⟨b, hb, hrest⟩ := Option.bind_eq_some_iff.1 hrest
    obtain ⟨ys, hys, happend⟩ := Option.bind_eq_some_iff.1 hrest
    cases happend
    obtain ⟨x, hx, hxv⟩ := exists_read_of_bytes? hxs hm (by omega)
    obtain ⟨y, hy, hyv⟩ := exists_read_of_bytes? hys hn (by omega)
    refine ⟨b, x, y, hb, hx, hy, ?_⟩
    rw [hv, littleEndian_append, length_of_bytes? hxs, hxv, hyv]
  · rintro ⟨b, x, y, hb, hx, hy, hv⟩
    obtain ⟨_, xs, hxs, hxv⟩ := read_eq_some_iff.1 hx
    obtain ⟨_, ys, hys, hyv⟩ := read_eq_some_iff.1 hy
    refine ⟨⟨by omega, h⟩, xs ++ ys, ?_, ?_⟩
    · rw [hxs, hb]
      simp only [Option.bind_eq_bind, Option.bind_some, hys]
      rfl
    · rw [hv, littleEndian_append, length_of_bytes? hxs, hxv, hyv]

/-- The two reads that follow each other make up a word. -/
theorem exists_read_add {m n : Nat} {b x y : Word} (hm : 0 < m) (hn : 0 < n) (h : m + n ≤ 8)
    (hb : Word.add? a (BitVec.ofNat 64 m) = some b) (hx : img.read a m = some x)
    (hy : img.read b n = some y) : ∃ v, img.read a (m + n) = some v := by
  have hlow := toNat_lt_of_read hx
  have hhigh := toNat_lt_of_read hy
  have hfits : x.toNat + 2 ^ (8 * m) * y.toNat < 2 ^ 64 := by
    calc x.toNat + 2 ^ (8 * m) * y.toNat
        < 2 ^ (8 * m) * (y.toNat + 1) := by rw [Nat.mul_succ]; omega
      _ ≤ 2 ^ (8 * m) * 2 ^ (8 * n) := Nat.mul_le_mul_left _ hhigh
      _ = 2 ^ (8 * (m + n)) := by rw [← Nat.pow_add, Nat.mul_add]
      _ ≤ 2 ^ 64 := Nat.pow_le_pow_right (by decide) (by omega)
  refine ⟨BitVec.ofNat 64 (x.toNat + 2 ^ (8 * m) * y.toNat), (read_add_eq_some_iff hm hn h).2
    ⟨b, x, y, hb, hx, hy, ?_⟩⟩
  rw [BitVec.toNat_ofNat, Nat.mod_eq_of_lt hfits]

/-- A shorter read gives the low bytes of a longer one. -/
theorem read_low {w' : Nat} (h : img.read a w = some v) (hpos : 0 < w') (hle : w' ≤ w) :
    ∃ v', img.read a w' = some v' ∧ v'.toNat = v.toNat % 2 ^ (8 * w') := by
  have hw := (read_eq_some_iff.1 h).1
  obtain ⟨n, rfl⟩ := Nat.exists_eq_add_of_le hle
  cases n with
  | zero => exact ⟨v, h, (Nat.mod_eq_of_lt (toNat_lt_of_read h)).symm⟩
  | succ n =>
    obtain ⟨_, x, y, _, hx, _, hv⟩ := (read_add_eq_some_iff hpos n.succ_pos hw.2).1 h
    refine ⟨x, hx, ?_⟩
    rw [hv, Nat.add_mul_mod_self_left, Nat.mod_eq_of_lt (toNat_lt_of_read hx)]

/-- A read succeeds if and only if the two reads do that it is made of, where the second one has an
address to start at; the first one gives its low digits. A shorter read at the same address gives the
low bytes of a longer one. -/
theorem read_composes (img : Image) (a : Word) :
    (∀ w₁ w₂, 1 ≤ w₁ → 1 ≤ w₂ → w₁ + w₂ ≤ 8 →
      ((img.read a (w₁ + w₂)).isSome = true ↔
        ∃ b, Word.add? a (BitVec.ofNat 64 w₁) = some b ∧ (img.read a w₁).isSome = true ∧
          (img.read b w₂).isSome = true) ∧
      ∀ v, img.read a (w₁ + w₂) = some v →
        ∃ b x y, Word.add? a (BitVec.ofNat 64 w₁) = some b ∧ img.read a w₁ = some x ∧
          img.read b w₂ = some y ∧ v.toNat = x.toNat + 2 ^ (8 * w₁) * y.toNat) ∧
    ∀ w v, img.read a w = some v → ∀ w', 1 ≤ w' → w' ≤ w →
      ∃ v', img.read a w' = some v' ∧ v'.toNat = v.toNat % 2 ^ (8 * w') := by
  refine ⟨fun w₁ w₂ h₁ h₂ h => ⟨⟨fun hsome => ?_, ?_⟩, fun v hv => ?_⟩,
    fun w v hv w' hpos hle => read_low hv hpos hle⟩
  · obtain ⟨v, hv⟩ := Option.isSome_iff_exists.1 hsome
    obtain ⟨b, x, y, hb, hx, hy, _⟩ := (read_add_eq_some_iff h₁ h₂ h).1 hv
    exact ⟨b, hb, Option.isSome_iff_exists.2 ⟨x, hx⟩, Option.isSome_iff_exists.2 ⟨y, hy⟩⟩
  · rintro ⟨b, hb, hx, hy⟩
    obtain ⟨x, hx⟩ := Option.isSome_iff_exists.1 hx
    obtain ⟨y, hy⟩ := Option.isSome_iff_exists.1 hy
    exact Option.isSome_iff_exists.2 (exists_read_add h₁ h₂ h hb hx hy)
  · exact (read_add_eq_some_iff h₁ h₂ h).1 hv

/-- Two sections side by side at the end of the address space; of the bytes of the second, only the
first one is in the file. -/
def lastSections : Image where
  base := 0xfffffffffffffff0
  sections := [
    { name := ".rdata", address := 0x8, size := 4, flags := .readable,
      data := #[0x11, 0x22, 0x33, 0x44] },
    { name := ".bss", address := 0xc, size := 4, flags := .ofRights true true false,
      data := #[0x55] }]

/-- Six bytes up to the last address, two of them from the first section. -/
theorem lastSections_read : ∃ x y,
    lastSections.read 0xfffffffffffffffa 6 = some 0x554433 ∧
    lastSections.read 0xfffffffffffffffa 3 = some x ∧
    lastSections.read 0xfffffffffffffffd 3 = some y ∧
    (0x554433 : Word).toNat = x.toNat + 2 ^ 24 * y.toNat := by
  have hread : lastSections.read 0xfffffffffffffffa 6 = some 0x554433 := by decide
  obtain ⟨b, x, y, hb, hx, hy, hv⟩ := ((read_composes lastSections 0xfffffffffffffffa).1 3 3
    (by decide) (by decide) (by decide)).2 _ hread
  have hnext : Word.add? 0xfffffffffffffffa (BitVec.ofNat 64 3) = some 0xfffffffffffffffd := by
    decide
  rw [hnext] at hb
  cases hb
  exact ⟨x, y, hread, hx, hy, hv⟩

end Image

end BinaryLift
