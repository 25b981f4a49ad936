import BinaryLift.Image.Layout
import BinaryLift.Proofs.Program.Checks
import Mathlib.Algebra.Order.Ring.Nat
import Mathlib.Data.Nat.Find

/-!
# Read-only reads

A read takes bytes that are all mapped, and a read-only read looks at the rights of the first and the
last of them. Its bytes are all read-only unless there is a pocket in between: a few writable bytes
with a read-only one on either side. So the reads of an image are safe exactly if it has no pocket
that fits into a read. Sections that do not overlap leave no such pocket if the writable ones are not
that small.
-/

namespace BinaryLift

namespace Image

variable {img : Image} {a b v : Word} {w n : Nat}

/-- The address is one of `w` addresses from `a` on. -/
def InWindow (a : Word) (w : Nat) (b : Word) : Prop := a.toNat ≤ b.toNat ∧ b.toNat < a.toNat + w

/-- The section of an address grants the right to write. -/
def isWritable (img : Image) (address : Word) : Bool :=
  (img.sectionAt address).any fun s => !s.isReadonly

/-- Right behind the read-only byte at `a` there are `n` writable ones, and then a read-only one. -/
structure Pocket (img : Image) (a : Word) (n : Nat) : Prop where
  positive : 0 < n
  fits : a.toNat + n + 1 < 2 ^ 64
  before : img.isReadonly a = true
  inside : ∀ b : Word, a.toNat < b.toNat → b.toNat ≤ a.toNat + n → img.isWritable b = true
  behind : ∀ b : Word, b.toNat = a.toNat + n + 1 → img.isReadonly b = true

/-! ### Mapped bytes -/

theorem isReadonly_iff : img.isReadonly a = true ↔
    ∃ s, img.sectionAt a = some s ∧ s.isReadonly = true := by
  unfold isReadonly
  cases img.sectionAt a <;> simp

theorem isWritable_iff : img.isWritable a = true ↔
    ∃ s, img.sectionAt a = some s ∧ s.isReadonly = false := by
  unfold isWritable
  cases img.sectionAt a <;> simp

theorem isMapped_of_isReadonly (h : img.isReadonly a = true) : img.isMapped a = true := by
  obtain ⟨s, hs, _⟩ := isReadonly_iff.1 h
  rw [isMapped, hs]
  rfl

theorem isMapped_of_isWritable (h : img.isWritable a = true) : img.isMapped a = true := by
  obtain ⟨s, hs, _⟩ := isWritable_iff.1 h
  rw [isMapped, hs]
  rfl

/-- A mapped byte may be written or it may not. -/
theorem isWritable_eq_not (h : img.isMapped a = true) : img.isWritable a = !img.isReadonly a := by
  obtain ⟨s, hs⟩ := Option.isSome_iff_exists.1 h
  rw [isWritable, isReadonly, hs]
  rfl

/-- The section of an address contains it. -/
theorem sectionAt_eq_some {s : Section} (h : img.sectionAt a = some s) :
    s ∈ img.sections ∧ img.base.toNat ≤ a.toNat ∧ s.contains (a - img.base) = true := by
  obtain ⟨rva, hrva, hfind⟩ := Option.bind_eq_some_iff.1 h
  have hsum := Word.sub?_eq_some.1 hrva
  have heq : a - img.base = rva := by
    apply BitVec.eq_of_toNat_eq
    rw [BitVec.toNat_sub_of_le (show img.base.toNat ≤ a.toNat by omega)]
    omega
  have hfound := List.find?_some hfind
  rw [heq]
  exact ⟨List.mem_of_find?_eq_some hfind, by omega, hfound⟩

theorem isSome_byte? (img : Image) (a : Word) : (img.byte? a).isSome = img.isMapped a := by
  unfold byte? isMapped
  cases hs : img.sectionAt a with
  | none => rfl
  | some s =>
    obtain ⟨_, _, hcontains⟩ := sectionAt_eq_some hs
    show (s.byte? (a - img.base)).isSome = _
    rw [Section.byte?, if_pos hcontains]
    rfl

/-! ### Windows -/

theorem inWindow_of_add? {i : Nat} (hi : i < w) (hw : w ≤ 2 ^ 64)
    (h : Word.add? a (BitVec.ofNat 64 i) = some b) : InWindow a w b := by
  have hsum := Word.add?_eq_some.1 h
  rw [BitVec.toNat_ofNat, Nat.mod_eq_of_lt (by omega)] at hsum
  exact ⟨by omega, by omega⟩

theorem add?_of_inWindow (h : InWindow a w b) :
    ∃ i < w, Word.add? a (BitVec.ofNat 64 i) = some b := by
  obtain ⟨hle, hlt⟩ := h
  refine ⟨b.toNat - a.toNat, by omega, Word.add?_eq_some.2 ?_⟩
  have hb : b.toNat < 2 ^ 64 := b.isLt
  rw [BitVec.toNat_ofNat, Nat.mod_eq_of_lt (by omega)]
  omega

/-- There are as many bytes as asked for if the window does not run over the end of the address space
and is mapped. -/
theorem isSome_bytes?_iff (hw : w ≤ 2 ^ 64) : (img.bytes? a w).isSome = true ↔
    a.toNat + w ≤ 2 ^ 64 ∧ ∀ b, InWindow a w b → img.isMapped b = true := by
  constructor
  · intro h
    obtain ⟨bs, hbs⟩ := Option.isSome_iff_exists.1 h
    have hbyte : ∀ i < w, ∃ b, Word.add? a (BitVec.ofNat 64 i) = some b ∧
        img.isMapped b = true := by
      intro i hi
      obtain ⟨x, hx⟩ := Option.isSome_iff_exists.1
        (isSome_of_mapM_eq_some hbs i (List.mem_range.2 hi))
      obtain ⟨b, hb, hbx⟩ := Option.bind_eq_some_iff.1 hx
      refine ⟨b, hb, ?_⟩
      rw [← isSome_byte?, hbx]
      rfl
    refine ⟨?_, fun b hb => ?_⟩
    · cases w with
      | zero => exact Nat.le_of_lt a.isLt
      | succ w =>
        obtain ⟨b, hb, _⟩ := hbyte w (Nat.lt_succ_self w)
        have hsum := Word.add?_eq_some.1 hb
        rw [BitVec.toNat_ofNat, Nat.mod_eq_of_lt (by omega)] at hsum
        have hlt : b.toNat < 2 ^ 64 := b.isLt
        omega
    · obtain ⟨i, hi, hadd⟩ := add?_of_inWindow hb
      obtain ⟨b', hadd', hmapped⟩ := hbyte i hi
      rw [hadd] at hadd'
      cases hadd'
      exact hmapped
  · rintro ⟨hfits, hmapped⟩
    refine Option.isSome_iff_exists.2 (exists_mapM_eq_some fun i hi => ?_)
    have hi : i < w := List.mem_range.1 hi
    have hsum : Word.add? a (BitVec.ofNat 64 i) = some (BitVec.ofNat 64 (a.toNat + i)) := by
      rw [Word.add?_eq_some, BitVec.toNat_ofNat, BitVec.toNat_ofNat,
        Nat.mod_eq_of_lt (by omega), Nat.mod_eq_of_lt (by omega)]
    simp only [hsum, Option.bind_eq_bind, Option.bind_some, isSome_byte?]
    exact hmapped _ (inWindow_of_add? hi hw hsum)

theorem isSome_read_iff : (img.read a w).isSome = true ↔
    (0 < w ∧ w ≤ 8) ∧ a.toNat + w ≤ 2 ^ 64 ∧ ∀ b, InWindow a w b → img.isMapped b = true := by
  unfold read
  split
  · simp only [Option.isSome_none, Bool.false_eq_true, false_iff]
    omega
  · rename_i hw
    rw [Option.isSome_map, isSome_bytes?_iff (by omega)]
    simp only [iff_and_self]
    omega

/-! ### Both ends -/

/-- A read-only read is a read whose ends are read-only. -/
theorem readReadonly_eq_some_iff : img.readReadonly a w = some v ↔
    img.read a w = some v ∧ img.isReadonly a = true ∧
      ∀ b : Word, b.toNat + 1 = a.toNat + w → img.isReadonly b = true := by
  -- the last byte, where there is a first one
  have hlast : ∀ b : Word, (0 < w ∧ w ≤ 8) → (b.toNat + 1 = a.toNat + w ↔
      Word.add? a (BitVec.ofNat 64 (max w 1 - 1)) = some b) := by
    intro b hw
    rw [Word.add?_eq_some, BitVec.toNat_ofNat, Nat.mod_eq_of_lt (by omega)]
    omega
  constructor
  · intro h
    obtain ⟨last, hadd, hrest⟩ := Option.bind_eq_some_iff.1 h
    split at hrest
    · rename_i hends
      obtain ⟨hfirst, hreadonly⟩ := Bool.and_eq_true_iff.1 hends
      have hw := (isSome_read_iff.1 (Option.isSome_iff_exists.2 ⟨v, hrest⟩)).1
      refine ⟨hrest, hfirst, fun b hb => ?_⟩
      rw [(hlast b hw).1 hb] at hadd
      rwa [Option.some.inj hadd]
    · cases hrest
  · rintro ⟨hread, hfirst, hreadonly⟩
    obtain ⟨hw, hfits, _⟩ := isSome_read_iff.1 (Option.isSome_iff_exists.2 ⟨v, hread⟩)
    have hend : (BitVec.ofNat 64 (a.toNat + w - 1)).toNat + 1 = a.toNat + w := by
      rw [BitVec.toNat_ofNat, Nat.mod_eq_of_lt (by omega)]
      omega
    unfold readReadonly
    rw [(hlast _ hw).1 hend]
    simp only [Option.bind_eq_bind, Option.bind_some, hfirst, hreadonly _ hend, Bool.and_self,
      if_true, hread]

/-! ### What lies between -/

/-- Between the nearest places on either side where a property holds it holds nowhere. -/
theorem exists_gap {P : Nat → Prop} [DecidablePred P] {l m u : Nat} (hl : P l) (hlm : l ≤ m)
    (hm : ¬ P m) (hmu : m ≤ u) (hu : P u) :
    ∃ l' u', (l ≤ l' ∧ l' < m ∧ m < u' ∧ u' ≤ u) ∧ P l' ∧ P u' ∧ ∀ k, l' < k → k < u' → ¬ P k := by
  have hexists : ∃ k, m ≤ k ∧ P k := ⟨u, hmu, hu⟩
  have hlower : P (Nat.findGreatest P m) := Nat.findGreatest_spec hlm hl
  obtain ⟨hge, hupper⟩ := Nat.find_spec hexists
  have hlower_ne : Nat.findGreatest P m ≠ m := fun heq => hm (heq ▸ hlower)
  have hupper_ne : Nat.find hexists ≠ m := fun heq => hm (heq ▸ hupper)
  refine ⟨Nat.findGreatest P m, Nat.find hexists, ⟨Nat.le_findGreatest hlm hl,
    Nat.lt_of_le_of_ne (Nat.findGreatest_le m) hlower_ne, Nat.lt_of_le_of_ne hge hupper_ne.symm,
    Nat.find_min' hexists ⟨hmu, hu⟩⟩, hlower, hupper, fun k hk hk' hP => ?_⟩
  rcases Nat.le_total k m with hkm | hkm
  · exact Nat.findGreatest_is_greatest hk hkm hP
  · exact Nat.find_min hexists hk' ⟨hkm, hP⟩

/-- The address is in a pocket that lies between the ends of a window. -/
def InPocket (img : Image) (a : Word) (w : Nat) (b : Word) : Prop :=
  ∃ c n, img.Pocket c n ∧ (a.toNat ≤ c.toNat ∧ c.toNat + n + 1 < a.toNat + w) ∧
    c.toNat < b.toNat ∧ b.toNat ≤ c.toNat + n

/-- A writable byte between two read-only ones is in a pocket between them. -/
theorem inPocket_of_writable (hfits : a.toNat + w ≤ 2 ^ 64)
    (hmapped : ∀ c, InWindow a w c → img.isMapped c = true) (hfirst : img.isReadonly a = true)
    (hlast : ∀ c : Word, c.toNat + 1 = a.toNat + w → img.isReadonly c = true)
    (hb : InWindow a w b) (hwrite : img.isReadonly b = false) : img.InPocket a w b := by
  obtain ⟨hle, hlt⟩ := hb
  have hword : ∀ c : Word, BitVec.ofNat 64 c.toNat = c := fun c => by
    rw [BitVec.ofNat_toNat, BitVec.setWidth_eq]
  have hnat : ∀ k, k < 2 ^ 64 → (BitVec.ofNat 64 k).toNat = k := fun k hk => by
    rw [BitVec.toNat_ofNat, Nat.mod_eq_of_lt hk]
  -- the nearest read-only bytes on either side are the ends of the pocket
  obtain ⟨l, u, ⟨hal, hlb, hbu, hul⟩, hl, hu, hbetween⟩ :=
    exists_gap (P := fun k => img.isReadonly (BitVec.ofNat 64 k) = true) (m := b.toNat)
      (by rwa [hword]) hle (by rw [hword, hwrite]; exact Bool.false_ne_true)
      (show b.toNat ≤ a.toNat + w - 1 by omega) (hlast _ (by rw [hnat _ (by omega)]; omega))
  have hnatl := hnat l (by omega)
  refine ⟨BitVec.ofNat 64 l, u - l - 1, ⟨by omega, by omega, hl, fun c hc hc' => ?_, fun c hc => ?_⟩,
    ⟨by omega, by omega⟩, by omega, by omega⟩
  · have hmem : img.isMapped c = true := hmapped c ⟨by omega, by omega⟩
    have hnot := hbetween c.toNat (by omega) (by omega)
    rw [hword] at hnot
    rw [isWritable_eq_not hmem, Bool.eq_false_iff.2 hnot]
    rfl
  · rw [← hword c, show c.toNat = u by omega]
    exact hu

/-- The bytes of a read-only read are read-only, those in pockets between its ends excepted. -/
theorem isReadonly_or_inPocket (h : img.readReadonly a w = some v) (hb : InWindow a w b) :
    img.isReadonly b = true ∨ img.InPocket a w b := by
  obtain ⟨hread, hfirst, hlast⟩ := readReadonly_eq_some_iff.1 h
  obtain ⟨_, hfits, hmapped⟩ := isSome_read_iff.1 (Option.isSome_iff_exists.2 ⟨v, hread⟩)
  cases hreadonly : img.isReadonly b with
  | true => exact .inl rfl
  | false => exact .inr (inPocket_of_writable hfits hmapped hfirst hlast hb hreadonly)

/-- Without pockets that are small enough to fit between the ends there is no exception. -/
theorem isReadonly_of_no_pocket (hnone : ∀ c n, n ≤ 6 → ¬ img.Pocket c n)
    (h : img.readReadonly a w = some v) (hb : InWindow a w b) : img.isReadonly b = true := by
  refine (isReadonly_or_inPocket h hb).resolve_right ?_
  rintro ⟨c, n, hpocket, ⟨hle, hlt⟩, _⟩
  have hread := (readReadonly_eq_some_iff.1 h).1
  have hw := (isSome_read_iff.1 (Option.isSome_iff_exists.2 ⟨v, hread⟩)).1
  exact hnone c n (by omega) hpocket

/-- A read-only read that starts before a small pocket and ends behind it succeeds. -/
theorem Pocket.exists_read (h : img.Pocket a n) (hn : n ≤ 6) :
    ∃ v, img.readReadonly a (n + 2) = some v := by
  have hmapped : ∀ b, InWindow a (n + 2) b → img.isMapped b = true := by
    rintro b ⟨hle, hlt⟩
    by_cases hfirst : b.toNat = a.toNat
    · rw [BitVec.eq_of_toNat_eq hfirst]
      exact isMapped_of_isReadonly h.before
    · by_cases hlast : b.toNat = a.toNat + n + 1
      · exact isMapped_of_isReadonly (h.behind b hlast)
      · exact isMapped_of_isWritable (h.inside b (by omega) (by omega))
  have hfits := h.fits
  obtain ⟨v, hv⟩ := Option.isSome_iff_exists.1
    (isSome_read_iff.2 ⟨⟨by omega, by omega⟩, by omega, hmapped⟩)
  exact ⟨v, readReadonly_eq_some_iff.2 ⟨hv, h.before, fun b hb => h.behind b (by omega)⟩⟩

theorem Pocket.exists_writable (h : img.Pocket a n) :
    ∃ b, InWindow a (n + 2) b ∧ img.isReadonly b = false := by
  have hfits := h.fits
  have hpos := h.positive
  have hnat : (BitVec.ofNat 64 (a.toNat + 1)).toNat = a.toNat + 1 := by
    rw [BitVec.toNat_ofNat, Nat.mod_eq_of_lt (by omega)]
  have hwrite := h.inside (BitVec.ofNat 64 (a.toNat + 1)) (by omega) (by omega)
  have hnot := isWritable_eq_not (isMapped_of_isWritable hwrite)
  rw [hwrite] at hnot
  exact ⟨BitVec.ofNat 64 (a.toNat + 1), ⟨by omega, by omega⟩, by simpa using hnot.symm⟩

/-- A read-only read is a read, and none of its bytes may be written but those in a pocket between its
ends. So no read-only read gives a byte that may be written exactly if the image has no pocket of at
most six bytes. -/
theorem readReadonly_spares_writable (img : Image) :
    (∀ a w v, img.readReadonly a w = some v → img.read a w = some v ∧
      ∀ b, InWindow a w b → img.isReadonly b = true ∨ img.InPocket a w b) ∧
    ((∀ a w v, img.readReadonly a w = some v → ∀ b, InWindow a w b → img.isReadonly b = true) ↔
      ∀ a n, n ≤ 6 → ¬ img.Pocket a n) := by
  refine ⟨fun a w v h => ⟨(readReadonly_eq_some_iff.1 h).1, fun b => isReadonly_or_inPocket h⟩, ?_⟩
  constructor
  · intro h a n hn hpocket
    obtain ⟨v, hv⟩ := hpocket.exists_read hn
    obtain ⟨b, hb, hwrite⟩ := hpocket.exists_writable
    have hread := h a (n + 2) v hv b hb
    rw [hwrite] at hread
    cases hread
  · intro h a w v hv b hb
    exact isReadonly_of_no_pocket h hv hb

/-! ### Sections -/

/-- No address belongs to two sections. -/
def Apart (img : Image) : Prop :=
  ∀ s ∈ img.sections, ∀ t ∈ img.sections, ∀ rva, s.contains rva = true → t.contains rva = true →
    s = t

theorem Apart.sectionAt (h : img.Apart) {s : Section} (hs : s ∈ img.sections)
    (hbase : img.base.toNat ≤ a.toNat) (hcontains : s.contains (a - img.base) = true) :
    img.sectionAt a = some s := by
  have hsub : Word.sub? a img.base = some (a - img.base) := if_pos hbase
  have hsome : (img.sections.find? (·.contains (a - img.base))).isSome = true :=
    List.find?_isSome.2 ⟨s, hs, hcontains⟩
  obtain ⟨t, ht⟩ := Option.isSome_iff_exists.1 hsome
  have hfound := List.find?_some ht
  rw [Image.sectionAt, hsub]
  show img.sections.find? _ = _
  rw [ht, h t (List.mem_of_find?_eq_some ht) s hs _ hfound hcontains]

/-- In an image whose sections lie apart, a pocket is at least as large as the smallest writable
section. -/
theorem Apart.le_of_pocket (h : img.Apart) {k : Nat}
    (hsize : ∀ s ∈ img.sections, s.isReadonly = false → s.address.toNat + k ≤ s.stop.toNat)
    (hpocket : img.Pocket a n) : k ≤ n := by
  have hfits := hpocket.fits
  have hpos := hpocket.positive
  have hnat : ∀ i, a.toNat + i < 2 ^ 64 → (a + BitVec.ofNat 64 i).toNat = a.toNat + i := by
    intro i hi
    rw [BitVec.toNat_add, BitVec.toNat_ofNat, Nat.mod_eq_of_lt (show i < 2 ^ 64 by omega),
      Nat.mod_eq_of_lt hi]
  have hfirst := hnat 1 (by omega)
  have hlast := hnat (n + 1) (by omega)
  obtain ⟨s, hs, hwrite⟩ := isWritable_iff.1
    (hpocket.inside (a + BitVec.ofNat 64 1) (by omega) (by omega))
  obtain ⟨hmem, hbase, hcontains⟩ := sectionAt_eq_some hs
  -- the section of the first writable byte holds neither end
  have hnone : ∀ b : Word, img.base.toNat ≤ b.toNat → img.isReadonly b = true →
      s.contains (b - img.base) = false := by
    intro b hb hreadonly
    refine Bool.eq_false_iff.2 fun hcontains' => ?_
    obtain ⟨t, ht, hright⟩ := isReadonly_iff.1 hreadonly
    rw [h.sectionAt hmem hb hcontains'] at ht
    cases ht
    rw [hwrite] at hright
    cases hright
  obtain ⟨t, ht, _⟩ := isReadonly_iff.1 hpocket.before
  obtain ⟨_, hbase', _⟩ := sectionAt_eq_some ht
  have hbefore := hnone a hbase' hpocket.before
  have hbehind := hnone (a + BitVec.ofNat 64 (n + 1)) (by omega) (hpocket.behind _ hlast)
  have hlen := hsize s hmem hwrite
  have hsub : ∀ b : Word, img.base.toNat ≤ b.toNat →
      (b - img.base).toNat = b.toNat - img.base.toNat := fun b hb => BitVec.toNat_sub_of_le hb
  simp only [Section.contains, Bool.and_eq_true, decide_eq_true_eq, Bool.and_eq_false_iff,
    decide_eq_false_iff_not, BitVec.le_def, BitVec.lt_def] at hcontains hbefore hbehind
  rw [hsub _ hbase] at hcontains
  rw [hsub _ hbase'] at hbefore
  rw [hsub _ (by omega)] at hbehind
  omega

/-- The bytes of a read-only read are read-only in an image whose sections lie apart, the writable ones
too large to fit between its ends. -/
theorem Apart.isReadonly_of_readReadonly (h : img.Apart)
    (hsize : ∀ s ∈ img.sections, s.isReadonly = false → s.address.toNat + 7 ≤ s.stop.toNat)
    (hread : img.readReadonly a w = some v) (hb : InWindow a w b) : img.isReadonly b = true := by
  refine isReadonly_of_no_pocket (fun c n hn hpocket => ?_) hread hb
  have hle := h.le_of_pocket hsize hpocket
  omega

/-- Two writable bytes between read-only ones. -/
def splitTable : Image where
  sections := [
    { name := ".rdata", address := 0x1000, size := 2, flags := .readable, data := #[0x11, 0x22] },
    { name := ".data", address := 0x1002, size := 2, flags := .ofRights true true false,
      data := #[0x33, 0x44] },
    { name := ".rodata", address := 0x1004, size := 4, flags := .readable,
      data := #[0x55, 0x66, 0x77, 0x88] }]

/-- A read-only read across a small section gives bytes that may be written. -/
theorem readReadonly_spans_writable :
    splitTable.readReadonly 0x1000 8 = some 0x8877665544332211 ∧ InWindow 0x1000 8 0x1002 ∧
      splitTable.isWritable 0x1002 = true := by
  exact ⟨by decide, ⟨by decide, by decide⟩, by decide⟩

end Image

end BinaryLift
