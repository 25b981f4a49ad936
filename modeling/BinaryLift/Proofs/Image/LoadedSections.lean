import BinaryLift.Image.Elf
import BinaryLift.Image.Pe
import Mathlib.Algebra.Order.Ring.Nat
import Mathlib.Data.List.Forall2

/-!
# Loaded sections

A section header asks for a range of addresses and for bytes of the file that fill the start of it.
Loading grants what the headers ask for, one section for each of them and in their order, or reports
what is wrong with the first header that cannot be granted.
-/

namespace BinaryLift

/-! ### Computations with a known error -/

section Outcome

variable {α β ε : Type} {P : α → Prop} {x : Except ε α}

/-- The computation fails with the error that is due, and otherwise returns something with the
property. -/
def Outcome (due : Option ε) (P : α → Prop) (x : Except ε α) : Prop :=
  match due with
  | some e => x = .error e
  | none => ∃ a, x = .ok a ∧ P a

namespace Outcome

theorem map {due : Option ε} {f : α → β} {R : β → Prop} (h : Outcome due P x)
    (hf : ∀ a, P a → R (f a)) : Outcome due R (do return f (← x)) := by
  cases due with
  | some e =>
    rw [show x = .error e from h]
    rfl
  | none =>
    obtain ⟨a, rfl, ha⟩ := h
    exact ⟨f a, rfl, hf a ha⟩

theorem eq_error_iff {due : Option ε} {e : ε} (h : Outcome due P x) :
    x = .error e ↔ due = some e := by
  cases due with
  | some d =>
    rw [show x = .error d from h, Except.error.injEq, Option.some.injEq]
  | none =>
    obtain ⟨a, rfl, _⟩ := h
    exact ⟨nofun, nofun⟩

/-- Of several computations in a row, the first one that fails settles the error. -/
theorem mapM {g : α → Except ε β} {due : α → Option ε} {R : α → β → Prop} {l : List α}
    (h : ∀ a ∈ l, Outcome (due a) (R a) (g a)) :
    Outcome (l.findSome? due) (List.Forall₂ R l) (l.mapM g) := by
  induction l with
  | nil => exact ⟨[], rfl, .nil⟩
  | cons a l ih =>
    have hhead := h a List.mem_cons_self
    have htail := ih fun b hb => h b (List.mem_cons_of_mem _ hb)
    rw [List.mapM_cons, List.findSome?_cons]
    cases ha : due a with
    | some e =>
      rw [ha] at hhead
      rw [show g a = .error e from hhead]
      rfl
    | none =>
      rw [ha] at hhead
      obtain ⟨b, hb, hR⟩ := hhead
      rw [hb]
      exact htail.map fun bs hbs => .cons hR hbs

end Outcome

end Outcome

/-! ### What a header asks for -/

/-- A range of addresses and the bytes of a file that are mapped from its start on. -/
structure Extent where
  name : String
  address : Nat
  size : Nat
  offset : Nat
  length : Nat

namespace Extent

/-- What is wrong with an extent: it does not end within the address space, or else not all of its
bytes are in the file. -/
def error? (file : File) (e : Extent) : Option ImageError :=
  if 2 ^ 64 ≤ e.address + e.size then some (.addressOverflow e.name)
  else if file.size < e.offset + e.length then
    some (.sectionOutOfBounds e.name (BitVec.ofNat 64 e.offset) (BitVec.ofNat 64 e.length))
  else none

theorem isSome_error?_iff {file : File} {e : Extent} : (e.error? file).isSome = true ↔
    2 ^ 64 ≤ e.address + e.size ∨ file.size < e.offset + e.length := by
  unfold error?
  split
  · rename_i hover
    exact ⟨fun _ => .inl hover, fun _ => rfl⟩
  · rename_i hfits
    split
    · rename_i hbeyond
      exact ⟨fun _ => .inr hbeyond, fun _ => rfl⟩
    · rename_i hin
      exact ⟨nofun, fun h => absurd h (not_or.2 ⟨hfits, hin⟩)⟩

/-- The section is what the extent asks for: the bytes of the file, followed by zeros. -/
structure Loaded (file : File) (e : Extent) (s : Section) : Prop where
  name : s.name = e.name
  address : s.address.toNat = e.address
  size : s.size.toNat = e.size
  length : s.data.size = e.length
  length_le : s.data.size ≤ s.size.toNat
  stop_le : s.address.toNat + s.size.toNat ≤ 2 ^ 64 - 1
  inFile : e.offset + e.length ≤ file.size
  stored : ∀ i < s.data.size, s.byte? (s.address + BitVec.ofNat 64 i) = file[e.offset + i]?
  zero : ∀ i < s.size.toNat, s.data.size ≤ i → s.byte? (s.address + BitVec.ofNat 64 i) = some 0

end Extent

/-- The bytes of a section that does not reach the end of the address space. -/
theorem Section.byte?_add {s : Section} (hstop : s.address.toNat + s.size.toNat ≤ 2 ^ 64 - 1)
    {i : Nat} (hi : i < s.size.toNat) :
    s.byte? (s.address + BitVec.ofNat 64 i) = some (s.data[i]?.getD 0) := by
  have hnat : (s.address + BitVec.ofNat 64 i).toNat = s.address.toNat + i := by
    rw [BitVec.toNat_add, BitVec.toNat_ofNat]
    omega
  have hin : s.contains (s.address + BitVec.ofNat 64 i) = true := by
    rw [contains_iff, hnat, Word.toNat_top]
    omega
  have hrel : (s.address + BitVec.ofNat 64 i - s.address).toNat = i := by
    rw [BitVec.toNat_sub_of_le (by rw [BitVec.le_def, hnat]; omega), hnat]
    omega
  rw [byte?, if_pos hin, hrel]

theorem Extent.loaded_of_extract {file : File} {e : Extent} {s : Section} (hname : s.name = e.name)
    (haddress : s.address.toNat = e.address) (hsize : s.size.toNat = e.size)
    (hdata : s.data = file.extract e.offset (e.offset + e.length)) (hlength : e.length ≤ e.size)
    (hstop : e.address + e.size < 2 ^ 64) (hfile : e.offset + e.length ≤ file.size) :
    e.Loaded file s := by
  have hcount : s.data.size = e.length := by
    rw [hdata, Array.size_extract]
    omega
  have hlast : s.address.toNat + s.size.toNat ≤ 2 ^ 64 - 1 := by omega
  refine ⟨hname, haddress, hsize, hcount, by omega, hlast, hfile, fun i hi => ?_,
    fun i hi hle => ?_⟩
  · have hbyte : s.data[i]? = some file[e.offset + i] := by
      rw [hdata, Array.getElem?_extract_of_lt (by omega)]
    rw [Section.byte?_add hlast (by omega), hbyte, Option.getD_some]
    exact (Array.getElem?_eq_getElem (by omega)).symm
  · rw [Section.byte?_add hlast hi, Array.getElem?_eq_none hle]
    rfl

/-- The file has the bytes of an extent or gives the error for them. -/
theorem Extent.sectionBytes_outcome (file : File) (offset size : Word) {e : Extent}
    (hoffset : offset.toNat = e.offset) (hsize : size.toNat = e.length)
    (hstop : e.address + e.size < 2 ^ 64) :
    Outcome (e.error? file)
      (fun bs => e.offset + e.length ≤ file.size ∧ bs = file.extract e.offset (e.offset + e.length))
      (file.sectionBytes e.name offset size) := by
  unfold Extent.error? File.sectionBytes File.slice?
  rw [if_neg (Nat.not_le.2 hstop), ← hoffset, ← hsize]
  by_cases hfits : offset.toNat + size.toNat ≤ file.size
  · rw [if_pos hfits, if_neg (Nat.not_lt.2 hfits)]
    exact ⟨_, rfl, hfits, rfl⟩
  · rw [if_neg hfits, if_pos (Nat.not_le.1 hfits)]
    simp only [Outcome, BitVec.ofNat_toNat, BitVec.setWidth_eq]

/-! ### PE files -/

namespace Pe

/-- What a header asks for. Raw bytes behind a virtual size are left out. -/
def extent (h : Coff.SectionHeader) : Extent where
  name := h.name
  address := h.address.toNat
  size := if h.virtualSize = 0 then h.rawSize.toNat else h.virtualSize.toNat
  offset := h.rawOffset.toNat
  length := if h.virtualSize = 0 then h.rawSize.toNat else min h.rawSize.toNat h.virtualSize.toNat

theorem toNat_mappedSize (h : Coff.SectionHeader) : (mappedSize h).toNat = (extent h).size := by
  unfold mappedSize extent
  split <;> rfl

theorem toNat_mappedLength (h : Coff.SectionHeader) :
    (mappedLength h).toNat = (extent h).length := by
  unfold mappedLength mappedSize extent
  simp only [BitVec.le_def]
  grind

theorem extent_length_le (h : Coff.SectionHeader) : (extent h).length ≤ (extent h).size := by
  unfold extent
  dsimp only
  split <;> omega

/-- Numbers of 32 bits do not reach the end of the address space. -/
theorem extent_stop_lt (h : Coff.SectionHeader) :
    (extent h).address + (extent h).size < 2 ^ 64 := by
  have haddress : (extent h).address < 2 ^ 32 := h.address.isLt
  have hsize : (extent h).size < 2 ^ 32 := by
    rw [← toNat_mappedSize]
    exact (mappedSize h).isLt
  omega

theorem sectionOf_outcome (file : File) (h : Coff.SectionHeader) :
    Outcome ((extent h).error? file) ((extent h).Loaded file) (sectionOf file h) := by
  have hbytes := Extent.sectionBytes_outcome file (h.rawOffset.setWidth 64)
    ((mappedLength h).setWidth 64) (e := extent h) (BitVec.toNat_setWidth_of_le (by decide))
    ((BitVec.toNat_setWidth_of_le (by decide)).trans (toNat_mappedLength h)) (extent_stop_lt h)
  refine hbytes.map fun bs ⟨hfile, hbs⟩ => ?_
  exact Extent.loaded_of_extract rfl (BitVec.toNat_setWidth_of_le (by decide))
    ((BitVec.toNat_setWidth_of_le (by decide)).trans (toNat_mappedSize h)) hbs (extent_length_le h)
    (extent_stop_lt h) hfile

/-- A file is refused exactly if some header asks for bytes behind its end. -/
theorem findSome?_error?_iff (file : File) (hs : List Coff.SectionHeader) :
    (∃ err, (hs.map extent).findSome? (·.error? file) = some err) ↔
      ∃ h ∈ hs, file.size < h.rawOffset.toNat +
        if h.virtualSize = 0 then h.rawSize.toNat else min h.rawSize.toNat h.virtualSize.toNat := by
  rw [← Option.isSome_iff_exists, List.findSome?_isSome_iff]
  simp only [List.mem_map, exists_exists_and_eq_and, Extent.isSome_error?_iff]
  refine exists_congr fun h => and_congr_right fun _ => ⟨fun hbad => ?_, .inr⟩
  exact hbad.resolve_left (Nat.not_le.2 (extent_stop_lt h))

theorem layout_outcome (file : File) (base : Word) (hs : List Coff.SectionHeader) :
    Outcome ((hs.map extent).findSome? (·.error? file))
      (fun img => img.base = base ∧ List.Forall₂ (Extent.Loaded file) (hs.map extent) img.sections)
      (layout file base hs) := by
  rw [List.findSome?_map]
  refine (Outcome.mapM fun h _ => sectionOf_outcome file h).map fun ss hss => ⟨rfl, ?_⟩
  exact List.forall₂_map_left_iff.2 hss

end Pe

/-! ### ELF files -/

namespace Elf

/-- What a named header asks for. A section without bytes asks for none, whatever its offset is. -/
def extent (name : String) (h : Header) : Extent where
  name := name
  address := h.address.toNat
  size := h.size.toNat
  offset := if h.kind = kindNoBits then 0 else h.offset.toNat
  length := if h.kind = kindNoBits then 0 else h.size.toNat

/-- A header takes part if it is allocated and not empty. -/
def extent? (e : String × Header) : Option Extent :=
  if e.2.flags.testBit 1 = true ∧ e.2.size ≠ 0 then some (extent e.1 e.2) else none

theorem extent_length_le (name : String) (h : Header) :
    (extent name h).length ≤ (extent name h).size := by
  unfold extent
  dsimp only
  split <;> omega

/-- Bytes that a section does not have are never missing. -/
theorem extent_error_iff {file : File} {name : String} {h : Header} :
    ((extent name h).error? file).isSome = true ↔
      2 ^ 64 ≤ h.address.toNat + h.size.toNat ∨
        h.kind ≠ kindNoBits ∧ file.size < h.offset.toNat + h.size.toNat := by
  rw [Extent.isSome_error?_iff]
  unfold extent
  by_cases hkind : h.kind = kindNoBits <;> simp [hkind]

/-- The bytes of the file for a header, if it has any. -/
def Header.bytes (h : Header) (file : File) (name : String) : Except ImageError (Array Byte) :=
  if h.kind = kindNoBits then return #[] else file.sectionBytes name h.offset h.size

theorem bytes_outcome (file : File) (name : String) {h : Header}
    (hstop : h.address.toNat + h.size.toNat < 2 ^ 64) :
    Outcome ((extent name h).error? file)
      (fun bs => (extent name h).offset + (extent name h).length ≤ file.size ∧
        bs = file.extract (extent name h).offset
          ((extent name h).offset + (extent name h).length))
      (h.bytes file name) := by
  unfold Header.bytes
  by_cases hkind : h.kind = kindNoBits
  · have hnone : (extent name h).error? file = none := by
      rw [← Option.not_isSome_iff_eq_none, extent_error_iff]
      simp only [hkind, ne_eq, not_true_eq_false, false_and, or_false]
      omega
    rw [hnone, if_pos hkind]
    refine ⟨#[], rfl, ?_⟩
    simp [extent, hkind]
  · rw [if_neg hkind]
    exact Extent.sectionBytes_outcome file _ _ (if_neg hkind).symm (if_neg hkind).symm hstop

theorem section?_of_unmapped (file : File) (name : String) {h : Header}
    (hmapped : ¬ (h.flags.testBit 1 = true ∧ h.size ≠ 0)) : h.section? file name = .ok none := by
  have hskip : (!h.flags.testBit 1 || decide (h.size = 0)) = true := by
    cases hflag : h.flags.testBit 1 with
    | false => rfl
    | true => simpa [hflag] using hmapped
  simp only [Header.section?, hskip, if_true]
  rfl

theorem section?_of_overflow (file : File) (name : String) {h : Header}
    (hmapped : h.flags.testBit 1 = true ∧ h.size ≠ 0)
    (hstop : 2 ^ 64 ≤ h.address.toNat + h.size.toNat) :
    h.section? file name = .error (.addressOverflow name) := by
  have hnone : Word.add? h.address h.size = none :=
    Word.add?_eq_none.2 (by rw [Word.toNat_top]; omega)
  simp only [Header.section?, hmapped.1, decide_eq_false hmapped.2, hnone, Option.isNone_none,
    Bool.not_true, Bool.or_self, Bool.false_eq_true, if_false]
  rfl

theorem section?_of_fits (file : File) (name : String) {h : Header}
    (hmapped : h.flags.testBit 1 = true ∧ h.size ≠ 0)
    (hstop : h.address.toNat + h.size.toNat < 2 ^ 64) :
    h.section? file name = (do
      return some {
        name := name
        address := h.address
        size := h.size
        flags := .ofRights true (h.flags.testBit 0) (h.flags.testBit 2)
        data := ← h.bytes file name }) := by
  have hfits : Word.add? h.address h.size ≠ none := by
    rw [ne_eq, Word.add?_eq_none, Word.toNat_top]
    omega
  simp only [Header.section?, Header.bytes, hmapped.1, decide_eq_false hmapped.2,
    Option.isNone_iff_eq_none, hfits, Bool.not_true, Bool.or_self, Bool.false_eq_true, if_false]
  split <;> rfl

theorem section?_outcome (file : File) (e : String × Header) :
    Outcome ((extent? e).bind (·.error? file)) (Option.Rel (Extent.Loaded file) (extent? e))
      (e.2.section? file e.1) := by
  obtain ⟨name, h⟩ := e
  by_cases hmapped : h.flags.testBit 1 = true ∧ h.size ≠ 0
  · have hextent : extent? (name, h) = some (extent name h) := if_pos hmapped
    rw [hextent, Option.bind_some]
    by_cases hstop : 2 ^ 64 ≤ h.address.toNat + h.size.toNat
    · have herror : (extent name h).error? file = some (.addressOverflow name) := if_pos hstop
      rw [herror]
      exact section?_of_overflow file name hmapped hstop
    · have hlt := Nat.not_le.1 hstop
      rw [section?_of_fits file name hmapped hlt]
      refine (bytes_outcome file name hlt).map fun bs ⟨hfile, hbs⟩ => Option.Rel.some ?_
      exact Extent.loaded_of_extract rfl rfl rfl hbs (extent_length_le name h) hlt hfile
  · have hextent : extent? (name, h) = none := if_neg hmapped
    rw [hextent]
    exact ⟨none, section?_of_unmapped file name hmapped, .none⟩

theorem findSome?_error?_iff (file : File) (hs : List (String × Header)) :
    (∃ err, (hs.filterMap extent?).findSome? (·.error? file) = some err) ↔
      ∃ e ∈ hs, (e.2.flags.testBit 1 = true ∧ e.2.size ≠ 0) ∧
        (2 ^ 64 ≤ e.2.address.toNat + e.2.size.toNat ∨
          e.2.kind ≠ kindNoBits ∧ file.size < e.2.offset.toNat + e.2.size.toNat) := by
  rw [← Option.isSome_iff_exists, List.findSome?_isSome_iff]
  simp only [List.mem_filterMap, extent?, Option.ite_none_right_eq_some, Option.some.injEq]
  constructor
  · rintro ⟨_, ⟨e, he, hmapped, rfl⟩, herror⟩
    exact ⟨e, he, hmapped, extent_error_iff.1 herror⟩
  · rintro ⟨e, he, hmapped, hbad⟩
    exact ⟨_, ⟨e, he, hmapped, rfl⟩, extent_error_iff.2 hbad⟩

theorem layout_outcome (file : File) (hs : List (String × Header)) :
    Outcome ((hs.filterMap extent?).findSome? (·.error? file))
      (fun img => img.base = 0 ∧
        List.Forall₂ (Extent.Loaded file) (hs.filterMap extent?) img.sections)
      (layout file hs) := by
  rw [← List.head?_filterMap, List.filterMap_filterMap, List.head?_filterMap]
  refine (Outcome.mapM fun e _ => section?_outcome file e).map fun ss hss => ⟨rfl, ?_⟩
  exact List.rel_filterMap (fun _ _ h => h) hss

end Elf

/-- Both formats load what their headers ask for, in their order: every header of a PE file, and
those of an ELF file that are allocated and not empty. What cannot be granted is reported for the
first such header, a range that leaves the address space before bytes that are not in the file. Only
an ELF header can ask for such a range. -/
theorem layouts_load_extents (file : File) :
    (∀ base hs,
      Outcome ((hs.map Pe.extent).findSome? (·.error? file))
        (fun img => img.base = base ∧
          List.Forall₂ (Extent.Loaded file) (hs.map Pe.extent) img.sections)
        (Pe.layout file base hs) ∧
      ((∃ err, Pe.layout file base hs = .error err) ↔ ∃ h ∈ hs, file.size < h.rawOffset.toNat +
        if h.virtualSize = 0 then h.rawSize.toNat
        else min h.rawSize.toNat h.virtualSize.toNat)) ∧
    ∀ hs,
      Outcome ((hs.filterMap Elf.extent?).findSome? (·.error? file))
        (fun img => img.base = 0 ∧
          List.Forall₂ (Extent.Loaded file) (hs.filterMap Elf.extent?) img.sections)
        (Elf.layout file hs) ∧
      ((∃ err, Elf.layout file hs = .error err) ↔
        ∃ e ∈ hs, (e.2.flags.testBit 1 = true ∧ e.2.size ≠ 0) ∧
          (2 ^ 64 ≤ e.2.address.toNat + e.2.size.toNat ∨
            e.2.kind ≠ Elf.kindNoBits ∧ file.size < e.2.offset.toNat + e.2.size.toNat)) := by
  refine ⟨fun base hs => ⟨Pe.layout_outcome file base hs, ?_⟩,
    fun hs => ⟨Elf.layout_outcome file hs, ?_⟩⟩
  · simp only [(Pe.layout_outcome file base hs).eq_error_iff]
    exact Pe.findSome?_error?_iff file hs
  · simp only [(Elf.layout_outcome file hs).eq_error_iff]
    exact Elf.findSome?_error?_iff file hs

end BinaryLift
