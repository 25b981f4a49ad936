import BinaryLift.Image.File

/-!
# COFF headers

The file header and the section table that PE images, stripped images and object files share. All
fields are little-endian. The symbols of an object file are followed by a string table, which also
holds the section names that are longer than the eight bytes of their field.
-/

namespace BinaryLift.Coff

/-- The parts of a file header that matter here. -/
structure FileHeader where
  sectionCount : Nat
  /-- Where the symbols start; zero if there are none. -/
  symbolsAt : Nat
  symbolCount : Nat
  /-- Bytes between this header and the section table. -/
  optionalSize : Nat

/-- The parts of a section header that matter here. -/
structure SectionHeader where
  name : String
  virtualSize : BitVec 32
  address : BitVec 32
  rawSize : BitVec 32
  rawOffset : BitVec 32
  characteristics : BitVec 32

def fileHeaderSize : Nat := 20

def sectionHeaderSize : Nat := 40

def symbolSize : Nat := 18

/-- Where the string table starts. -/
def FileHeader.stringsAt (h : FileHeader) : Nat := h.symbolsAt + h.symbolCount * symbolSize

/-- Machine numbers that an object file may start with: x86, x86-64 and 64-bit ARM. -/
def objectMarks : List (List Nat) := [[0x4c, 0x01], [0x64, 0x86], [0x64, 0xaa]]

/-- Read the file header at an offset. -/
def fileHeader? (file : File) (pos : Nat) : Option FileHeader := do
  let _ ← file.slice? pos fileHeaderSize
  return {
    sectionCount := ← file.field? .little (pos + 2) 2
    symbolsAt := ← file.field? .little (pos + 8) 4
    symbolCount := ← file.field? .little (pos + 12) 4
    optionalSize := ← file.field? .little (pos + 16) 2 }

/-! ### Section names -/

/-- The value of a digit in base 64. -/
def digit64? (c : Char) : Option Nat :=
  if 'A' ≤ c ∧ c ≤ 'Z' then some (c.toNat - 'A'.toNat)
  else if 'a' ≤ c ∧ c ≤ 'z' then some (c.toNat - 'a'.toNat + 26)
  else if '0' ≤ c ∧ c ≤ '9' then some (c.toNat - '0'.toNat + 52)
  else if c = '+' then some 62
  else if c = '/' then some 63
  else none

/-- A number in base 64, the first digit being the most significant. -/
def number64? (cs : List Char) : Option Nat :=
  cs.foldlM (fun n c => (digit64? c).map (n * 64 + ·)) 0

/-- The offset in the string table that a name stands for, if it starts with a slash: a number in
decimal or, after two slashes, in base 64. -/
def longNameOffset? : List Char → Option Nat
  | '/' :: '/' :: digits => number64? digits
  | '/' :: digits => signed? digits
  | _ => none

/-- The section name in a field, which is empty if the field is no text. A name that starts with a
slash stands for a long one; if that cannot be read, it stays as it is. -/
def sectionName? (file : File) (stringsAt : Nat) (field : List Byte) : Option String :=
  let name := cString field
  let short := (utf8? name).getD ""
  if name.head? ≠ some 0x2f then some short
  else do
    let offset ← longNameOffset? short.toList
    return (file.textAt? (stringsAt + offset)).getD short

/-! ### Section tables -/

/-- Read the section header at an offset. -/
def sectionHeader? (file : File) (stringsAt pos : Nat) : Option SectionHeader := do
  let _ ← file.slice? pos sectionHeaderSize
  let name ← file.slice? pos 8
  let field := fun offset => (file.field? .little (pos + offset) 4).map (BitVec.ofNat 32)
  return {
    name := ← sectionName? file stringsAt name.toList
    virtualSize := ← field 8
    address := ← field 12
    rawSize := ← field 16
    rawOffset := ← field 20
    characteristics := ← field 36 }

/-- Read the section table that starts at an offset. -/
def sectionHeaders? (file : File) (h : FileHeader) (pos : Nat) : Option (List SectionHeader) :=
  (List.range h.sectionCount).mapM fun i =>
    sectionHeader? file h.stringsAt (pos + i * sectionHeaderSize)

/-! ### Object files -/

/-- The strings after the symbols. They start with their length, which counts its own four bytes. -/
def strings? (file : File) (h : FileHeader) : Option StringTable := do
  let length ← file.field? .little h.stringsAt 4
  if length < 4 then none else StringTable.read? file (h.stringsAt + 4) (length - 4)

/-- Check an object file, which starts with the file header. Where there are symbols, there are
strings after them. -/
def check (file : File) : Except ImageError Unit := do
  let h ← orMalformed (fileHeader? file 0)
  let _ ← orMalformed (sectionHeaders? file h (fileHeaderSize + h.optionalSize))
  if h.symbolsAt = 0 then return ()
  let _ ← orMalformed (strings? file h)

end BinaryLift.Coff
