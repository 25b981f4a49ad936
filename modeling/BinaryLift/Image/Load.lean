import BinaryLift.Image.Archive
import BinaryLift.Image.Coff
import BinaryLift.Image.Elf
import BinaryLift.Image.File
import BinaryLift.Image.MachO
import BinaryLift.Image.Pe

/-!
# Loading

The first bytes of a file tell its format. ELF and PE files are loaded; files of other formats are
looked at just enough to tell a damaged one from one that is not supported.

One of these is the terse image, a PE file whose headers were cut off and replaced by one of forty bytes.
Its addresses still count from the start of the old headers, so the number of bytes lost is subtracted
from each; addresses have 32 bits and wrap around. Its debug directory is a row of entries, each of which
says where the data of some kind is. The first entry of each kind counts, and what it speaks of has to be
in the file. All fields are little-endian.
-/

namespace BinaryLift

/-! ### Debug directories -/

namespace DebugDirectory

/-- The parts of an entry that matter here. -/
structure Entry where
  kind : Nat
  size : Nat
  offset : Nat

def entrySize : Nat := 28

/-- The kinds of entries that are looked into. -/
def kindSymbolFile : Nat := 2

def kindFeatures : Nat := 12

def kindProfile : Nat := 13

def kindReproducible : Nat := 16

def kindCharacteristics : Nat := 20

/-- Read the entry at an offset. Addresses count from `lost` bytes before the file; they have 32
bits and wrap around. -/
def entry? (file : File) (lost pos : Nat) : Option Entry := do
  let address ← file.field? .little (pos + 20) 4
  return {
    kind := ← file.field? .little (pos + 12) 4
    size := ← file.field? .little (pos + 16) 4
    offset := (BitVec.ofNat 32 address - BitVec.ofNat 32 lost).toNat }

/-- The entries of a directory. Bytes after the last whole entry do not count. -/
def entries? (file : File) (lost pos size : Nat) : Option (List Entry) := do
  let _ ← file.slice? pos size
  if file.size ≤ pos then none
  else (List.range (size / entrySize)).mapM fun i => entry? file lost (pos + i * entrySize)

/-- The marks of the two forms of a reference to a symbol file. -/
def symbolFileMarks : List Nat := [0x53445352, 0x3031424e]

/-- The marks of a profile that is looked into. -/
def profileMarks : List Nat := [0x4c544347, 0x50475500]

/-- Whether the file has the data of an entry. -/
def Entry.fits? (e : Entry) (file : File) : Option Bool :=
  if e.kind = kindSymbolFile then do
    let mark ← file.field? .little e.offset 4
    return 24 ≤ e.size && (!symbolFileMarks.contains mark || e.offset + e.size ≤ file.size)
  else if e.kind = kindFeatures then return e.offset + 20 ≤ file.size
  else if e.kind = kindCharacteristics then return e.offset + 4 ≤ file.size
  else if e.kind = kindReproducible then
    if e.size = 0 then return true
    else do
      let length ← file.field? .little e.offset 4
      return e.offset + 4 < file.size && e.offset + 4 + length ≤ file.size
  else if e.kind = kindProfile then do
    let mark ← file.field? .little e.offset 4
    return !profileMarks.contains mark || (4 < e.size && e.offset + e.size ≤ file.size)
  else return true

/-- The entries that count: the first one of each kind. -/
def firstOfKind : List Entry → List Entry
  | [] => []
  | e :: es => e :: (firstOfKind es).filter (·.kind ≠ e.kind)

/-- Whether a directory and the data of its entries are in the file. -/
def fits (file : File) (lost pos size : Nat) : Bool :=
  (entries? file lost pos size).any fun es =>
    (firstOfKind es).all fun e => e.fits? file == some true

end DebugDirectory

/-! ### Terse images -/

namespace Stripped

def headerSize : Nat := 40

/-- The parts of a header that matter here. -/
structure Header where
  sectionCount : Nat
  /-- Bytes of the old headers. -/
  strippedSize : Nat
  debugAddress : Nat
  debugSize : Nat

/-- Read the header. -/
def header? (file : File) : Option Header := do
  let _ ← file.slice? 0 headerSize
  return {
    sectionCount := ← file.field? .little 4 1
    strippedSize := ← file.field? .little 6 2
    debugAddress := ← file.field? .little 32 4
    debugSize := ← file.field? .little 36 4 }

/-- The section table. There is no string table, so long names are looked up from the start of the
file. -/
def sectionHeaders? (file : File) (h : Header) : Option (List Coff.SectionHeader) :=
  (List.range h.sectionCount).mapM fun i =>
    Coff.sectionHeader? file 0 (headerSize + i * Coff.sectionHeaderSize)

/-- Check the header of a file, its section table and its debug directory. The old headers were not
smaller than the new one. -/
def check (file : File) : Except ImageError Unit := do
  let h ← orMalformed (header? file)
  if h.strippedSize < headerSize then throw .malformed
  let lost := h.strippedSize - headerSize
  let _ ← orMalformed (sectionHeaders? file h)
  let debug := (BitVec.ofNat 32 h.debugAddress - BitVec.ofNat 32 lost).toNat
  if DebugDirectory.fits file lost debug h.debugSize then return () else throw .malformed

end Stripped

/-! ### Files of all formats -/

/-- A file of a format that is not loaded: unsupported, once it has passed its check. -/
def refuse (format : String) (checked : Except ImageError Unit) : Except ImageError Image := do
  checked
  throw (.unsupported format)

/-- Read a file that is neither ELF nor an archive by the first bytes of its header. -/
def parseMarked (file : File) : Except ImageError Image :=
  if file.startsWith [0x4d, 0x5a] then Pe.parse file
  else if file.startsWith [0x56, 0x5a] then refuse "unknown" (Stripped.check file)
  else if Coff.objectMarks.any file.startsWith then refuse "unknown" (Coff.check file)
  else if file.startsWith MachO.bundleMark then .error (.unsupported "Mach-O")
  else match MachO.identity? file with
    | some (order, size) => refuse "Mach-O" (MachO.check file order size)
    | none => .error (.unsupported "unknown")

/-- Read an object file by its mark. -/
def parseObject (file : File) : Except ImageError Image :=
  if file.size < 16 then .error .malformed
  else if file.startsWith [0x7f, 0x45, 0x4c, 0x46] then Elf.parse file
  else if file.startsWith Archive.mark then refuse "archive" (Archive.check file)
  else parseMarked file

/-- Load a file that maps at least one section. -/
def Image.load (file : File) : Except ImageError Image := do
  let img ← parseObject file
  if img.sections.isEmpty then throw .noSections
  return img

end BinaryLift
