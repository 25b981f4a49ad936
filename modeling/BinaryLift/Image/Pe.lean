import BinaryLift.Image.Coff

/-!
# PE files

A PE file starts with a header for an older system, which says where the real one is. The bytes
between the two are a stub; a linker may have left a record of the tools it was used with there,
masked with a key. What the record says is not looked at, but one without a start or with a part of
a word spoils the file.

Every section is mapped relative to the image base. Raw bytes beyond the virtual size are padding of
the file; a virtual size of zero means that the raw size counts. Offsets and sizes have 32 bits, so
no section wraps around.
-/

namespace BinaryLift.Pe

/-- The size a section takes in memory. -/
def mappedSize (h : Coff.SectionHeader) : BitVec 32 :=
  if h.virtualSize = 0 then h.rawSize else h.virtualSize

/-- How many of its file bytes are mapped. -/
def mappedLength (h : Coff.SectionHeader) : BitVec 32 :=
  if h.rawSize ≤ mappedSize h then h.rawSize else mappedSize h

/-- The section of a header. -/
def sectionOf (file : File) (h : Coff.SectionHeader) : Except ImageError Section := do
  let data ← file.sectionBytes h.name (h.rawOffset.setWidth 64) ((mappedLength h).setWidth 64)
  return {
    name := h.name
    address := h.address.setWidth 64
    size := (mappedSize h).setWidth 64
    flags := .ofRights (h.characteristics.getLsbD 30) (h.characteristics.getLsbD 31)
      (h.characteristics.getLsbD 29)
    data := data }

/-- The image of a list of headers. -/
def layout (file : File) (base : Word) (headers : List Coff.SectionHeader) :
    Except ImageError Image :=
  return { base := base, sections := ← headers.mapM (sectionOf file) }

/-! ### The stub -/

/-- Where the stub starts. -/
def stubOffset : Nat := 64

/-- The 32-bit number at an offset of a byte list. -/
def wordAt (bs : List Byte) (pos : Nat) : Nat := littleEndian ((bs.drop pos).take 4)

/-- The first offset with a 32-bit number that passes a test and `room` bytes from there on. -/
def findWord? (room : Nat) (test : Nat → Bool) (bs : List Byte) : Option Nat :=
  (List.range (bs.length + 1 - room)).find? fun pos => test (wordAt bs pos)

/-- The mark after a tool record, followed by the key, and the mark before it. -/
def recordEnd : Nat := 0x68636952

def recordStart : Nat := 0x536e6144

/-- Whether the body of a tool record is made of whole words, at least one. -/
def bodyIsSound (body : List Byte) : Bool := !body.isEmpty && body.length % 4 == 0

/-- Whether a stub holds no tool record or a sound one. -/
def stubIsSound (stub : List Byte) : Bool :=
  match findWord? 8 (· = recordEnd) stub with
  | none => true
  | some stop =>
    let key := wordAt stub (stop + 4)
    match findWord? 4 (fun w => w ^^^ key = recordStart) (stub.take stop) with
    | none => false
    | some start => bodyIsSound ((stub.take stop).drop (start + 4))

/-! ### Headers -/

/-- The image base of the optional header at an offset. The header is followed by directories of
eight bytes, at most sixteen, which have to be there. -/
def imageBase? (file : File) (pos : Nat) : Option Word := do
  let (fixed, baseAt, width) ← match (← file.field? .little pos 2) with
    | 0x10b => some (96, 28, 4)
    | 0x20b => some (112, 24, 8)
    | _ => none
  let directories ← file.field? .little (pos + fixed - 4) 4
  if 16 < directories then none
  else
    let _ ← file.slice? pos (fixed + 8 * directories)
    return BitVec.ofNat 64 (← file.field? .little (pos + baseAt) width)

/-- Offset of the PE header, after a sound stub. -/
def headerOffset? (file : File) : Option Nat := do
  let pos ← file.field? .little 0x3c 4
  let mark ← file.field? .little pos 4
  if mark ≠ 0x4550 ∨ pos < stubOffset then none
  else
    let stub ← file.slice? stubOffset (pos - stubOffset)
    if stubIsSound stub.toList then some pos else none

/-- Image base and section headers of a file. -/
def headers? (file : File) : Option (Word × List Coff.SectionHeader) := do
  let pos := (← headerOffset? file) + 4
  let h ← Coff.fileHeader? file pos
  let optional := pos + Coff.fileHeaderSize
  let base ← if h.optionalSize = 0 then some 0 else imageBase? file optional
  let headers ← Coff.sectionHeaders? file h (optional + h.optionalSize)
  return (base, headers)

/-- Read a PE file. -/
def parse (file : File) : Except ImageError Image := do
  let (base, headers) ← orMalformed (headers? file)
  layout file base headers

end BinaryLift.Pe
