import BinaryLift.Image.File

/-!
# ELF files

Sections that are allocated and not empty are mapped at their own addresses, over base zero. Field
offsets depend on the class of the file (32 or 64 bits).
-/

namespace BinaryLift.Elf

/-- Width of addresses in a file. -/
inductive Class where
  | bits32
  | bits64
deriving DecidableEq, Repr

/-- The parts of a section header that matter here. -/
structure Header where
  name : Nat
  kind : Nat
  flags : Nat
  address : Word
  offset : Word
  size : Word
  link : Nat

/-- Section types that a loader tells apart. -/
def kindNoBits : Nat := 8

/-- An index that stands for "see the first section header". -/
def indexEscape : Nat := 0xffff

/-- Bytes of the file header and of one section header. -/
def Class.headerSize : Class → Nat
  | .bits32 => 52
  | .bits64 => 64

def Class.sectionHeaderSize : Class → Nat
  | .bits32 => 40
  | .bits64 => 64

/-- Place of the table's offset, its length and the index of the name section in the file header,
with the width of the first. -/
def Class.tableFields : Class → (Nat × Nat) × Nat × Nat
  | .bits32 => ((32, 4), 48, 50)
  | .bits64 => ((40, 8), 60, 62)

/-- Read the section header at an offset. -/
def header? (file : File) (order : ByteOrder) (cls : Class) (pos : Nat) : Option Header := do
  let _ ← file.slice? pos cls.sectionHeaderSize
  let word := match cls with
    | .bits32 => 4
    | .bits64 => 8
  let field := fun offset width => file.field? order (pos + offset) width
  return {
    name := ← field 0 4
    kind := ← field 4 4
    flags := ← field 8 word
    address := BitVec.ofNat 64 (← field (8 + word) word)
    offset := BitVec.ofNat 64 (← field (8 + 2 * word) word)
    size := BitVec.ofNat 64 (← field (8 + 3 * word) word)
    link := ← field (8 + 4 * word) 4 }

/-- The section header table. An offset of zero means that there is none; a length of zero means
that the size field of the first header holds it. -/
def headers? (file : File) (order : ByteOrder) (cls : Class) (offset count : Nat) :
    Option (List Header) :=
  if offset = 0 then some []
  else do
    let first ← header? file order cls offset
    let count := if count = 0 then first.size.toNat else count
    if count > file.size / cls.sectionHeaderSize then none
    else
      let rest ← (List.range (count - 1)).mapM fun i =>
        header? file order cls (offset + (i + 1) * cls.sectionHeaderSize)
      return first :: rest

/-- Whether the bytes a header speaks of lie within the file and the address space. -/
def Header.fits (h : Header) (file : File) : Bool :=
  h.kind = kindNoBits || h.size = 0 ||
    (h.offset.toNat + h.size.toNat ≤ file.size && !h.address.uaddOverflow h.size)

/-- The table that holds section names; an index beyond the headers gives the empty one. -/
def nameTable? (file : File) (headers : List Header) (index : Nat) : Option StringTable :=
  let index := if index = indexEscape then (headers.head?.map (·.link)).getD index else index
  match headers[index]? with
  | none => some StringTable.empty
  | some h => if h.fits file then StringTable.read? file h.offset.toNat h.size.toNat else none

/-- The section of a header, if it is to be mapped. -/
def Header.section? (h : Header) (file : File) (name : String) :
    Except ImageError (Option Section) :=
  if !h.flags.testBit 1 || h.size = 0 then return none
  else do
    if (Word.add? h.address h.size).isNone then throw (.addressOverflow name)
    let data ←
      if h.kind = kindNoBits then pure #[] else file.sectionBytes name h.offset h.size
    return some {
      name := name
      address := h.address
      size := h.size
      flags := .ofRights true (h.flags.testBit 0) (h.flags.testBit 2)
      data := data }

/-- The image of a list of named headers. -/
def layout (file : File) (headers : List (String × Header)) : Except ImageError Image := do
  let found ← headers.mapM fun e => e.2.section? file e.1
  return { base := 0, sections := found.filterMap id }

/-- The byte order and class a file declares. -/
def identity? (file : File) : Option (ByteOrder × Class) := do
  let cls ← match (← file.field? .little 4 1) with
    | 1 => some Class.bits32
    | 2 => some Class.bits64
    | _ => none
  let order ← match (← file.field? .little 5 1) with
    | 1 => some ByteOrder.little
    | 2 => some ByteOrder.big
    | _ => none
  return (order, cls)

/-- The section headers of a file with their names. -/
def namedHeaders? (file : File) : Option (List (String × Header)) := do
  let (order, cls) ← identity? file
  let _ ← file.slice? 0 cls.headerSize
  let ((offsetAt, width), countAt, indexAt) := cls.tableFields
  let offset ← file.field? order offsetAt width
  let count ← file.field? order countAt 2
  let index ← file.field? order indexAt 2
  let headers ← headers? file order cls offset count
  let table ← nameTable? file headers index
  return headers.map fun h => ((table.get? h.name).getD "", h)

/-- Read an ELF file. -/
def parse (file : File) : Except ImageError Image := do
  layout file (← orMalformed (namedHeaders? file))

end BinaryLift.Elf
