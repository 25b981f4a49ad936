import BinaryLift.Image.Layout

/-!
# Object files

Fixed-width fields and strings of a file, and what can be wrong with it. Object files keep names in
tables of NUL-terminated strings and refer to them by offset. An offset may point into the middle of a
string, whose rest is then the name.
-/

namespace BinaryLift

/-! ### Fields -/

/-- The bytes of a file. -/
abbrev File := Array Byte

/-- Order of the bytes of a field. -/
inductive ByteOrder where
  | little
  | big
deriving DecidableEq, Repr

namespace File

/-- The bytes from `offset` on, if the file has that many. -/
def slice? (file : File) (offset size : Nat) : Option (Array Byte) :=
  if offset + size ≤ file.size then some (file.extract offset (offset + size)) else none

/-- An unsigned field. -/
def field? (file : File) (order : ByteOrder) (offset width : Nat) : Option Nat := do
  let bs ← file.slice? offset width
  return littleEndian (match order with
    | .little => bs.toList
    | .big => bs.toList.reverse)

def startsWith (file : File) (mark : List Nat) : Bool :=
  (file.toList.take mark.length).map (·.toNat) == mark

end File

/-- Text of a byte list in UTF-8. -/
def utf8? (bs : List Byte) : Option String :=
  String.fromUTF8? ⟨(bs.map fun b => UInt8.ofNat b.toNat).toArray⟩

/-- The bytes before the first NUL. -/
def cString (bs : List Byte) : List Byte := bs.takeWhile (· ≠ 0)

/-- The NUL-terminated text at an offset; the end of the file ends it, too. -/
def File.textAt? (file : File) (pos : Nat) : Option String :=
  if pos < file.size then utf8? (cString (file.toList.drop pos)) else none

/-- Read a decimal number that may have a plus sign. -/
def signed? : List Char → Option Nat
  | '+' :: cs => decimal? cs
  | cs => decimal? cs

/-- Why a file gives no image. -/
inductive ImageError where
  /-- The headers cannot be read. -/
  | malformed
  | unsupported (format : String)
  | sectionOutOfBounds (name : String) (offset size : Word)
  | addressOverflow (name : String)
  | noSections
deriving DecidableEq, Repr

/-- The text of an error that is reported with one. -/
def ImageError.message? : ImageError → Option String
  | .malformed => none
  | .unsupported format => some ("unsupported object format: " ++ format)
  | .sectionOutOfBounds name offset size =>
    some ("section " ++ name ++ " data out of bounds (offset " ++ Word.hex offset ++
      ", size " ++ Word.hex size ++ ")")
  | .addressOverflow name => some ("virtual address overflow in section " ++ name)
  | .noSections => some "no loadable sections found"

/-- The file bytes of a section. -/
def File.sectionBytes (file : File) (name : String) (offset size : Word) :
    Except ImageError (Array Byte) :=
  match file.slice? offset.toNat size.toNat with
  | some bs => .ok bs
  | none => .error (.sectionOutOfBounds name offset size)

/-- Reading of a header field fails the whole file. -/
def orMalformed {α : Type} : Option α → Except ImageError α
  | some a => .ok a
  | none => .error .malformed

/-! ### String tables -/

/-- The bytes of a table. -/
structure StringTable where
  bytes : List Byte

namespace StringTable

def empty : StringTable := ⟨[]⟩

/-- The table at an offset of a file; all of it is text. -/
def read? (file : File) (offset size : Nat) : Option StringTable := do
  let bs ← file.slice? offset size
  let _ ← utf8? bs.toList
  return ⟨bs.toList⟩

/-- Whether the last string ends with the table and not with a NUL. -/
def isOpen (table : StringTable) : Bool := table.bytes.getLast?.any (· ≠ 0)

/-- How many strings there are. -/
def count (table : StringTable) : Nat :=
  table.bytes.count 0 + (if table.isOpen then 1 else 0)

/-- The string at an offset. Past the last string there is none. -/
def get? (table : StringTable) (offset : Nat) : Option String :=
  if offset < table.bytes.length || (offset = table.bytes.length && table.isOpen) then
    utf8? (cString (table.bytes.drop offset))
  else none

end StringTable

end BinaryLift
