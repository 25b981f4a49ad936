import BinaryLift.Image.File

/-!
# Archives

An archive is a mark and a row of members, each at an even offset with a header of sixty bytes.
Names and sizes are text, padded with blanks. A member name may say that the real name stands in
front of the contents. Some names are reserved: for an index of symbols, a directory of symbols, and
a table of long names. Archives are checked but not loaded.
-/

namespace BinaryLift.Archive

def mark : List Nat := [0x21, 0x3c, 0x61, 0x72, 0x63, 0x68, 0x3e, 0x0a]

def headerSize : Nat := 60

/-- Names of a directory of symbols, which stand in front of the contents. -/
def directoryNames : List String := ["__.SYMDEF", "__.SYMDEF SORTED"]

/-- A member: where its header is, its name field and the name in front of its contents, and where
the contents are. -/
structure Member where
  header : Nat
  name : List Char
  leadingName : Option (List Char)
  offset : Nat
  size : Nat

/-- White space of any script. -/
def isBlank (c : Char) : Bool :=
  let n := c.toNat
  (9 ≤ n && n ≤ 13) || (0x2000 ≤ n && n ≤ 0x200a) ||
    [0x20, 0x85, 0xa0, 0x1680, 0x2028, 0x2029, 0x202f, 0x205f, 0x3000].contains n

/-- A list without the trailing characters that pass a test. -/
def trimEnd (test : Char → Bool) (cs : List Char) : List Char :=
  (cs.reverse.dropWhile test).reverse

/-- The text at an offset. -/
def text? (file : File) (pos size : Nat) : Option (List Char) := do
  let bs ← file.slice? pos size
  return (← utf8? bs.toList).toList

/-- The length of a name that stands in front of the contents. -/
def leadingLength? : List Char → Option Nat
  | '#' :: '1' :: '/' :: cs => signed? (trimEnd (· = ' ') cs)
  | _ => none

/-- Read the member at an offset. Its size counts a leading name; a name that leaves nothing of the
contents is taken for contents. -/
def member? (file : File) (pos : Nat) : Option Member := do
  let _ ← file.slice? pos headerSize
  let name ← text? file pos 16
  let size ← signed? (trimEnd isBlank (← text? file (pos + 48) 10))
  let start := pos + headerSize
  let plain : Member := ⟨pos, name, none, start, size⟩
  match leadingLength? name with
  | none => return plain
  | some length =>
    let leading := trimEnd (· = Char.ofNat 0) (← text? file start length)
    if file.size ≤ start then none
    else if size ≤ length then return plain
    else return ⟨pos, name, some leading, start + length, size - length⟩

/-- What a member is for. -/
inductive Role where
  | contents
  /-- An index of symbols. -/
  | symbols
  /-- A directory of symbols. -/
  | directory
  /-- A table of names that are too long for their field. -/
  | longNames
deriving DecidableEq

def Member.role (m : Member) : Role :=
  if trimEnd (· = ' ') m.name = ['/'] then .symbols
  else if trimEnd (· = ' ') m.name = ['/', '/'] then .longNames
  else if directoryNames.any fun name => m.leadingName = some name.toList then .directory
  else .contents

/-- The contents of a member. -/
def Member.data? (m : Member) (file : File) : Option File := file.slice? m.offset m.size

/-- Whether a table of long names is text. It is read with the byte before it. -/
def longNamesFit (file : File) (m : Member) : Bool :=
  0 < m.size && (text? file (m.offset - 1) (m.size + 1)).isSome

/-! ### Indexes -/

/-- The names after the numbers of an index, which run to its end. -/
def names? (data : File) (pos : Nat) : Option StringTable :=
  if data.size < pos then none else StringTable.read? data pos (data.size - pos)

/-- The offsets in an index of symbols that belong to a name. -/
def symbolOffsets? (data : File) : Option (List Nat) := do
  let count ← data.field? .big 0 4
  if data.size < 4 + 4 * count then none
  else
    let offsets ← (List.range count).mapM fun i => data.field? .big (4 + 4 * i) 4
    return offsets.take (← names? data (4 + 4 * count)).count

/-- The offsets in a second index of symbols that belong to a name. It lists the members first, and
each symbol has the number of its member, counted from one. -/
def memberOffsets? (data : File) : Option (List Nat) := do
  let memberCount ← data.field? .little 0 4
  let count ← data.field? .little (4 + 4 * memberCount) 4
  let numbersAt := 8 + 4 * memberCount
  let names ← names? data (numbersAt + 2 * count)
  let offsets ← (List.range count).mapM fun i => do
    let number ← data.field? .little (numbersAt + 2 * i) 2
    if number = 0 ∨ memberCount < number then none else data.field? .little (4 * number) 4
  return offsets.take names.count

/-- The offsets in a directory: pairs of the offset of a name and the offset of a member, with the
number of bytes of the pairs before them and the names after them. -/
def directoryOffsets? (data : File) : Option (List Nat) := do
  let size ← data.field? .little 0 4
  let namesSize ← data.field? .little (size + 4) 4
  let names ← StringTable.read? data (size + 8) namesSize
  (List.range (size / 8)).mapM fun i => do
    let _ ← names.get? (← data.field? .little (8 * i + 4) 4)
    data.field? .little (8 * i + 8) 4

/-- The kinds of index an archive may have read. -/
inductive Index where
  | first
  | second
  | directory
deriving DecidableEq

/-! ### Archives -/

/-- What is known of the members so far: the headers of those with contents, the last index, and the
headers it speaks of. -/
structure Contents where
  headers : List Nat := []
  index : Option Index := none
  offsets : List Nat := []

/-- Take note of a member. An index of symbols may be followed by a second one; otherwise there is
one index at most. -/
def Contents.add? (c : Contents) (file : File) (m : Member) : Option Contents :=
  match m.role, c.index with
  | .contents, _ => some { c with headers := c.headers ++ [m.header] }
  | .longNames, _ => if longNamesFit file m then some c else none
  | .symbols, none => do
    return { c with index := some .first, offsets := ← symbolOffsets? (← m.data? file) }
  | .symbols, some .first => do
    return { c with index := some .second, offsets := ← memberOffsets? (← m.data? file) }
  | .directory, none => do
    return { c with index := some .directory, offsets := ← directoryOffsets? (← m.data? file) }
  | _, _ => none

/-- Take note of the members from an offset on; `n` is at least the number of them. -/
def contentsFrom? (file : File) : Nat → Nat → Contents → Option Contents
  | 0, _, _ => none
  | n + 1, pos, c =>
    if file.size ≤ pos + 1 then some c
    else do
      let m ← member? file (pos + pos % 2)
      contentsFrom? file n (m.offset + m.size) (← c.add? file m)

/-- Check that the members of an archive follow each other to the end, that the reserved ones can be
read and that an index speaks of members that are there. -/
def check (file : File) : Except ImageError Unit := do
  let c ← orMalformed (contentsFrom? file file.size mark.length {})
  if c.offsets.all c.headers.contains then return () else throw .malformed

end BinaryLift.Archive
