import BinaryLift.Word

/-!
# Images

A section maps a range of addresses, counted from the base of its image. Its bytes may be fewer than
its size; the rest reads as zero. An image is a base address and a list of sections. An address belongs to
the first section that contains it. A read takes up to eight bytes, lowest address first, each looked up on
its own.
-/

namespace BinaryLift

/-! ### Sections -/

/-- Access rights of a section. -/
abbrev SectionFlags := BitVec 32

namespace SectionFlags

def readable : SectionFlags := 1#32

def writable : SectionFlags := 2#32

def executable : SectionFlags := 4#32

/-- Each right is present exactly if its condition holds. -/
def ofRights (r w x : Bool) : SectionFlags :=
  (if r then readable else 0) ||| (if w then writable else 0) ||| (if x then executable else 0)

end SectionFlags

/-- A mapped range with its initial bytes. -/
structure Section where
  name : String
  /-- Start, relative to the image base. -/
  address : Word
  size : Word
  flags : SectionFlags
  data : Array Byte := #[]

namespace Section

/-- The first relative address after the section. -/
def stop (s : Section) : Word := Word.addSat s.address s.size

def contains (s : Section) (rva : Word) : Bool := s.address ≤ rva && rva < s.stop

/-- The last relative address of all is in no section. -/
theorem contains_iff {s : Section} {rva : Word} : s.contains rva = true ↔
    s.address.toNat ≤ rva.toNat ∧
      rva.toNat < min (s.address.toNat + s.size.toNat) Word.top.toNat := by
  simp only [contains, stop, Bool.and_eq_true, decide_eq_true_eq, BitVec.le_def, BitVec.lt_def,
    Word.toNat_addSat]

def isReadonly (s : Section) : Bool := s.flags &&& SectionFlags.writable == 0

def isExecutable (s : Section) : Bool := s.flags &&& SectionFlags.executable != 0

/-- The byte at a relative address of the section. -/
def byte? (s : Section) (rva : Word) : Option Byte :=
  if s.contains rva then some (s.data[(rva - s.address).toNat]?.getD 0) else none

end Section

/-! ### Images -/

/-- Value of a byte list, least significant byte first. -/
def littleEndian : List Byte → Nat
  | [] => 0
  | b :: rest => b.toNat + 256 * littleEndian rest

/-- Where the sections of a binary are mapped. -/
structure Image where
  base : Word := 0
  sections : List Section := []

namespace Image

/-- A single readable and executable section that holds exactly the given bytes. -/
def ofCode (base : Word) (code : Array Byte) : Image where
  base := base
  sections := [{
    name := ".text"
    address := 0
    size := BitVec.ofNat 64 code.size
    flags := .ofRights true false true
    data := code }]

/-- The section an address belongs to. -/
def sectionAt (img : Image) (address : Word) : Option Section := do
  let rva ← Word.sub? address img.base
  img.sections.find? (·.contains rva)

def isMapped (img : Image) (address : Word) : Bool := (img.sectionAt address).isSome

def isReadonly (img : Image) (address : Word) : Bool :=
  (img.sectionAt address).any (·.isReadonly)

/-- The byte at an address. -/
def byte? (img : Image) (address : Word) : Option Byte := do
  let s ← img.sectionAt address
  s.byte? (address - img.base)

/-- The bytes at `address`, `address + 1`, …, if all are mapped. -/
def bytes? (img : Image) (address : Word) (count : Nat) : Option (List Byte) :=
  (List.range count).mapM fun i => do
    let a ← Word.add? address (BitVec.ofNat 64 i)
    img.byte? a

/-- Little-endian read of one to eight bytes. -/
def read (img : Image) (address : Word) (width : Nat) : Option Word :=
  if width = 0 ∨ 8 < width then none
  else (img.bytes? address width).map fun bs => BitVec.ofNat 64 (littleEndian bs)

/-- A read whose first and last byte lie in sections without the write right. -/
def readReadonly (img : Image) (address : Word) (width : Nat) : Option Word := do
  let last ← Word.add? address (BitVec.ofNat 64 (max width 1 - 1))
  if img.isReadonly address && img.isReadonly last then img.read address width else none

end Image

end BinaryLift
