import BinaryLift.Word

/-!
# Types and constants

Values are integers of 1, 8, 16, 32 or 64 bits, or pointers into the lifted address space. A constant is
a payload together with a type; the payload never has bits above the type's width.
-/

namespace BinaryLift

/-! ### Types -/

/-- The type of a value. -/
inductive Ty where
  | i1
  | i8
  | i16
  | i32
  | i64
  | ptr
deriving DecidableEq, Repr

namespace Ty

/-- Every type, narrow to wide. -/
def all : List Ty := [i1, i8, i16, i32, i64, ptr]

/-- Width in bits. -/
def bits : Ty → Nat
  | i1 => 1
  | i8 => 8
  | i16 => 16
  | i32 => 32
  | i64 => 64
  | ptr => 64

/-- Storage size in bytes; a single bit takes a whole one. -/
def bytes (t : Ty) : Nat := (t.bits + 7) / 8

/-- The word with exactly the low `bits` bits set. -/
def mask (t : Ty) : Word := (BitVec.allOnes t.bits).setWidth 64

/-- Whether values of this type are addresses. -/
def isPtr : Ty → Bool
  | ptr => true
  | _ => false

/-- The integer type that fills the given number of bytes. -/
def ofBytes? : Nat → Option Ty
  | 1 => some i8
  | 2 => some i16
  | 4 => some i32
  | 8 => some i64
  | _ => none

/-- Written form. -/
def text : Ty → String
  | i1 => "i1"
  | i8 => "i8"
  | i16 => "i16"
  | i32 => "i32"
  | i64 => "i64"
  | ptr => "ptr"

/-- Read a written type. -/
def ofText? (s : String) : Option Ty := all.find? (·.text == s)

theorem bits_pos (t : Ty) : 0 < t.bits := by cases t <;> decide

theorem bits_le (t : Ty) : t.bits ≤ 64 := by cases t <;> decide

end Ty

/-- The low `ty.bits` bits of a word, the highest of them copied upwards. -/
def signExtend (w : Word) (ty : Ty) : Word :=
  (w <<< (64 - ty.bits)).sshiftRight (64 - ty.bits)

/-! ### Constants -/

/-- A typed literal. -/
structure Constant where
  bits : Word
  ty : Ty
  masked : bits &&& ty.mask = bits
deriving DecidableEq

namespace Constant

/-- The constant that keeps the low bits of a word. -/
def ofWord (w : Word) (ty : Ty) : Constant where
  bits := w &&& ty.mask
  ty := ty
  masked := by rw [BitVec.and_assoc, BitVec.and_self]

/-- The payload read as a two's-complement number. -/
def signed (c : Constant) : Int := (signExtend c.bits c.ty).toInt

def isZero (c : Constant) : Bool := c.bits == 0

/-- Whether every bit of the width is set. -/
def isAllOnes (c : Constant) : Bool := c.bits == c.ty.mask

/-- Written form: type, then payload. -/
def text (c : Constant) : String := c.ty.text ++ " " ++ Word.hex c.bits

end Constant

end BinaryLift
