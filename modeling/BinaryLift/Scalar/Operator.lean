import BinaryLift.Scalar.Constant

/-!
# Operators on words

Each operator has a meaning on plain words at a given type: operands are cut to the type's width
first and the result is cut again. A division by zero, a signed quotient that does not fit in a
word and a shift by the width or more have no result.
-/

namespace BinaryLift

/-- Integer operations with two operands. -/
inductive BinOp where
  | add
  | sub
  | mul
  | udiv
  | sdiv
  | urem
  | srem
  | and
  | or
  | xor
  | shl
  | lshr
  | ashr
deriving DecidableEq, Repr

/-- A signed division that is undefined for a zero divisor and for the one quotient that is not a
signed word. -/
def signedDivides (a b : Word) : Bool := b != 0 && !(a == BitVec.intMin 64 && b == -1)

namespace BinOp

def all : List BinOp :=
  [add, sub, mul, udiv, sdiv, urem, srem, and, or, xor, shl, lshr, ashr]

def isCommutative : BinOp → Bool
  | add | mul | and | or | xor => true
  | _ => false

/-- The operation before the last cut to width, on operands that have been cut already. -/
def raw (op : BinOp) (a b : Word) (ty : Ty) : Option Word :=
  match op with
  | add => some (a + b)
  | sub => some (a - b)
  | mul => some (a * b)
  | udiv => if b = 0 then none else some (a / b)
  | urem => if b = 0 then none else some (a % b)
  | sdiv =>
    let x := signExtend a ty
    let y := signExtend b ty
    if signedDivides x y then some (x.sdiv y) else none
  | srem =>
    let x := signExtend a ty
    let y := signExtend b ty
    if signedDivides x y then some (x.srem y) else none
  | and => some (a &&& b)
  | or => some (a ||| b)
  | xor => some (a ^^^ b)
  | shl => if b.toNat < ty.bits then some (a <<< b.toNat) else none
  | lshr => if b.toNat < ty.bits then some (a >>> b.toNat) else none
  | ashr => if b.toNat < ty.bits then some ((signExtend a ty).sshiftRight b.toNat) else none

/-- The operation at a type. -/
def fold (op : BinOp) (lhs rhs : Word) (ty : Ty) : Option Word :=
  (op.raw (lhs &&& ty.mask) (rhs &&& ty.mask) ty).map (· &&& ty.mask)

/-- Written form. -/
def mnemonic : BinOp → String
  | add => "add"
  | sub => "sub"
  | mul => "mul"
  | udiv => "udiv"
  | sdiv => "sdiv"
  | urem => "urem"
  | srem => "srem"
  | and => "and"
  | or => "or"
  | xor => "xor"
  | shl => "shl"
  | lshr => "lshr"
  | ashr => "ashr"

def ofMnemonic? (s : String) : Option BinOp := all.find? (·.mnemonic == s)

end BinOp

/-- Integer comparisons. -/
inductive Predicate where
  | eq
  | ne
  | ult
  | ule
  | ugt
  | uge
  | slt
  | sle
  | sgt
  | sge
deriving DecidableEq, Repr

namespace Predicate

def all : List Predicate := [eq, ne, ult, ule, ugt, uge, slt, sle, sgt, sge]

/-- The comparison at a type. -/
def fold (p : Predicate) (lhs rhs : Word) (ty : Ty) : Bool :=
  let a := lhs &&& ty.mask
  let b := rhs &&& ty.mask
  let x := (signExtend a ty).toInt
  let y := (signExtend b ty).toInt
  match p with
  | eq => a = b
  | ne => a ≠ b
  | ult => a < b
  | ule => a ≤ b
  | ugt => b < a
  | uge => b ≤ a
  | slt => x < y
  | sle => x ≤ y
  | sgt => y < x
  | sge => y ≤ x

/-- The comparison that says the same with its operands exchanged. -/
def swapped : Predicate → Predicate
  | eq => eq
  | ne => ne
  | ult => ugt
  | ule => uge
  | ugt => ult
  | uge => ule
  | slt => sgt
  | sle => sge
  | sgt => slt
  | sge => sle

/-- Whether the comparison holds of equal operands. -/
def isReflexive : Predicate → Bool
  | eq | ule | uge | sle | sge => true
  | _ => false

/-- Written form. -/
def mnemonic : Predicate → String
  | eq => "eq"
  | ne => "ne"
  | ult => "ult"
  | ule => "ule"
  | ugt => "ugt"
  | uge => "uge"
  | slt => "slt"
  | sle => "sle"
  | sgt => "sgt"
  | sge => "sge"

def ofMnemonic? (s : String) : Option Predicate := all.find? (·.mnemonic == s)

theorem fold_swapped (p : Predicate) (a b : Word) (ty : Ty) :
    p.swapped.fold b a ty = p.fold a b ty := by
  cases p with
  | eq => exact decide_eq_decide.2 eq_comm
  | ne => exact decide_eq_decide.2 ne_comm
  | _ => rfl

end Predicate

/-- Conversions between types. -/
inductive CastOp where
  | trunc
  | zext
  | sext
  | ptrtoint
  | inttoptr
deriving DecidableEq, Repr

namespace CastOp

def all : List CastOp := [trunc, zext, sext, ptrtoint, inttoptr]

/-- The conversion of a payload from one type to another. -/
def fold (op : CastOp) (value : Word) (source target : Ty) : Word :=
  let v := value &&& source.mask
  let wide := match op with
    | sext => signExtend v source
    | _ => v
  wide &&& target.mask

/-- Written form. -/
def mnemonic : CastOp → String
  | trunc => "trunc"
  | zext => "zext"
  | sext => "sext"
  | ptrtoint => "ptrtoint"
  | inttoptr => "inttoptr"

def ofMnemonic? (s : String) : Option CastOp := all.find? (·.mnemonic == s)

end CastOp

end BinaryLift
