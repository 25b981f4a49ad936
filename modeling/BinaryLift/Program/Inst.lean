import BinaryLift.Scalar.Constant
import BinaryLift.Scalar.Operator

/-!
# Instructions

Instructions, blocks and functions are named by handles: positions in the arenas that hold them. A value
is what an operand may be: a constant, a parameter of the enclosing function, or the result of an
instruction. An instruction is a kind with its operands and an optional result type; operands are visited
in written order, in reading (`operands`) as in replacing (`mapOperands`, `traverse`). A terminator says
where control goes at the end of a block. Indirect jumps, returns and `unreachable` leave the function.
-/

namespace BinaryLift

/-! ### Handles and values -/

/-- Handle of an instruction within its function. -/
structure InstId where
  index : Nat
deriving DecidableEq, Repr

/-- Handle of a block within its function. -/
structure BlockId where
  index : Nat
deriving DecidableEq, Repr

/-- Handle of a function within its module. -/
structure FuncId where
  index : Nat
deriving DecidableEq, Repr

def InstId.text (i : InstId) : String := "%" ++ Nat.repr i.index

def BlockId.text (b : BlockId) : String := "bb" ++ Nat.repr b.index

def FuncId.text (f : FuncId) : String := "@f" ++ Nat.repr f.index

/-- Handles are ordered by age. -/
def BlockId.le (a b : BlockId) : Bool := a.index ≤ b.index

/-- An operand. -/
inductive Value where
  | const (c : Constant)
  | arg (index : Nat)
  | inst (id : InstId)
deriving DecidableEq

namespace Value

/-- The constant with the low bits of a word. -/
def int (w : Word) (ty : Ty) : Value := .const (.ofWord w ty)

/-- A truth value. -/
def bool (b : Bool) : Value := int (if b then 1 else 0) .i1

def const? : Value → Option Constant
  | .const c => some c
  | _ => none

def inst? : Value → Option InstId
  | .inst id => some id
  | _ => none

def isConst : Value → Bool
  | .const _ => true
  | _ => false

/-- Payload of a constant. -/
def bits? (v : Value) : Option Word := v.const?.map (·.bits)

/-- Written form. -/
def text : Value → String
  | .const c => c.text
  | .arg n => "%arg" ++ Nat.repr n
  | .inst id => id.text

/-- Read a written value; the payload of a constant is cut to its type. -/
def ofText? (s : String) : Option Value :=
  match s.toList with
  | '%' :: 'a' :: 'r' :: 'g' :: cs => (decimal? cs).map .arg
  | '%' :: cs => (decimal? cs).map fun n => .inst ⟨n⟩
  | cs => do
    let ty ← Ty.ofText? (String.ofList (cs.takeWhile (· ≠ ' ')))
    let w ← Word.ofHex? (String.ofList ((cs.dropWhile (· ≠ ' ')).drop 1))
    return int w ty

end Value

/-! ### Instructions -/

/-- What an instruction does. -/
inductive Kind where
  /-- A local slot of `size` bytes. -/
  | alloca (size : Nat)
  | load (ptr : Value)
  | store (ptr value : Value)
  | binary (op : BinOp) (lhs rhs : Value)
  | icmp (pred : Predicate) (lhs rhs : Value)
  | cast (op : CastOp) (value : Value)
  /-- The address `offset` bytes after `base`. -/
  | ptrAdd (base offset : Value)
  | select (cond ifTrue ifFalse : Value)
  | phi (incoming : List (BlockId × Value))
  | call (callee : FuncId) (args : List Value)
deriving DecidableEq

namespace Kind

/-- The operands in order. -/
def operands : Kind → List Value
  | alloca _ => []
  | load p => [p]
  | store p v => [p, v]
  | binary _ a b => [a, b]
  | icmp _ a b => [a, b]
  | cast _ v => [v]
  | ptrAdd b o => [b, o]
  | select c t f => [c, t, f]
  | phi inc => inc.map (·.2)
  | call _ args => args

/-- Replace every operand. -/
def mapOperands (g : Value → Value) : Kind → Kind
  | alloca n => alloca n
  | load p => load (g p)
  | store p v => store (g p) (g v)
  | binary op a b => binary op (g a) (g b)
  | icmp p a b => icmp p (g a) (g b)
  | cast op v => cast op (g v)
  | ptrAdd b o => ptrAdd (g b) (g o)
  | select c t f => select (g c) (g t) (g f)
  | phi inc => phi (inc.map fun e => (e.1, g e.2))
  | call f args => call f (args.map g)

/-- Replace every operand in order, with effects. -/
def traverse {m : Type → Type} [Monad m] (g : Value → m Value) : Kind → m Kind
  | alloca n => pure (alloca n)
  | load p => return load (← g p)
  | store p v => return store (← g p) (← g v)
  | binary op a b => return binary op (← g a) (← g b)
  | icmp p a b => return icmp p (← g a) (← g b)
  | cast op v => return cast op (← g v)
  | ptrAdd b o => return ptrAdd (← g b) (← g o)
  | select c t f => return select (← g c) (← g t) (← g f)
  | phi inc => return phi (← inc.mapM fun e => return (e.1, ← g e.2))
  | call f args => return call f (← args.mapM g)

/-- Kept even when nobody reads the result. -/
def hasSideEffects : Kind → Bool
  | store .. | call .. => true
  | _ => false

def readsMemory : Kind → Bool
  | load _ | call .. => true
  | _ => false

def writesMemory : Kind → Bool
  | store .. | call .. => true
  | _ => false

def isPhi : Kind → Bool
  | phi _ => true
  | _ => false

def isAlloca : Kind → Bool
  | alloca _ => true
  | _ => false

/-- The result is a function of the operands alone. -/
def isPure : Kind → Bool
  | binary .. | icmp .. | cast .. | ptrAdd .. | select .. => true
  | _ => false

/-- The function called, if this is a call. -/
def callee? : Kind → Option FuncId
  | call f _ => some f
  | _ => none

/-- Change the incoming list of a phi; other kinds stay. -/
def mapIncoming (g : List (BlockId × Value) → List (BlockId × Value)) : Kind → Kind
  | phi inc => phi (g inc)
  | k => k

theorem operands_mapOperands (g : Value → Value) (k : Kind) :
    (k.mapOperands g).operands = k.operands.map g := by
  cases k <;> simp [mapOperands, operands]

theorem mapOperands_id (k : Kind) : k.mapOperands id = k := by
  cases k <;> simp [mapOperands]

/-- Written form without the result. -/
def text : Kind → String
  | alloca n => "alloca " ++ Nat.repr n
  | load p => "load " ++ p.text
  | store p v => "store " ++ v.text ++ ", " ++ p.text
  | binary op a b => op.mnemonic ++ " " ++ a.text ++ ", " ++ b.text
  | icmp p a b => "icmp " ++ p.mnemonic ++ " " ++ a.text ++ ", " ++ b.text
  | cast op v => op.mnemonic ++ " " ++ v.text
  | ptrAdd b o => "ptradd " ++ b.text ++ ", " ++ o.text
  | select c t f => "select " ++ c.text ++ ", " ++ t.text ++ ", " ++ f.text
  | phi inc =>
    "phi " ++ ", ".intercalate (inc.map fun e => "[" ++ e.2.text ++ ", " ++ e.1.text ++ "]")
  | call f args => "call " ++ f.text ++ "(" ++ ", ".intercalate (args.map Value.text) ++ ")"

end Kind

/-- A kind and its result type, absent if there is no result. -/
structure Inst where
  kind : Kind
  ty : Option Ty
deriving DecidableEq

/-! ### Terminators -/

/-- The end of a block. -/
inductive Terminator where
  | jump (target : BlockId)
  | branch (cond : Value) (thenBlock elseBlock : BlockId)
  | indirect (target : Value)
  | ret (value : Option Value)
  | unreachable
deriving DecidableEq

namespace Terminator

/-- Successor blocks in edge order; a branch with equal arms lists its block twice. -/
def successors : Terminator → List BlockId
  | jump b => [b]
  | branch _ t e => [t, e]
  | _ => []

def operands : Terminator → List Value
  | branch c _ _ => [c]
  | indirect v => [v]
  | ret (some v) => [v]
  | _ => []

/-- Replace every operand. -/
def mapOperands (g : Value → Value) : Terminator → Terminator
  | branch c t e => branch (g c) t e
  | indirect v => indirect (g v)
  | ret v => ret (v.map g)
  | t => t

/-- Turn every edge to `old` into an edge to `new`. -/
def replaceSuccessor (old new : BlockId) : Terminator → Terminator
  | jump b => jump (if b = old then new else b)
  | branch c t e => branch c (if t = old then new else t) (if e = old then new else e)
  | t => t

/-- Control leaves the function here. -/
def isExit : Terminator → Bool
  | jump _ | branch .. => false
  | _ => true

theorem operands_mapOperands (g : Value → Value) (t : Terminator) :
    (t.mapOperands g).operands = t.operands.map g := by
  cases t with
  | ret v => cases v <;> rfl
  | _ => rfl

theorem mapOperands_id (t : Terminator) : t.mapOperands id = t := by
  cases t <;> simp [mapOperands]

theorem successors_mapOperands (g : Value → Value) (t : Terminator) :
    (t.mapOperands g).successors = t.successors := by
  cases t <;> rfl

theorem successors_replaceSuccessor (old new : BlockId) (t : Terminator) :
    (t.replaceSuccessor old new).successors =
      t.successors.map fun b => if b = old then new else b := by
  cases t <;> rfl

/-- Written form. -/
def text : Terminator → String
  | jump b => "br " ++ b.text
  | branch c t e => "br " ++ c.text ++ ", " ++ t.text ++ ", " ++ e.text
  | indirect v => "indirectbr " ++ v.text
  | ret (some v) => "ret " ++ v.text
  | ret none => "ret void"
  | unreachable => "unreachable"

end Terminator

end BinaryLift
