import BinaryLift.Program.Func.Editing

/-!
# Edits

The ways in which a client changes a function, as data: so that a sequence of changes is a list.
An `Emission` is a change at the end of a block with the result type worked out from its operands.
-/

namespace BinaryLift

/-- What can be emitted at the end of a block. -/
inductive Emission where
  | alloca (size : Nat)
  | load (ptr : Value) (ty : Ty)
  | store (ptr value : Value)
  /-- Has the type of its left operand. -/
  | binary (op : BinOp) (lhs rhs : Value)
  | icmp (pred : Predicate) (lhs rhs : Value)
  | cast (op : CastOp) (value : Value) (ty : Ty)
  | ptrAdd (base offset : Value)
  /-- Has the type of its first arm. -/
  | select (cond ifTrue ifFalse : Value)
  /-- Goes after the phis the block starts with. -/
  | phi (ty : Ty) (incoming : List (BlockId × Value))
  | call (callee : FuncId) (args : List Value) (ret : Option Ty)
  | term (t : Terminator)

namespace Emission

def add (a b : Value) : Emission := .binary .add a b

def sub (a b : Value) : Emission := .binary .sub a b

def and (a b : Value) : Emission := .binary .and a b

def trunc (v : Value) (ty : Ty) : Emission := .cast .trunc v ty

def zext (v : Value) (ty : Ty) : Emission := .cast .zext v ty

def intToPtr (v : Value) : Emission := .cast .inttoptr v .ptr

def ptrToInt (v : Value) : Emission := .cast .ptrtoint v .i64

/-- A signed constant distance from a pointer. -/
def ptrOffset (base : Value) (offset : Int) : Emission :=
  .ptrAdd base (.int (BitVec.ofInt 64 offset) .i64)

end Emission

namespace Func

/-- Type of an operand, a full word if it has none. -/
def tyOr64 (f : Func) (v : Value) : Checked Ty := return (← f.valueTy v).getD .i64

/-- Append and name the result. -/
def emitInst (f : Func) (b : BlockId) (kind : Kind) (ty : Option Ty) :
    Checked (Func × Option Value) := do
  let (f, id) ← f.appendInst b ⟨kind, ty⟩
  return (f, some (.inst id))

/-- Emit at the end of a block. The value is the result, if there is one. -/
def emit (f : Func) (b : BlockId) : Emission → Checked (Func × Option Value)
  | .alloca n => f.emitInst b (.alloca n) (some .ptr)
  | .load p ty => f.emitInst b (.load p) (some ty)
  | .store p v => return ((← f.emitInst b (.store p v) none).1, none)
  | .binary op x y => do f.emitInst b (.binary op x y) (some (← f.tyOr64 x))
  | .icmp p x y => f.emitInst b (.icmp p x y) (some .i1)
  | .cast op v ty => f.emitInst b (.cast op v) (some ty)
  | .ptrAdd x y => f.emitInst b (.ptrAdd x y) (some .ptr)
  | .select c x y => do f.emitInst b (.select c x y) (some (← f.tyOr64 x))
  | .phi ty inc => do
    let (g, id) ← f.insertInst b (← f.phis b).length ⟨.phi inc, some ty⟩
    return (g, some (.inst id))
  | .call g args ret => do
    let (f, v) ← f.emitInst b (.call g args) ret
    return (f, ret.bind fun _ => v)
  | .term t => return (← f.setTerm b t, none)

end Func

/-- A change of a function. -/
inductive Edit where
  | addBlock (address : Option Word)
  | append (block : BlockId) (inst : Inst)
  | insert (block : BlockId) (index : Nat) (inst : Inst)
  | insertBefore (anchor : InstId) (inst : Inst)
  | removeInst (id : InstId)
  | removeBlock (block : BlockId)
  | mergeBlocks (into source : BlockId)
  | setTerm (block : BlockId) (term : Terminator)
  | replaceSuccessor (block old new : BlockId)
  | replaceAllUses (old new : Value)
  | removePhiIncoming (block pred : BlockId)
  | emit (block : BlockId) (emission : Emission)

namespace Edit

/-- What an edit made. -/
inductive Made where
  | nothing
  | block (id : BlockId)
  | inst (id : InstId)
  | value (v : Value)

/-- Carry out one edit. -/
def apply (f : Func) : Edit → Checked (Func × Made)
  | .addBlock a => let (f, id) := f.addBlock a; return (f, .block id)
  | .append b i => return (← f.appendInst b i).map id .inst
  | .insert b n i => return (← f.insertInst b n i).map id .inst
  | .insertBefore a i => return (← f.insertBefore a i).map id .inst
  | .removeInst i => return (← f.removeInst i, .nothing)
  | .removeBlock b => return (f.removeBlock b, .nothing)
  | .mergeBlocks a b => return (← f.mergeBlocks a b, .nothing)
  | .setTerm b t => return (← f.setTerm b t, .nothing)
  | .replaceSuccessor b old new =>
    return (← f.modifyBlock b fun data =>
      { data with term := data.term.replaceSuccessor old new }, .nothing)
  | .replaceAllUses v w => return (f.replaceAllUses v w, .nothing)
  | .removePhiIncoming b p => return (← f.removePhiIncoming b p, .nothing)
  | .emit b e => do
    let (f, v) ← f.emit b e
    return (f, v.elim .nothing .value)

/-- Carry out edits from left to right. -/
def applyAll (f : Func) (edits : List Edit) : Checked Func :=
  edits.foldlM (fun f e => return (← e.apply f).1) f

end Edit

end BinaryLift
