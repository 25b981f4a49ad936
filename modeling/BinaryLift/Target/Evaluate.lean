import BinaryLift.Image.Layout
import BinaryLift.Program.Func.Basic
import BinaryLift.Table
import BinaryLift.Target.ValueSet

/-!
# Evaluation of definitions

What values an operand may take, found by following its definition. The strict mode answers for
every path: a definition that leads back to itself is unknown, and only read-only bytes of the image
count. The speculative mode takes nothing from a cycle and may read all bytes at their initial
contents. Definitions are followed `maxDepth` steps deep.
-/

namespace BinaryLift

/-- Where loads may be evaluated from. -/
structure MemoryView where
  image : Option Image := none
  /-- The parameter that addresses are counted from. -/
  memoryArg : Option Nat := none
  /-- Never read bytes that may be written. -/
  readonly : Bool := false

/-- How optimistic an evaluation is. -/
inductive EvalMode where
  | strict
  | speculative
deriving DecidableEq

/-- What one evaluation is about. -/
structure EvalQuery where
  func : Func
  memory : MemoryView
  mode : EvalMode

/-- Evaluation with the results of instructions found so far. -/
abbrev EvalM := StateT (Table InstId ValueSet) Checked

namespace EvalQuery

/-- How many definitions are followed one after another. -/
def maxDepth : Nat := 64

/-- A value that leads back to itself. -/
def onCycle (q : EvalQuery) : ValueSet :=
  match q.mode with
  | .strict => .unknown
  | .speculative => .empty

/-- Read one address as the view allows. -/
def readAt (q : EvalQuery) (img : Image) (width : Nat) (address : Word) : Option Word :=
  if q.mode = .strict ∨ q.memory.readonly then img.readReadonly address width
  else img.read address width

/-- Type of an operand, a full word if it has none. -/
def ty (q : EvalQuery) (v : Value) : EvalM Ty := return (← q.func.valueTy v).getD .i64

/-- Whether a value is the parameter that addresses are counted from. -/
def isMemory (q : EvalQuery) : Value → Bool
  | .arg n => q.memory.memoryArg == some n
  | _ => false

/-- The union of the values of a list, left to right until nothing is known. -/
def mergeAll (eval : Value → EvalM ValueSet) : ValueSet → List Value → EvalM ValueSet
  | acc, [] => return acc
  | acc, v :: vs => do
    let acc := acc.merge (← eval v)
    if acc.isUnknown then return acc else mergeAll eval acc vs

/-- The absolute addresses a pointer may hold: a converted integer, an offset from the memory
parameter, or an offset from such a pointer. -/
def address (q : EvalQuery) (eval : Value → EvalM ValueSet) : Nat → Value → EvalM ValueSet
  | 0, _ => throw .stepLimit
  | n + 1, .inst id => do
    if !q.func.isLive id then return .unknown
    match (← q.func.kind id) with
    | .cast .inttoptr v => eval v
    | .ptrAdd base offset =>
      if q.isMemory base then eval offset
      else
        let b ← address q eval n base
        let o ← eval offset
        return b.product o fun x y => some (x + y)
    | _ => return .unknown
  | _, _ => return .unknown

/-- The values a load may give. -/
def load (q : EvalQuery) (eval : Value → EvalM ValueSet) (ptr : Value) (ty : Ty) :
    EvalM ValueSet :=
  match q.memory.image with
  | none => return .unknown
  | some img => return (← q.address eval (q.func.arena.size + 1) ptr).map (q.readAt img ty.bytes)

/-- The values an instruction may give, from those of its operands. -/
def inst (q : EvalQuery) (eval : Value → EvalM ValueSet) (i : Inst) : EvalM ValueSet :=
  let ty := i.ty.getD .i64
  match i.kind with
  | .binary op lhs rhs => do
    let a ← eval lhs
    let b ← eval rhs
    return a.product b fun x y => op.fold x y ty
  | .icmp p lhs rhs => do
    let operandTy ← q.ty lhs
    let a ← eval lhs
    let b ← eval rhs
    return a.product b fun x y => some (if p.fold x y operandTy then 1 else 0)
  | .cast op v => do
    let source ← q.ty v
    return (← eval v).map fun x => some (op.fold x source ty)
  | .ptrAdd base offset => do
    let a ← eval base
    let b ← eval offset
    return a.product b fun x y => some (x + y)
  | .select cond ifTrue ifFalse => do
    let c ← eval cond
    if c = .single 1 then eval ifTrue
    else if c = .single 0 then eval ifFalse
    else
      let t ← eval ifTrue
      let f ← eval ifFalse
      return t.merge f
  | .phi incoming => mergeAll eval .empty (incoming.map (·.2))
  | .load ptr => q.load eval ptr ty
  | .alloca _ => return .unknown
  | .store .. => return .unknown
  | .call .. => return .unknown

/-- The values of an operand, following at most `n` definitions; `path` holds the instructions whose
evaluation is under way. -/
def value (q : EvalQuery) : Nat → List InstId → Value → EvalM ValueSet
  | _, _, .const c => return .single c.bits
  | _, _, .arg _ => return .unknown
  | 0, _, .inst _ => return .unknown
  | n + 1, path, .inst id => do
    if !q.func.isLive id then return .unknown
    match (← get).get? id with
    | some found => return found
    | none =>
      if id ∈ path then return q.onCycle
      let result ← q.inst (value q n (id :: path)) (← q.func.inst id)
      modify fun cache => cache.insert id result
      return result

/-- The values an operand may take. -/
def run (q : EvalQuery) (v : Value) : Checked ValueSet :=
  return (← (q.value (maxDepth + 1) [] v).run []).1

end EvalQuery

/-- A view of the read-only bytes of an image. -/
def MemoryView.readonlyImage (img : Image) (memoryArg : Option Nat) : MemoryView :=
  { image := some img, memoryArg := memoryArg, readonly := true }

/-- A view of all bytes of an image. -/
def MemoryView.wholeImage (img : Image) (memoryArg : Option Nat) : MemoryView :=
  { image := some img, memoryArg := memoryArg, readonly := false }

/-- The one value an operand has on every path. -/
def solve (memory : MemoryView) (f : Func) (v : Value) : Checked (Option Word) :=
  return (← EvalQuery.run ⟨f, memory, .strict⟩ v).single?

/-- The values an operand is expected to take; none if nothing is known. -/
def enumerate (memory : MemoryView) (f : Func) (v : Value) : Checked AddressSet :=
  return .ofList ((← EvalQuery.run ⟨f, memory, .speculative⟩ v).values?.getD [])

end BinaryLift
