import BinaryLift.Image.Layout
import BinaryLift.Program.Func.Editing
import BinaryLift.Program.Module
import BinaryLift.Program.Iteration

/-!
# Memory accesses

Guest memory is one flat region: an offset from the memory parameter is an absolute address, the same as an
integer converted to a pointer. Loads from addresses known to hold a constant are folded (`gep-load`),
offsets from the memory parameter are written as converted integers (`promote-pseudo-memory`), and a wide
load that is only ever cut down becomes a narrow one (`replace-trunc-with-load`).
-/

namespace BinaryLift

/-- Which bytes of the image count as constant. -/
inductive MemoryPolicy where
  | never
  | readOnly
  | allMapped
deriving DecidableEq, Repr

namespace MemoryPolicy

def all : List MemoryPolicy := [never, readOnly, allMapped]

/-- Read as far as the policy allows. -/
def read (p : MemoryPolicy) (img : Image) (address : Word) (width : Nat) : Option Word :=
  match p with
  | never => none
  | readOnly => img.readReadonly address width
  | allMapped => img.read address width

end MemoryPolicy

namespace Func

/-- The absolute address of a pointer: a converted constant, a constant offset from the memory
parameter, or a constant offset from such a pointer. -/
def constantAddressIn (f : Func) (memory : Nat) : Nat → Value → Checked (Option Word)
  | 0, _ => .error .stepLimit
  | n + 1, .inst id => do
    if !f.isLive id then return none
    match (← f.kind id) with
    | .cast .inttoptr (.const c) => return some c.bits
    | .ptrAdd base (.const c) =>
      if base = .arg memory then return some c.bits
      return (← constantAddressIn f memory n base).map (· + c.bits)
    | _ => return none
  | _, _ => return none

/-- The absolute address of a pointer; a chain of distinct instructions is no longer than the
arena. -/
def constantAddress (f : Func) (memory : Nat) (ptr : Value) : Checked (Option Word) :=
  f.constantAddressIn memory (f.arena.size + 1) ptr

/-- The constant an integer load gives. -/
def constantLoad (f : Func) (img : Image) (memory : Nat) (policy : MemoryPolicy) (id : InstId) :
    Checked (Option Value) := do
  let i ← f.inst id
  match i.kind, i.ty with
  | .load ptr, some ty =>
    if ty.isPtr then return none
    let address ← f.constantAddress memory ptr
    return (address.bind fun a => policy.read img a ty.bytes).map fun w => .int w ty
  | _, _ => return none

/-- Fold the loads of a function whose contents are constant. -/
def foldImageLoads (img : Image) (memory : Nat) (policy : MemoryPolicy) (f : Func) : Transformed :=
  sweepOver (fun f id => do
    match (← f.constantLoad img memory policy id) with
    | some v => return (← (f.replaceAllUses (.inst id) v).removeInst id, true)
    | none => return (f, false)) f f.liveInsts

/-- Write offsets from the memory parameter as converted integers. -/
def flattenMemory (memory : Nat) (f : Func) : Transformed :=
  sweepOver (fun f id => do
    match (← f.kind id) with
    | .ptrAdd base offset =>
      if base = .arg memory then return (f.modifyKind id fun _ => .cast .inttoptr offset, true)
      else return (f, false)
    | _ => return (f, false)) f f.liveInsts

/-- The integer load that an instruction cuts down, and its pointer. -/
def narrowable? (f : Func) (id : InstId) : Checked (Option (InstId × Value)) := do
  match (← f.kind id) with
  | .cast .trunc (.inst load) =>
    if !f.isLive load then return none
    match (← f.inst load) with
    | ⟨.load ptr, some ty⟩ => return if ty.isPtr then none else some (load, ptr)
    | _ => return none
  | _ => return none

/-- Narrow one load if its only reader cuts it down. The low bytes of a value come first in memory,
so the pointer stays. -/
def narrowLoad (useCount : InstId → Nat) (f : Func) (id : InstId) : Transformed := do
  match (← f.narrowable? id) with
  | none => return (f, false)
  | some (load, ptr) =>
    if useCount load ≠ 1 then return (f, false)
    let ty := (← f.inst id).ty
    let (f, narrow) ← f.insertBefore load ⟨.load ptr, ty⟩
    let f := f.replaceAllUses (.inst id) (.inst narrow)
    return (← f.removeInsts [id, load], true)

/-- Narrow loads; readers are counted once at the start. -/
def narrowLoads (f : Func) : Transformed := sweepOver (narrowLoad f.useCount) f f.liveInsts

end Func

end BinaryLift
