import BinaryLift.Graph.Dominators
import BinaryLift.Program.Func.Editing
import BinaryLift.Program.Iteration

/-!
# Combination of instructions

The pass `instcombine`: local algebra. First an instruction is brought into a canonical form: constants
stand on the right, a difference with a constant is a sum, and constants along a chain of one operation are
gathered. Then it is replaced if a constant or one of its operands has the same value. `inttoptr` of a
constant stays: it is how an absolute address is written.
-/

namespace BinaryLift

def BinOp.isAssociative : BinOp → Bool
  | .add | .mul | .and | .or | .xor => true
  | _ => false

/-- Conversions that change nothing between equal types. -/
def CastOp.resizes : CastOp → Bool
  | .trunc | .zext | .sext => true
  | .ptrtoint | .inttoptr => false

namespace Func

/-- The base of a chain and the constant added to it so far: `inner` is `op base c`. -/
def chainLink? (f : Func) (op : BinOp) (inner : InstId) : Checked (Option (Value × Constant)) := do
  match (← f.kind inner) with
  | .binary op' base (.const c) => return if op' = op then some (base, c) else none
  | _ => return none

/-- The canonical form of a binary operation, if it differs. -/
def canonicalBinary? (f : Func) (op : BinOp) (lhs rhs : Value) (ty : Ty) : Checked (Option Kind) :=
  if op.isCommutative && lhs.isConst && !rhs.isConst then return some (.binary op rhs lhs)
  else match lhs, rhs with
    | lhs, .const c =>
      if op = .sub then
        if !lhs.isConst && !c.isZero then return some (.binary .add lhs (.int (0 - c.bits) ty))
        else return none
      else match lhs with
        | .inst inner =>
          if op.isAssociative then do
            match (← f.chainLink? op inner) with
            | some (base, c') =>
              return (op.fold c'.bits c.bits ty).map fun w => .binary op base (.int w ty)
            | none => return none
          else return none
        | _ => return none
    | _, _ => return none

/-- The canonical form of an instruction, if it differs. -/
def canonical? (f : Func) (i : Inst) : Checked (Option Kind) :=
  match i.kind with
  | .binary op lhs rhs => f.canonicalBinary? op lhs rhs (i.ty.getD .i64)
  | .icmp p lhs rhs =>
    return if lhs.isConst && !rhs.isConst then some (.icmp p.swapped rhs lhs) else none
  | .ptrAdd (.inst inner) (.const c) => do
    match (← f.kind inner) with
    | .ptrAdd base (.const c') => return some (.ptrAdd base (.int (c'.bits + c.bits) .i64))
    | _ => return none
  | _ => return none

/-- Bring an instruction into canonical form. -/
def canonicalize (f : Func) (id : InstId) : Transformed := do
  match (← f.canonical? (← f.inst id)) with
  | some kind => return (f.modifyKind id fun _ => kind, true)
  | none => return (f, false)

/-- A value equal to a binary operation with a constant on the right. -/
def absorb? (op : BinOp) (lhs : Value) (c : Constant) (ty : Ty) : Option Value :=
  match op with
  | .add | .sub | .xor | .shl | .lshr | .ashr => if c.isZero then some lhs else none
  | .or =>
    if c.isZero then some lhs else if c.isAllOnes then some (.int ty.mask ty) else none
  | .mul => if c.isZero then some (.int 0 ty) else if c.bits = 1 then some lhs else none
  | .and => if c.isZero then some (.int 0 ty) else if c.isAllOnes then some lhs else none
  | .udiv | .sdiv => if c.bits = 1 then some lhs else none
  | .urem | .srem => none

/-- A value equal to a binary operation on twice the same operand. -/
def selfApplied? (op : BinOp) (v : Value) (ty : Ty) : Option Value :=
  match op with
  | .sub | .xor => some (.int 0 ty)
  | .and | .or => some v
  | _ => none

/-- A value equal to a binary operation. -/
def simplifyBinary? (op : BinOp) (lhs rhs : Value) (ty : Ty) : Option Value :=
  match lhs, rhs with
  | .const a, .const b => (op.fold a.bits b.bits ty).map fun w => .int w ty
  | _, _ =>
    (rhs.const?.bind fun c => absorb? op lhs c ty) <|>
      (if lhs = rhs then selfApplied? op lhs ty else none)

/-- A value equal to a comparison. -/
def simplifyIcmp? (p : Predicate) (lhs rhs : Value) : Option Value :=
  match lhs, rhs with
  | .const a, .const b => some (.bool (p.fold a.bits b.bits a.ty))
  | _, _ => if lhs = rhs then some (.bool p.isReflexive) else none

/-- Whether one conversion after another gives back a source of the result's type. -/
def undoes (inner outer : CastOp) : Bool :=
  match inner, outer with
  | .ptrtoint, .inttoptr => true
  | .inttoptr, .ptrtoint => true
  | .zext, .trunc => true
  | .sext, .trunc => true
  | _, _ => false

/-- A value equal to a conversion. -/
def simplifyCast? (f : Func) (op : CastOp) (value : Value) (ty : Ty) : Checked (Option Value) := do
  match (← f.valueTy value) with
  | none => return none
  | some source =>
    match value with
    | .const c =>
      return if op = .inttoptr then none else some (.int (op.fold c.bits source ty) ty)
    | .arg _ => return if source = ty ∧ op.resizes then some value else none
    | .inst inner =>
      if source = ty ∧ op.resizes then return some value
      match (← f.kind inner) with
      | .cast innerOp v =>
        let innerSource ← f.valueTy v
        return if innerSource = some ty ∧ undoes innerOp op then some v else none
      | _ => return none

/-- The one value a phi receives besides itself. -/
def commonIncoming? (me : Value) (incoming : List (BlockId × Value)) : Option Value :=
  match (incoming.map (·.2)).filter (· ≠ me) with
  | [] => none
  | v :: rest => if rest.all (· = v) then some v else none

/-- Whether a value is at hand wherever the result of `id` was: it is not the result of an
instruction, or its definition stands in another block, which dominates. -/
def availableAt (f : Func) (dom : DomTree) (id : InstId) : Value → Bool
  | .inst src =>
    match f.instBlock src, f.instBlock id with
    | some b, some here => b ≠ here && dom.dominates b here
    | _, _ => false
  | _ => true

/-- A value equal to an instruction. -/
def simplify? (f : Func) (dom : DomTree) (id : InstId) : Checked (Option Value) := do
  let i ← f.inst id
  match i.ty with
  | none => return none
  | some ty =>
    match i.kind with
    | .binary op lhs rhs => return simplifyBinary? op lhs rhs ty
    | .icmp p lhs rhs => return simplifyIcmp? p lhs rhs
    | .cast op v => f.simplifyCast? op v ty
    | .ptrAdd base offset => return if offset.bits? = some 0 then some base else none
    | .select cond ifTrue ifFalse =>
      match cond.bits? with
      | some c => return some (if c = 0 then ifFalse else ifTrue)
      | none => return if ifTrue = ifFalse then some ifTrue else none
    | .phi incoming => return (commonIncoming? (.inst id) incoming).filter (f.availableAt dom id)
    | .alloca _ => return none
    | .load _ => return none
    | .store .. => return none
    | .call .. => return none

/-- Canonicalize one instruction and replace it if it can be. -/
def combineInst (dom : DomTree) (f : Func) (id : InstId) : Transformed := do
  if !f.isLive id then return (f, false)
  let (f, canonical) ← f.canonicalize id
  match (← f.simplify? dom id) with
  | some v => return (← (f.replaceAllUses (.inst id) v).removeInst id, true)
  | none => return (f, canonical)

/-- Combine every instruction once. -/
def combineOnce (dom : DomTree) (f : Func) : Transformed :=
  sweepOver (combineInst dom) f f.liveInsts

/-- Combine until nothing changes. A round removes an instruction, moves a constant, turns a
difference into a sum or shortens a chain; the cube of the number of instructions bounds all of
that. -/
def combine (f : Func) : Transformed := do
  let dom ← DomTree.compute f
  let size := f.arena.size + 2
  untilStable (combineOnce dom) (4 * (size * size * size)) f

end Func

end BinaryLift
