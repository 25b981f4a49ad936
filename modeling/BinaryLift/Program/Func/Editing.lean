import BinaryLift.Program.Func.Basic
import BinaryLift.Table

/-!
# Changing functions

Instructions enter, leave and change blocks; blocks are removed and merged. An instruction taken out
of its block keeps its slot, so no handle is given out twice. Only instructions that stand in a block and
terminators of live blocks count as readers of a value. A replacement table says which value stands in for
the result of an instruction; a replacement may itself have been replaced, so tables are read by following
chains.
-/

namespace BinaryLift

/-! ### Instructions in their blocks -/

namespace Func

/-- Move an instruction to a block, or out of every block, in the arena only. -/
def place (f : Func) (id : InstId) (b : Option BlockId) : Func :=
  { f with arena := f.arena.modify id.index fun s => { s with block := b } }

/-- Change what an instruction does. -/
def modifyKind (f : Func) (id : InstId) (g : Kind → Kind) : Func :=
  { f with arena := f.arena.modify id.index fun s => { s with inst.kind := g s.inst.kind } }

/-- Take a new slot for an instruction of `b`. -/
def allocInst (f : Func) (b : BlockId) (i : Inst) : Func × InstId :=
  ({ f with arena := f.arena.push ⟨i, some b⟩ }, ⟨f.arena.size⟩)

/-- Add an instruction at the end of a block. -/
def appendInst (f : Func) (b : BlockId) (i : Inst) : Checked (Func × InstId) := do
  let (f, id) := f.allocInst b i
  let f ← f.modifyBlock b fun data => { data with insts := data.insts ++ [id] }
  return (f, id)

/-- Add an instruction at a position of a block, at the end if the position is beyond it. -/
def insertInst (f : Func) (b : BlockId) (index : Nat) (i : Inst) : Checked (Func × InstId) := do
  let (f, id) := f.allocInst b i
  let f ← f.modifyBlock b fun data =>
    { data with insts := data.insts.insertIdx (min index data.insts.length) id }
  return (f, id)

/-- Add an instruction directly before another one. -/
def insertBefore (f : Func) (anchor : InstId) (i : Inst) : Checked (Func × InstId) :=
  match f.instBlock anchor with
  | none => .error (.removedAnchor anchor)
  | some b => do
    let data ← f.block b
    f.insertInst b ((data.insts.idxOf? anchor).getD 0) i

/-- Take an instruction out of its block. -/
def removeInst (f : Func) (id : InstId) : Checked Func :=
  match f.instBlock id with
  | none => return f
  | some b => do
    let f ← f.modifyBlock b fun data => { data with insts := data.insts.filter (· ≠ id) }
    return f.place id none

def removeInsts (f : Func) (ids : List InstId) : Checked Func :=
  ids.foldlM (fun f id => f.removeInst id) f

/-- The phis a block starts with. -/
def phis (f : Func) (b : BlockId) : Checked (List InstId) := do
  let data ← f.block b
  return data.insts.takeWhile fun id => (f.inst? id).any (·.kind.isPhi)

/-- Forget the edge from `pred` in every phi of a block. -/
def removePhiIncoming (f : Func) (b pred : BlockId) : Checked Func := do
  let data ← f.block b
  return data.insts.foldl
    (fun f id => f.modifyKind id (Kind.mapIncoming (·.filter (·.1 ≠ pred)))) f

/-! ### Whole blocks -/

/-- Remove a block with its instructions; the entry stays. -/
def removeBlock (f : Func) (b : BlockId) : Func :=
  if f.entry = some b then f
  else match f.block? b with
    | none => f
    | some data => data.insts.foldl (fun f id => f.place id none) (f.putBlock b none)

def removeBlocks (f : Func) (bs : List BlockId) : Func := bs.foldl removeBlock f

/-- In the phis of `b`, an edge from `old` becomes an edge from `new`. -/
def renamePhiPred (f : Func) (b old new : BlockId) : Checked Func := do
  let ids ← f.phis b
  return ids.foldl
    (fun f id => f.modifyKind id
      (Kind.mapIncoming (·.map fun e => (if e.1 = old then new else e.1, e.2)))) f

/-- Append the instructions and the terminator of `source` to `into` and remove `source`. Phis of
the successors follow; phis of `source` itself move along unchanged. -/
def mergeBlocks (f : Func) (into source : BlockId) : Checked Func :=
  if into = source ∨ f.entry = some source then return f
  else match f.block? source with
    | none => return f
    | some data => do
      let f := data.insts.foldl (fun f id => f.place id (some into)) (f.putBlock source none)
      let f ← (data.term.successors.filter f.containsBlock).foldlM
        (fun f s => f.renamePhiPred s source into) f
      f.modifyBlock into fun target =>
        { target with insts := target.insts ++ data.insts, term := data.term }

end Func

/-! ### Uses -/

namespace Func

/-- Replace every operand of every live instruction and terminator. -/
def mapOperands (f : Func) (g : Value → Value) : Func :=
  { f with
    arena := f.arena.map fun s =>
      if s.block.isSome then { s with inst.kind := s.inst.kind.mapOperands g } else s
    blocks := f.blocks.map (·.map fun data => { data with term := data.term.mapOperands g }) }

/-- Turn every use of `old` into a use of `new`. -/
def replaceAllUses (f : Func) (old new : Value) : Func :=
  if old = new then f else f.mapOperands fun v => if v = old then new else v

/-- Who reads a value. -/
inductive User where
  | inst (id : InstId)
  | term (block : BlockId)
deriving DecidableEq

def User.text : User → String
  | .inst id => id.text
  | .term b => b.text

/-- Each operand of the live code together with its reader, block by block. -/
def uses (f : Func) : List (Value × User) :=
  f.liveBlocks.flatMap fun e =>
    (e.2.insts.flatMap fun id =>
      ((f.inst? id).elim [] (·.kind.operands)).map fun v => (v, .inst id)) ++
    e.2.term.operands.map fun v => (v, .term e.1)

/-- The readers of a value, once for each operand that is it. -/
def usersOf (f : Func) (v : Value) : List User := (f.uses.filter (·.1 = v)).map (·.2)

/-- How often the result of an instruction is read. -/
def useCount (f : Func) (id : InstId) : Nat := (f.usersOf (.inst id)).length

end Func

/-! ### Replacements -/

/-- Values that stand in for instruction results. -/
abbrev Replacements := Table InstId Value

namespace Replacements

/-- Follow a chain for at most `n` links. -/
def follow (t : Replacements) : Nat → Value → Value
  | 0, v => v
  | n + 1, .inst id =>
    match t.get? id with
    | some next => follow t n next
    | none => .inst id
  | _, v => v

/-- The end of a chain; a table of `t.length` entries has no longer chain without a cycle. -/
def chase (t : Replacements) (v : Value) : Value := t.follow (t.length + 1) v

/-- Whether a value is replaced. -/
def covers (t : Replacements) : Value → Bool
  | .inst id => t.has id
  | _ => false

/-- The end of a chain that has one. -/
def resolve (t : Replacements) (v : Value) : Checked Value :=
  let r := t.chase v
  if t.covers r then .error .stepLimit else .ok r

end Replacements

/-- Follow the replacements in every operand. -/
def Func.applyReplacements (f : Func) (t : Replacements) : Func :=
  if t.isEmpty then f else f.mapOperands t.chase

/-- Follow the replacements and take the replaced instructions out. -/
def Func.substitute (f : Func) (t : Replacements) : Checked (Func × Bool) :=
  if t.isEmpty then return (f, false)
  else return (← (f.applyReplacements t).removeInsts t.keys, true)

end BinaryLift
