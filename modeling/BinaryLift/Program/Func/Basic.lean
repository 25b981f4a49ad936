import BinaryLift.Program.Inst

/-!
# Functions

A function owns two arenas. The instruction arena gives every instruction a slot that says in which
block it stands, if any; the block arena keeps a hole where a block was removed. Handles are
positions in these arenas, so they stay valid. The first block added is the entry and is never
removed.

Asking for a block that is not live, or for an instruction that was never made, is a `Fault`. Loops whose
length no measure of the input bounds are run with a step limit and say so when they meet it.
-/

namespace BinaryLift

/-! ### Faults -/

/-- Why an operation could not be carried out. -/
inductive Fault where
  /-- The block was removed or never existed. -/
  | deadBlock (block : BlockId) (function : String)
  /-- The place of insertion is no longer in any block. -/
  | removedAnchor (anchor : InstId)
  /-- The instruction handle was never given out. -/
  | noSuchInst (id : InstId)
  /-- A loop did not come to rest within the steps its input allows. -/
  | stepLimit
  /-- A counter would exceed a word. -/
  | counterOverflow
deriving DecidableEq, Repr

/-- The text of a fault that is reported with one. -/
def Fault.message? : Fault → Option String
  | .deadBlock block function => some (block.text ++ " is not a live block of " ++ function)
  | .removedAnchor anchor => some ("cannot insert before removed instruction " ++ anchor.text)
  | .noSuchInst _ => none
  | .stepLimit => none
  | .counterOverflow => none

/-- A computation that may meet a fault. -/
abbrev Checked := Except Fault

/-! ### Functions -/

/-- A formal parameter. -/
structure Param where
  name : String
  ty : Ty
deriving DecidableEq

/-- Who can see a function. -/
inductive Linkage where
  | visible
  | hidden
deriving DecidableEq

/-- Instructions in order, then one terminator. -/
structure Block where
  /-- Machine address the block was lifted from. -/
  address : Option Word := none
  insts : List InstId := []
  term : Terminator := .unreachable
deriving DecidableEq

/-- An instruction and the block it stands in, if it has not been removed. -/
structure Slot where
  inst : Inst
  block : Option BlockId
deriving DecidableEq

/-- A definition, or a declaration as long as it has no block. -/
structure Func where
  name : String
  params : List Param := []
  ret : Option Ty := none
  linkage : Linkage := .visible
  arena : Array Slot := #[]
  blocks : Array (Option Block) := #[]
  entry : Option BlockId := none
deriving DecidableEq

namespace Func

def isDeclaration (f : Func) : Bool := f.entry.isNone

/-! ### Blocks -/

def block? (f : Func) (b : BlockId) : Option Block := f.blocks[b.index]?.join

def containsBlock (f : Func) (b : BlockId) : Bool := (f.block? b).isSome

/-- A live block. -/
def block (f : Func) (b : BlockId) : Checked Block :=
  match f.block? b with
  | some data => .ok data
  | none => .error (.deadBlock b f.name)

/-- Live blocks in order of creation. -/
def liveBlocks (f : Func) : List (BlockId × Block) :=
  f.blocks.toList.zipIdx.filterMap fun e => e.1.map fun data => (⟨e.2⟩, data)

def blockIds (f : Func) : List BlockId := f.liveBlocks.map (·.1)

def blockCount (f : Func) : Nat := f.liveBlocks.length

/-- Add an empty block; the first one becomes the entry. -/
def addBlock (f : Func) (address : Option Word) : Func × BlockId :=
  let id : BlockId := ⟨f.blocks.size⟩
  ({ f with
      blocks := f.blocks.push (some { address := address })
      entry := f.entry <|> some id }, id)

/-- Overwrite one entry of the block arena. -/
def putBlock (f : Func) (b : BlockId) (data : Option Block) : Func :=
  { f with blocks := f.blocks.setIfInBounds b.index data }

/-- Change a live block. -/
def modifyBlock (f : Func) (b : BlockId) (g : Block → Block) : Checked Func := do
  let data ← f.block b
  return f.putBlock b (some (g data))

/-- The oldest live block lifted from an address. -/
def addressBlock (f : Func) (address : Word) : Option BlockId :=
  (f.liveBlocks.find? fun e => e.2.address == some address).map (·.1)

def term (f : Func) (b : BlockId) : Checked Terminator := return (← f.block b).term

def setTerm (f : Func) (b : BlockId) (t : Terminator) : Checked Func :=
  f.modifyBlock b fun data => { data with term := t }

def successors (f : Func) (b : BlockId) : Checked (List BlockId) := return (← f.term b).successors

/-! ### Instructions -/

def inst? (f : Func) (id : InstId) : Option Inst := f.arena[id.index]?.map (·.inst)

/-- An instruction, removed or not. -/
def inst (f : Func) (id : InstId) : Checked Inst :=
  match f.inst? id with
  | some i => .ok i
  | none => .error (.noSuchInst id)

def kind (f : Func) (id : InstId) : Checked Kind := return (← f.inst id).kind

/-- The block an instruction stands in. -/
def instBlock (f : Func) (id : InstId) : Option BlockId := f.arena[id.index]?.bind (·.block)

def isLive (f : Func) (id : InstId) : Bool := (f.instBlock id).isSome

/-- Every live instruction, block by block. -/
def liveInsts (f : Func) : List InstId := f.liveBlocks.flatMap (·.2.insts)

/-- Live instructions and one terminator for each block. -/
def instructionCount (f : Func) : Nat :=
  f.liveBlocks.foldl (fun n e => n + e.2.insts.length + 1) 0

/-- Type of an operand, if it has one. -/
def valueTy (f : Func) : Value → Checked (Option Ty)
  | .const c => return some c.ty
  | .arg n => return f.params[n]?.map (·.ty)
  | .inst id => return (← f.inst id).ty

end Func

end BinaryLift
