import BinaryLift.Graph.Dominators
import BinaryLift.Program.Func.Editing
import BinaryLift.Program.Iteration

/-!
# Simplification of control flow

The pass `simplifycfg`: four steps in turn until none finds work. Branches on a constant or with equal arms
become jumps, as do indirect jumps to the address of a block; unreachable blocks go; a block joins its only
predecessor if that jumps nowhere else; and edges to an empty block that only jumps on lead past it.
-/

namespace BinaryLift.Func

/-- Turn the terminator of a block into a jump where the target is known. -/
def foldBranch (f : Func) (b : BlockId) : Transformed := do
  match (← f.term b) with
  | .branch (.const c) t e =>
    let taken := if c.isZero then e else t
    let dropped := if c.isZero then t else e
    let f ← if dropped ≠ taken ∧ f.containsBlock dropped then f.removePhiIncoming dropped b
      else pure f
    return (← f.setTerm b (.jump taken), true)
  | .branch _ t e => if t = e then return (← f.setTerm b (.jump t), true) else return (f, false)
  | .indirect (.const c) =>
    match f.addressBlock c.bits with
    | none => return (f, false)
    | some target =>
      if (← f.phis target).isEmpty then return (← f.setTerm b (.jump target), true)
      else return (f, false)
  | _ => return (f, false)

def foldBranches (f : Func) : Transformed := sweepOver foldBranch f f.blockIds

/-- Remove the blocks that control cannot reach, and the edges they had into phis. -/
def removeUnreachable (f : Func) : Transformed := do
  let reachable ← f.reversePostorder
  let dead := f.blockIds.filter (· ∉ reachable)
  let f ← dead.foldlM (fun f b => do
    let succs ← f.successors b
    (succs.filter (· ∈ reachable)).foldlM (fun f s => f.removePhiIncoming s b) f) f
  return (f.removeBlocks dead, !dead.isEmpty)

/-- Replace a phi that has one edge by what arrives on it. -/
def dissolvePhi (f : Func) (phi : InstId) : Checked Func := do
  let f ← match (← f.kind phi) with
    | .phi ((_, v) :: _) => pure (if v = .inst phi then f else f.replaceAllUses (.inst phi) v)
    | _ => pure f
  f.removeInst phi

/-- The predecessor a block can be joined to. -/
def soleJumper? (f : Func) (b : BlockId) : Checked (Option BlockId) :=
  if !f.containsBlock b || f.entry == some b then return none
  else match f.predsOf b with
    | [pred] => do
      if pred = b then return none
      return if (← f.term pred) = .jump b then some pred else none
    | _ => return none

/-- Join a block to its only predecessor. -/
def mergeChain (f : Func) (b : BlockId) : Transformed := do
  match (← f.soleJumper? b) with
  | none => return (f, false)
  | some pred =>
    let f ← (← f.phis b).foldlM dissolvePhi f
    return (← f.mergeBlocks pred b, true)

def mergeChains (f : Func) : Transformed := sweepOver mergeChain f f.blockIds

/-- Where an empty block jumps on to, if the target has no phis. -/
def forwardsTo? (f : Func) (b : BlockId) : Checked (Option BlockId) :=
  if !f.containsBlock b || f.entry == some b then return none
  else do
    let data ← f.block b
    match data.term with
    | .jump target =>
      if !data.insts.isEmpty || target == b then return none
      return if (← f.phis target).isEmpty then some target else none
    | _ => return none

/-- Lead the edges to an empty block past it. -/
def bypassForwarder (f : Func) (b : BlockId) : Transformed := do
  match (← f.forwardsTo? b) with
  | none => return (f, false)
  | some target =>
    let preds := (f.predsOf b).filter (· ≠ b)
    let f ← preds.foldlM (fun f p => f.modifyBlock p fun data =>
      { data with term := data.term.replaceSuccessor b target }) f
    return (f, !preds.isEmpty)

def bypassForwarders (f : Func) : Transformed := sweepOver bypassForwarder f f.blockIds

/-- The four steps once. -/
def simplifyGraphOnce (f : Func) : Transformed := do
  let (f, folded) ← f.foldBranches
  let (f, removed) ← f.removeUnreachable
  let (f, merged) ← f.mergeChains
  let (f, bypassed) ← f.bypassForwarders
  return (f, folded || removed || merged || bypassed)

/-- The four steps until none changes anything. Two rounds that change something remove a block or
a terminator that is no jump. -/
def simplifyGraph (f : Func) : Transformed :=
  untilStable simplifyGraphOnce (4 * f.blocks.size + 4) f

end BinaryLift.Func
