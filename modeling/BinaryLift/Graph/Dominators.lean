import BinaryLift.Program.Func.Basic
import BinaryLift.Program.Iteration

/-!
# Block order and dominators

The blocks that control can reach from the entry, in reverse postorder of a depth-first walk that
takes successors in edge order, and their dominator tree, found by repeated intersection along that order.
A block is known by its position in it; the immediate dominator of a block has a smaller position than the
block itself, and the entry is its own.
-/

namespace BinaryLift

/-! ### Order -/

namespace Func

/-- The live blocks with an edge to `b`, oldest first and each once. -/
def predsOf (f : Func) (b : BlockId) : List BlockId :=
  (f.liveBlocks.filter fun e => b ∈ e.2.term.successors).map (·.1)

/-- The blocks that are live or the target of an edge of a live block, by age. -/
def mentionedBlocks (f : Func) : List BlockId :=
  let all := f.liveBlocks.flatMap fun e => e.1 :: e.2.term.successors
  (all.mergeSort BlockId.le).eraseReps

/-- Predecessor lists of all blocks mentioned. -/
def predecessors (f : Func) : List (BlockId × List BlockId) :=
  f.mentionedBlocks.map fun b => (b, f.predsOf b)

/-- The state of a depth-first walk: the open blocks with the edges still to be tried, the blocks
met so far, and the finished ones, last finished first. -/
structure Walk where
  stack : List (BlockId × List BlockId)
  met : List BlockId
  done : List BlockId

/-- One step of the walk: close the innermost open block or try its next edge. -/
def Walk.step (f : Func) (w : Walk) : Checked Walk :=
  match w.stack with
  | [] => return w
  | (b, []) :: rest => return { w with stack := rest, done := b :: w.done }
  | (b, s :: edges) :: rest =>
    if f.containsBlock s ∧ s ∉ w.met then do
      let succs ← f.successors s
      return { w with stack := (s, succs) :: (b, edges) :: rest, met := s :: w.met }
    else return { w with stack := (b, edges) :: rest }

/-- Walk until no block is open. -/
def Walk.run (f : Func) : Nat → Walk → Checked (List BlockId)
  | n, w =>
    match w.stack, n with
    | [], _ => .ok w.done
    | _ :: _, 0 => .error .stepLimit
    | _ :: _, n + 1 => do run f n (← w.step f)

/-- Blocks reachable from the entry, in reverse postorder. A block is opened once and closed once
and has at most two edges, which bounds the walk. -/
def reversePostorder (f : Func) : Checked (List BlockId) :=
  match f.entry with
  | none => return []
  | some entry => do
    let succs ← f.successors entry
    Walk.run f (3 * f.blocks.size + 3) ⟨[(entry, succs)], [entry], []⟩

end Func

/-! ### Dominators -/

/-- Reachable blocks in reverse postorder, their immediate dominators by position, and the
reachable predecessors of every block mentioned. -/
structure DomTree where
  rpo : List BlockId
  idoms : Array (Option Nat)
  predTable : List (BlockId × List BlockId)

namespace DomTree

/-- The first common ancestor of two positions: the later of the two climbs until they meet. -/
def intersect (idoms : Array (Option Nat)) : Nat → Nat → Nat → Option Nat
  | 0, _, _ => none
  | n + 1, a, b =>
    if a = b then some a
    else if a > b then (idoms[a]?.join).bind fun a => intersect idoms n a b
    else (idoms[b]?.join).bind fun b => intersect idoms n a b

/-- The common ancestor of the predecessors that have been placed already. -/
def meet (idoms : Array (Option Nat)) (preds : List Nat) : Checked (Option Nat) :=
  preds.foldlM (fun acc p =>
    match idoms[p]?.join, acc with
    | none, _ => return acc
    | some _, none => return some p
    | some _, some q =>
      match intersect idoms (p + q + 1) p q with
      | some r => return some r
      | none => .error .stepLimit) none

/-- Place every block but the entry once, in order; says whether a place changed. -/
def sweep (preds : List (List Nat)) (idoms : Array (Option Nat)) :
    Checked (Array (Option Nat) × Bool) :=
  preds.zipIdx.foldlM (fun (acc : Array (Option Nat) × Bool) e => do
    if e.2 = 0 then return acc
    let new ← meet acc.1 e.1
    if new.isSome ∧ acc.1[e.2]?.join ≠ new then
      return (acc.1.setIfInBounds e.2 new, true)
    else return acc) (idoms, false)

/-- Sweep until nothing changes. -/
def settle (preds : List (List Nat)) : Nat → Array (Option Nat) → Checked (Array (Option Nat))
  | 0, _ => .error .stepLimit
  | n + 1, idoms => do
    let (next, changed) ← sweep preds idoms
    if changed then settle preds n next else return next

/-- The dominator tree of a function. A place only ever moves to a smaller position, which bounds
the sweeps. -/
def compute (f : Func) : Checked DomTree := do
  let rpo ← f.reversePostorder
  let predTable := f.predecessors.map fun e => (e.1, e.2.filter (· ∈ rpo))
  let preds := rpo.map fun b => (f.predsOf b).filterMap rpo.idxOf?
  let start := (Array.replicate rpo.length none).setIfInBounds 0 (some 0)
  let idoms ← settle preds (rpo.length * rpo.length + 2) start
  return { rpo := rpo, idoms := idoms, predTable := predTable }

def entry (d : DomTree) : Option BlockId := d.rpo.head?

def isReachable (d : DomTree) (b : BlockId) : Bool := d.rpo.contains b

/-- Immediate dominator; the entry and unreachable blocks have none. -/
def idom (d : DomTree) (b : BlockId) : Option BlockId := do
  let i ← d.rpo.idxOf? b
  if i = 0 then none
  else
    let p ← d.idoms[i]?.join
    d.rpo[p]?

/-- Blocks immediately dominated by `b`, in reverse postorder. -/
def children (d : DomTree) (b : BlockId) : List BlockId :=
  d.rpo.filter fun c => d.idom c = some b

/-- Reachable predecessors of a block. -/
def preds (d : DomTree) (b : BlockId) : List BlockId :=
  ((d.predTable.find? (·.1 = b)).map (·.2)).getD []

/-- A block followed by its dominators from the nearest to the entry. -/
def ancestors (d : DomTree) : Nat → BlockId → List BlockId
  | 0, b => [b]
  | n + 1, b => b :: (d.idom b).elim [] (ancestors d n)

/-- Whether every way from the entry to `b` passes `a`. -/
def dominates (d : DomTree) (a b : BlockId) : Bool :=
  d.isReachable b && (d.ancestors d.rpo.length b).contains a

/-- Visit a block, then its children from left to right. -/
def preorderFrom (d : DomTree) : Nat → List BlockId → List BlockId
  | 0, _ => []
  | _, [] => []
  | n + 1, b :: stack => b :: preorderFrom d n (d.children b ++ stack)

/-- Tree preorder from the entry. -/
def preorder (d : DomTree) : List BlockId := d.preorderFrom d.rpo.length d.entry.toList

/-! ### Frontiers -/

/-- A block and its dominators, up to and without `stop`. -/
def climb (d : DomTree) (stop : BlockId) : Nat → BlockId → List BlockId
  | 0, _ => []
  | n + 1, b => if b = stop then [] else b :: (d.idom b).elim [] (climb d stop n)

/-- The blocks whose frontier `b` belongs to. Blocks with one way in belong to none. -/
def frontierOwners (d : DomTree) (b : BlockId) : List BlockId :=
  match d.preds b, d.idom b with
  | ps@(_ :: _ :: _), some stop => ps.flatMap (d.climb stop d.rpo.length)
  | _, _ => []

/-- Dominance frontier of a block, in reverse postorder. -/
def frontier (d : DomTree) (a : BlockId) : List BlockId :=
  d.rpo.filter fun b => a ∈ d.frontierOwners b

/-- Everything met by taking frontiers of the given blocks again and again, by age. -/
def iteratedFrontier (d : DomTree) (bs : List BlockId) : Checked (List BlockId) := do
  let table := d.rpo.map fun b => (b, d.frontier b)
  let frontierOf := fun b => ((table.find? (·.1 = b)).map (·.2)).getD []
  let all ← closure (fun b => return frontierOf b) d.rpo.length (bs.flatMap frontierOf)
  return all.mergeSort BlockId.le

end DomTree

end BinaryLift
