import BinaryLift.Program.Func.Basic
import BinaryLift.Table

/-!
# Block maps

Which block stands for which address, why, and which addresses still wait to be lifted. An address
gets one block and one turn: asking again gives the same block, and an address that has been queued
is never queued again.
-/

namespace BinaryLift

/-- Why an address was scheduled. -/
inductive Reason where
  | entry
  /-- Target of a direct transfer. -/
  | direct
  /-- Computed destination that is a literal. -/
  | solvedConstant
  /-- Computed destination with one value on every path. -/
  | solved
  /-- The only candidate. -/
  | singleCandidate
  /-- The first of two candidates. -/
  | trueEdge
  /-- The second of two candidates. -/
  | falseEdge
deriving DecidableEq, Repr

namespace Reason

def all : List Reason :=
  [entry, direct, solvedConstant, solved, singleCandidate, trueEdge, falseEdge]

def label : Reason → String
  | entry => "entry"
  | direct => "direct"
  | solvedConstant => "solved-constant"
  | solved => "solved"
  | singleCandidate => "single-candidate"
  | trueEdge => "true-edge"
  | falseEdge => "false-edge"

def ofLabel? (s : String) : Option Reason := all.find? (·.label == s)

end Reason

/-- Blocks by address and the queue of addresses to lift. -/
structure BlockMap where
  entries : Table Word (BlockId × Reason) := []
  pending : List (Word × BlockId) := []
  scheduled : List Word := []

namespace BlockMap

def blockAt (m : BlockMap) (address : Word) : Option BlockId :=
  (m.entries.get? address).map (·.1)

/-- Why the block of an address was first asked for. -/
def reason (m : BlockMap) (address : Word) : Option Reason :=
  (m.entries.get? address).map (·.2)

/-- The block of an address, made on the first request. -/
def getOrCreate (m : BlockMap) (f : Func) (address : Word) (reason : Reason) :
    BlockMap × Func × BlockId :=
  match m.blockAt address with
  | some b => (m, f, b)
  | none =>
    let (f, b) := f.addBlock (some address)
    ({ m with entries := m.entries.insert address (b, reason) }, f, b)

/-- Queue an address that was never queued. -/
def enqueue (m : BlockMap) (address : Word) (b : BlockId) : BlockMap :=
  if address ∈ m.scheduled then m
  else { m with scheduled := address :: m.scheduled, pending := m.pending ++ [(address, b)] }

/-- Take the address that has waited longest. -/
def next (m : BlockMap) : BlockMap × Option (Word × BlockId) :=
  match m.pending with
  | [] => (m, none)
  | e :: rest => ({ m with pending := rest }, some e)

def size (m : BlockMap) : Nat := m.entries.length

def isScheduled (m : BlockMap) (address : Word) : Bool := m.scheduled.contains address

/-- Known addresses, ascending. -/
def addresses (m : BlockMap) : List Word :=
  m.entries.keys.mergeSort fun a b => decide (a ≤ b)

/-- Ask for the block of an address and queue it. -/
def schedule (m : BlockMap) (f : Func) (address : Word) (reason : Reason) :
    BlockMap × Func × BlockId :=
  let (m, f, b) := m.getOrCreate f address reason
  (m.enqueue address b, f, b)

end BlockMap

end BinaryLift
