import BinaryLift.Image.Layout
import BinaryLift.Target.BlockMap
import BinaryLift.Target.Evaluate

/-!
# Resolution of computed destinations

A destination is classified by the first of three tests that succeeds: it is a literal, the solver
gives it one value, the enumerator lists candidates. The first two are authoritative: the
destination is solved even if it lies outside the loaded range, where nothing is scheduled. One or
two candidates inside the range are scheduled but leave the destination unsolved.

The loaded range goes from the lowest start to the highest end of all sections, gaps included. Starts and
ends are cut off at the largest word.
-/

namespace BinaryLift

/-! ### The loaded range -/

/-- A section reduced to its extent, relative to the image base. -/
structure Span where
  address : Word
  size : Word
deriving DecidableEq

def Image.spans (img : Image) : List Span := img.sections.map fun s => ⟨s.address, s.size⟩

/-- The addresses from `low` up to and without `high`. -/
structure AddressRange where
  low : Word
  high : Word
deriving DecidableEq

namespace AddressRange

def empty : AddressRange := ⟨0, 0⟩

/-- Where a span starts and stops over a base. -/
def ofSpan (base : Word) (s : Span) : AddressRange :=
  let low := Word.addSat base s.address
  ⟨low, Word.addSat low s.size⟩

/-- The hull of all spans over a base. -/
def ofSpans (spans : List Span) (base : Word) : AddressRange :=
  let ranges := spans.map (ofSpan base)
  let low := ranges.foldl (fun acc r => if r.low < acc then r.low else acc) Word.top
  let high := ranges.foldl (fun acc r => if acc < r.high then r.high else acc) 0
  if low < high then ⟨low, high⟩ else empty

def contains (r : AddressRange) (address : Word) : Bool := r.low ≤ address && address < r.high

def isEmpty (r : AddressRange) : Bool := r.high ≤ r.low

def size (r : AddressRange) : Word := Word.subSat r.high r.low

end AddressRange

/-- The loaded window of an image. -/
def Image.range (img : Image) : AddressRange := .ofSpans img.spans img.base

/-! ### Resolution -/

/-- One observation of a resolver. -/
inductive ResolveEvent where
  | call
  | solvedConstant
  | solvedConstraint
  | zeroCandidates
  | oneCandidate
  | twoCandidates
deriving DecidableEq, Repr

/-- Who is told about observations. -/
inductive Sink where
  /-- Counters of the session. -/
  | own
  /-- Counters shared by all sessions. -/
  | shared
  | discard
  /-- The metrics summary. -/
  | summary
deriving DecidableEq, Repr

/-- Something a user should know. -/
inductive Warning where
  | resolvedOutside (address : Word) (range : AddressRange) (reason : Reason)
  | directOutside (site target : Word)
deriving DecidableEq

/-- An address handed to the block map. -/
structure Scheduled where
  address : Word
  reason : Reason
  block : BlockId
deriving DecidableEq

/-- What was found about a destination. -/
structure Resolution where
  /-- The address, if the destination is known to be exactly that. -/
  dest : Option Word := none
  targets : List Scheduled := []
  /-- Addresses outside the loaded range. -/
  rejected : List Word := []
deriving DecidableEq

/-- The first target scheduled for a reason. -/
def Resolution.target? (r : Resolution) (reason : Reason) : Option Scheduled :=
  r.targets.find? (·.reason = reason)

/-- A resolver: the loaded range, two oracles and a sink for observations. -/
structure Resolver where
  range : AddressRange
  solver : Func → Value → Checked (Option Word) := solve {}
  enumerator : Func → Value → Checked AddressSet := enumerate {}
  sink : Sink := .shared

namespace Resolver

def isValid (r : Resolver) (address : Word) : Bool := r.range.contains address

/-- How a destination is classified. -/
inductive Class where
  | literal (address : Word)
  | solved (address : Word)
  | candidates (set : AddressSet)

/-- Apply the three tests in order. -/
def classify (r : Resolver) (f : Func) (dest : Value) : Checked Class :=
  match dest with
  | .const c => return .literal c.bits
  | _ => do
    match (← r.solver f dest) with
    | some a => return .solved a
    | none => return .candidates (← r.enumerator f dest)

/-- The observation that belongs to a class; three or more candidates are not counted. -/
def Class.event? : Class → Option ResolveEvent
  | .literal _ => some .solvedConstant
  | .solved _ => some .solvedConstraint
  | .candidates s =>
    match s.toList with
    | [] => some .zeroCandidates
    | [_] => some .oneCandidate
    | [_, _] => some .twoCandidates
    | _ => none

/-- The addresses of a class with the reasons to schedule them. -/
def Class.addresses : Class → List (Word × Reason)
  | .literal a => [(a, .solvedConstant)]
  | .solved a => [(a, .solved)]
  | .candidates s =>
    match s.toList with
    | [a] => [(a, .singleCandidate)]
    | [a, b] => [(a, .trueEdge), (b, .falseEdge)]
    | _ => []

/-- The address that a class pins down. -/
def Class.dest? : Class → Option Word
  | .literal a => some a
  | .solved a => some a
  | .candidates _ => none

/-- Schedule addresses in order. -/
def scheduleAll (m : BlockMap) (f : Func) : List (Word × Reason) → BlockMap × Func × List Scheduled
  | [] => (m, f, [])
  | (a, reason) :: rest =>
    let (m, f, b) := m.schedule f a reason
    let (m, f, more) := scheduleAll m f rest
    (m, f, ⟨a, reason, b⟩ :: more)

/-- Only an authoritative address outside the range is worth a warning. -/
def warnings (r : Resolver) (c : Class) : List Warning :=
  match c with
  | .candidates _ => []
  | _ => (c.addresses.filter fun e => !r.isValid e.1).map fun e =>
      .resolvedOutside e.1 r.range e.2

/-- Schedule the addresses of a class if all of them are valid. -/
def settle (r : Resolver) (f : Func) (m : BlockMap) (c : Class) : BlockMap × Func × Resolution :=
  let rejected := (c.addresses.map (·.1)).filter fun a => !r.isValid a
  if rejected.isEmpty then
    let (m, f, targets) := scheduleAll m f c.addresses
    (m, f, { dest := c.dest?, targets := targets })
  else (m, f, { dest := c.dest?, rejected := rejected })

end Resolver

/-- Everything one resolution did. The events are known even if an oracle met a fault. -/
structure Resolved where
  func : Func
  blocks : BlockMap
  events : List ResolveEvent
  warnings : List Warning := []
  result : Checked Resolution

/-- Classify a destination and schedule what it leads to. -/
def Resolver.resolve (r : Resolver) (f : Func) (m : BlockMap) (dest : Value) : Resolved :=
  match r.classify f dest with
  | .error e => { func := f, blocks := m, events := [.call], result := .error e }
  | .ok c =>
    let (m, f, resolution) := r.settle f m c
    { func := f
      blocks := m
      events := .call :: c.event?.toList
      warnings := r.warnings c
      result := .ok resolution }

end BinaryLift
