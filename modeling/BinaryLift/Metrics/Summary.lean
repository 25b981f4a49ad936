import BinaryLift.Lift.Session
import BinaryLift.Word

/-!
# Metrics

Six counters for the observations of resolvers, and a summary that keeps named counters, gauges and
histograms and prints them in order of their names. A counter that would exceed a word is a fault.
A `Telemetry` routes what a session observed to the place its sink names.

A double is its bit pattern, so that a value that is not a number keeps its sign and payload. An
operation passes on an operand that is not a number, made quiet. If neither operand is one, a sum
passes on what was added and a difference what was subtracted from. An operation that has no value
for other operands gives `invalid`. A double is written with two places; a tie goes to the even neighbour,
and the sign is kept even if only zeros are left.
-/

namespace BinaryLift

/-! ### Doubles -/

/-- A binary double by its bits. -/
structure Double where
  bits : Word
deriving DecidableEq, Repr

namespace Double

def toFloat (x : Double) : Float := Float.ofBits (UInt64.ofBitVec x.bits)

/-- The bits of a float that is a number. -/
def ofFloat (x : Float) : Double := ⟨x.toBits.toBitVec⟩

def ofNat (n : Nat) : Double := ofFloat (Float.ofNat n)

def zero : Double := ⟨0⟩

/-- What an operation gives that has no value. -/
def invalid : Double := ⟨0xfff8000000000000⟩

/-- The exponent is all ones and the fraction is not zero. -/
def isNaN (x : Double) : Bool :=
  (x.bits >>> 52) &&& 0x7ff == 0x7ff && x.bits &&& 0xfffffffffffff != 0

/-- Set the bit that tells a quiet one from one that signals. -/
def quiet (x : Double) : Double := ⟨x.bits ||| 0x8000000000000⟩

/-- Apply an operation on numbers. If neither operand is a number, the first is passed on. -/
def lift (op : Float → Float → Float) (x y : Double) : Double :=
  if x.isNaN then x.quiet
  else if y.isNaN then y.quiet
  else
    let z := ofFloat (op x.toFloat y.toFloat)
    if z.isNaN then invalid else z

/-- Add `y` to `x`. The order of numbers does not matter, and `y` goes before `x` if neither is a
number. -/
def add (x y : Double) : Double := lift (· + ·) y x

/-- Subtract `y` from `x`. -/
def sub (x y : Double) : Double := lift (· - ·) x y

end Double

/-! ### Two places -/

namespace Decimal

/-- The quotient rounded to nearest, a tie to even. -/
def roundDiv (num den : Nat) : Nat :=
  let q := num / den
  let r := num % den
  if 2 * r < den then q else if den < 2 * r then q + 1 else q + q % 2

/-- A double taken apart. -/
inductive Parts where
  /-- The value is `significand * 2 ^ exponent`, negated if `negative`. -/
  | finite (negative : Bool) (significand : Nat) (exponent : Int)
  | infinite (negative : Bool)
  | notANumber

/-- Take apart the bits of a double. -/
def Parts.ofBits (bits : Nat) : Parts :=
  let negative := bits.testBit 63
  let e := (bits >>> 52) &&& 0x7ff
  let fraction := bits &&& 0xfffffffffffff
  if e = 0x7ff then if fraction = 0 then .infinite negative else .notANumber
  else if e = 0 then .finite negative fraction (-1074)
  else .finite negative (fraction + 0x10000000000000) (Int.ofNat e - 1075)

/-- `significand * 2 ^ exponent` in hundredths. -/
def hundredths (significand : Nat) : Int → Nat
  | .ofNat e => (significand * 100) <<< e
  | .negSucc e => roundDiv (significand * 100) (1 <<< (e + 1))

/-- Hundredths written with a point. -/
def pointed (n : Nat) : String :=
  let places := Nat.repr (n % 100)
  Nat.repr (n / 100) ++ "." ++ (if n % 100 < 10 then "0" else "") ++ places

/-- Written form with two places. -/
def Parts.text : Parts → String
  | .finite negative significand exponent =>
    (if negative then "-" else "") ++ pointed (hundredths significand exponent)
  | .infinite negative => if negative then "-inf" else "inf"
  | .notANumber => "NaN"

/-- Written form of a double with two places. -/
def twoPlaces (x : Double) : String := (Parts.ofBits x.bits.toNat).text

end Decimal

/-! ### Counters and summaries -/

/-- How often each observation was made. -/
structure Counters where
  calls : Nat := 0
  solvedConstant : Nat := 0
  solvedConstraint : Nat := 0
  zeroCandidates : Nat := 0
  oneCandidate : Nat := 0
  twoCandidates : Nat := 0
deriving DecidableEq, Repr

/-- Count one observation. -/
def Counters.record (c : Counters) : ResolveEvent → Counters
  | .call => { c with calls := c.calls + 1 }
  | .solvedConstant => { c with solvedConstant := c.solvedConstant + 1 }
  | .solvedConstraint => { c with solvedConstraint := c.solvedConstraint + 1 }
  | .zeroCandidates => { c with zeroCandidates := c.zeroCandidates + 1 }
  | .oneCandidate => { c with oneCandidate := c.oneCandidate + 1 }
  | .twoCandidates => { c with twoCandidates := c.twoCandidates + 1 }

/-- The counts in the order of the observations. -/
def Counters.toList (c : Counters) : List Nat :=
  [c.calls, c.solvedConstant, c.solvedConstraint, c.zeroCandidates, c.oneCandidate,
    c.twoCandidates]

/-- The name under which an observation is published. -/
def ResolveEvent.metric : ResolveEvent → String
  | .call => "relift_resolve_calls_total"
  | .solvedConstant => "relift_resolve_solved_constant_total"
  | .solvedConstraint => "relift_resolve_solved_constraint_total"
  | .zeroCandidates => "relift_resolve_zero_candidates_total"
  | .oneCandidate => "relift_resolve_one_candidate_total"
  | .twoCandidates => "relift_resolve_two_candidates_total"

/-- Named values of three kinds. -/
structure Summary where
  counters : Table String Word := []
  gauges : Table String Double := []
  histograms : Table String (List Double) := []

namespace Summary

/-- The name of a metric with its labels in braces. -/
def key (name : String) (labels : List (String × String)) : String :=
  if labels.isEmpty then name
  else name ++ "\x7b" ++ ",".intercalate (labels.map fun l => l.1 ++ "=" ++ l.2) ++ "\x7d"

/-- Add to a counter, if the sum is a word. -/
def addCounter (s : Summary) (key : String) (n : Word) : Checked Summary :=
  match Word.add? ((s.counters.get? key).getD 0) n with
  | none => throw .counterOverflow
  | some sum => return { s with counters := s.counters.insert key sum }

def setCounter (s : Summary) (key : String) (n : Word) : Summary :=
  { s with counters := s.counters.insert key n }

def addGauge (s : Summary) (key : String) (x : Double) : Summary :=
  { s with gauges := s.gauges.update key .zero (·.add x) }

def subGauge (s : Summary) (key : String) (x : Double) : Summary :=
  { s with gauges := s.gauges.update key .zero (·.sub x) }

def setGauge (s : Summary) (key : String) (x : Double) : Summary :=
  { s with gauges := s.gauges.insert key x }

/-- Add one value to a histogram. -/
def observe (s : Summary) (key : String) (x : Double) : Summary :=
  { s with histograms := s.histograms.update key [] (· ++ [x]) }

/-- Count one observation. -/
def event (s : Summary) (e : ResolveEvent) : Checked Summary := s.addCounter e.metric 1

/-- Publish the totals of a lifted function: blocks lifted, unresolved sites, speculative sites,
rejected targets and, if it was optimized, the rounds and the instructions removed. -/
def lift (s : Summary) (blocks unresolved speculative rejected : Nat)
    (optimize : Option OptimizeReport) : Checked Summary := do
  let s ← s.addCounter "relift_blocks_lifted_total" (BitVec.ofNat 64 blocks)
  let s ← s.addCounter "relift_unresolved_sites_total" (BitVec.ofNat 64 unresolved)
  let s ← s.addCounter "relift_speculative_sites_total" (BitVec.ofNat 64 speculative)
  let s ← s.addCounter "relift_rejected_targets_total" (BitVec.ofNat 64 rejected)
  match optimize with
  | none => return s
  | some r =>
    return (s.setGauge "relift_optimize_iterations" (.ofNat r.iterations)).observe
      "relift_instructions_removed" (.ofNat r.removed)

/-- Publish a report. -/
def report (s : Summary) (r : LiftReport) : Checked Summary :=
  s.lift r.blocksLifted r.unresolved.length r.speculative.length r.rejected.length r.optimize

/-- Entries in order of their names. -/
def sorted {ν : Type} (t : Table String ν) : List (String × ν) :=
  t.mergeSort fun x y => !decide (y.1 < x.1)

/-- The smaller of two numbers, the second of equal ones; anything before no number. -/
def least (x y : Float) : Float := if y.isNaN || x < y then x else y

/-- The greater of two numbers, the second of equal ones; anything before no number. -/
def greatest (x y : Float) : Float := if y.isNaN || y < x then x else y

/-- Count, extremes and mean of a histogram. -/
def histogramText (observed : List Double) : String :=
  let values := observed.map Double.toFloat
  let infinity : Float := 1.0 / 0.0
  let number := fun x => Decimal.twoPlaces (.ofFloat x)
  let lo := values.foldl least infinity
  let hi := values.foldl greatest (-infinity)
  let mean := values.foldl (· + ·) (-0.0) / Float.ofNat values.length
  "count=" ++ Nat.repr values.length ++ ", min=" ++ number lo ++
    ", max=" ++ number hi ++ ", avg=" ++ number mean

/-- A line for each counter, gauge and histogram that is not empty. -/
def text (s : Summary) : String :=
  let line := fun (key value : String) => key ++ ": " ++ value ++ "\n"
  String.join
    ((sorted s.counters).map (fun e => line e.1 (Nat.repr e.2.toNat)) ++
      (sorted s.gauges).map (fun e => line e.1 (Decimal.twoPlaces e.2)) ++
      ((sorted s.histograms).filter fun e => !e.2.isEmpty).map fun e =>
        line e.1 (histogramText e.2))

end Summary

/-- Where observations end up. -/
structure Telemetry where
  own : Counters := {}
  shared : Counters := {}
  summary : Summary := {}

namespace Telemetry

/-- Route one observation. -/
def record (t : Telemetry) (sink : Sink) (e : ResolveEvent) : Checked Telemetry :=
  match sink with
  | .own => return { t with own := t.own.record e }
  | .shared => return { t with shared := t.shared.record e }
  | .discard => return t
  | .summary => return { t with summary := ← t.summary.event e }

def recordAll (t : Telemetry) (sink : Sink) (es : List ResolveEvent) : Checked Telemetry :=
  es.foldlM (fun t e => t.record sink e) t

/-- Route what a call observed, and publish its report if it succeeded. -/
def absorb {σ : Type} (t : Telemetry) (r : LiftRun σ) : Checked Telemetry := do
  let t ← t.recordAll r.session.resolver.sink r.trace.events
  match r.result with
  | .ok lifted => return { t with summary := ← t.summary.report lifted.report }
  | .error _ => return t

end Telemetry

end BinaryLift
