import BinaryLift.Pipeline.Pass

/-!
# Optimization

The schedule has fifteen steps in four phases. Local slots are promoted before instructions are
combined, and accesses through the stack and memory parameters are replaced after the steps that make them
direct. Steps of a per-function phase that follow each other run as one group. Rounds of all passes are run
as long as they make the program smaller, up to a limit.
-/

namespace BinaryLift

/-! ### The schedule -/

/-- Stages of the pipeline, in order. -/
inductive Phase where
  | earlyCleanup
  | canonicalization
  | lateCleanup
  | finalization
deriving DecidableEq, Repr

namespace Phase

/-- Whether the steps of a phase run function by function. -/
def isPerFunction : Phase → Bool
  | earlyCleanup | lateCleanup => true
  | _ => false

def name : Phase → String
  | earlyCleanup => "early-cleanup"
  | canonicalization => "lifter-canonicalization"
  | lateCleanup => "late-cleanup"
  | finalization => "module-finalization"

end Phase

/-- What the schedule depends on: the stack and the memory parameter of the lifted function, and
which bytes of the image count as constant. -/
structure ScheduleParams where
  stack : ArgRef
  memory : ArgRef
  policy : MemoryPolicy := .readOnly

/-- Steps in order, each with its phase. -/
abbrev Schedule := List (Phase × PassStep)

namespace Schedule

/-- The pipeline for one lifted function. -/
def build (p : ScheduleParams) : Schedule :=
  [ (.earlyCleanup, .function .promoteSlots),
    (.earlyCleanup, .function .combine),
    (.earlyCleanup, .function .simplifyGraph),
    (.earlyCleanup, .function (.numberEarly true)),
    (.earlyCleanup, .function .dropUnused),
    (.canonicalization, .module (.foldImageLoads p.memory p.policy)),
    (.canonicalization, .module .narrowLoads),
    (.canonicalization, .module (.promoteStack p.stack)),
    (.canonicalization, .module (.flattenMemory p.memory)),
    (.lateCleanup, .function .combine),
    (.lateCleanup, .function .simplifyGraph),
    (.lateCleanup, .function .numberGlobal),
    (.lateCleanup, .function .dropUnneeded),
    (.finalization, .module .dropUncallable),
    (.finalization, .module .dropPrototypes) ]

/-- The steps of one phase. -/
def ofPhase (s : Schedule) (phase : Phase) : List PassStep :=
  (s.filter (·.1 = phase)).map (·.2)

/-- Text of the steps after one of phase `current`: a new phase starts a line. -/
def textFrom (current : Option Phase) : Schedule → String
  | [] => ""
  | (phase, step) :: rest =>
    let head :=
      if current = some phase then ""
      else (if current.isSome then "\n" else "") ++ phase.name ++ ":"
    head ++ " " ++ step.name ++ textFrom (some phase) rest

/-- Written form: a line for each phase. -/
def text (s : Schedule) : String := s.textFrom none

/-- A collected group as a pass. -/
def flush : Option (Phase × List FunctionPass) → List Pass
  | none => []
  | some (phase, members) => [.group phase.name members]

/-- Runnable passes for the rest of a schedule, `group` being what is collected so far. -/
def passesFrom (group : Option (Phase × List FunctionPass)) : Schedule → List Pass
  | [] => flush group
  | (phase, step) :: rest =>
    let stop := group.any fun g => g.1 ≠ phase || !phase.isPerFunction
    let done := if stop then flush group else []
    let group := if stop then none else group
    match step with
    | .function pass =>
      if phase.isPerFunction then
        let members := (group.map (·.2)).getD [] ++ [pass]
        done ++ passesFrom (some (((group.map (·.1)).getD phase), members)) rest
      else done ++ .group pass.name [pass] :: passesFrom group rest
    | .module pass => done ++ .single pass :: passesFrom group rest

/-- Runnable passes of a schedule. -/
def passes (s : Schedule) : List Pass := s.passesFrom none

end Schedule

/-! ### Rounds of the schedule -/

/-- What a run did. -/
structure OptimizeReport where
  /-- Rounds that were run. -/
  iterations : Nat
  initial : Nat
  final : Nat
deriving DecidableEq

def OptimizeReport.removed (r : OptimizeReport) : Nat := r.initial - r.final

/-- The default limit of rounds. -/
def maxIterations : Nat := 3

section

variable {σ ε : Type}

/-- Run rounds until one does not lower the size or `n` have been run; `count` have been run before
and left the size `before`. -/
def shrinkFrom (round : σ → Except ε σ) (size : σ → Nat) :
    Nat → Nat → Nat → σ → Except ε (σ × Nat)
  | 0, count, _, s => return (s, count)
  | n + 1, count, before, s => do
    let s ← round s
    if before ≤ size s then return (s, count + 1)
    else shrinkFrom round size n (count + 1) (size s) s

/-- Run at most `limit` rounds as long as the size falls. -/
def shrink (round : σ → Except ε σ) (size : σ → Nat) (limit : Nat) (s : σ) :
    Except ε (σ × OptimizeReport) := do
  let (t, count) ← shrinkFrom round size limit 0 (size s) s
  return (t, { iterations := count, initial := size s, final := size t })

end

/-- Run passes on a module as long as its instruction count falls. -/
def runToFixpoint (img : Image) (passes : List Pass) (limit : Nat) (m : Module) :
    Checked (Module × OptimizeReport) :=
  shrink (Pass.runAll img passes) Module.instructionCount limit m

/-- Run the standard pipeline. -/
def optimize (img : Image) (params : ScheduleParams) (limit : Nat) (m : Module) :
    Checked (Module × OptimizeReport) :=
  runToFixpoint img (Schedule.build params).passes limit m

end BinaryLift
