import BinaryLift.Image.File
import BinaryLift.Pipeline.Optimize
import BinaryLift.Program.Func.Basic
import BinaryLift.Program.Func.Editing
import BinaryLift.Target.Resolve

/-!
# Lifting sessions

A block lifter knows the instructions of one architecture. It fills one block at a time and says how
the block is left; what is lifted next is not its concern.

Starting from an entry address, a session has blocks lifted in the order in which their addresses were
discovered. The exit of each block gives its terminator and, through the resolver, more addresses.
When none is left the function is optimized. Everything that can be observed on the way is kept in a
trace, also when lifting fails.
-/

namespace BinaryLift

/-! ### Block lifters -/

/-- How a lifted block is left. -/
inductive BlockExit where
  | jump (target : Word)
  | branch (cond : Value) (taken fallthrough : Word)
  /-- To a computed destination. -/
  | indirect (dest : Value)
  | ret (value : Option Value)
deriving DecidableEq

/-- The shape of the functions a lifter makes. -/
structure Signature where
  params : List Param := [⟨"stack", .ptr⟩, ⟨"memory", .ptr⟩]
  ret : Option Ty := some .i64
  /-- Which parameter points to the stack. -/
  stack : Nat := 0
  /-- Which parameter addresses of guest memory are counted from. -/
  memory : Nat := 1

/-- Why a function was not lifted. -/
inductive LiftError where
  | image (cause : ImageError)
  | entryOutsideImage (entry : Word)
  | blockLimitExceeded (function : String) (limit : Nat)
  /-- An instruction could not be understood. -/
  | semantics (address : Word) (message : String)
deriving DecidableEq

/-- The text of an error that is reported with one. -/
def LiftError.message? : LiftError → Option String
  | .image cause => cause.message?.map ("image error: " ++ ·)
  | .entryOutsideImage entry =>
    some ("entry point " ++ Word.hex entry ++ " is outside the loaded image")
  | .blockLimitExceeded function limit =>
    some ("function " ++ function ++ " needs more than " ++ Nat.repr limit ++ " blocks")
  | .semantics address message =>
    some ("cannot lift instruction at " ++ Word.hex address ++ ": " ++ message)

/-- How lifting can end early. -/
inductive LiftFailure where
  | error (e : LiftError)
  | fault (f : Fault)
deriving DecidableEq

/-- A lifter with private state `σ`. -/
structure BlockLifter (σ : Type) where
  signature : Signature := {}
  /-- Fill a block with the code at an address. -/
  lift : σ → Func → BlockId → Word → σ × Except LiftFailure (Func × BlockExit)

/-! ### Sessions -/

/-- Settings of a session. -/
structure LiftConfig where
  policy : MemoryPolicy := .readOnly
  /-- How many blocks a function may take. -/
  maxBlocks : Nat := 4096
  optimize : Bool := true
  /-- Limit of optimization rounds. -/
  maxIterations : Nat := BinaryLift.maxIterations
deriving DecidableEq

/-- What happened while a function was lifted. -/
structure LiftReport where
  blocksLifted : Nat := 0
  /-- Addresses of blocks that end in an indirect jump. -/
  unresolved : List Word := []
  /-- Addresses of blocks whose exits come from candidates. -/
  speculative : List Word := []
  /-- Block address and target, for targets outside the image. -/
  rejected : List (Word × Word) := []
  optimize : Option OptimizeReport := none
deriving DecidableEq

/-- What an observer sees: addresses given to the lifter, observations of the resolver, warnings. -/
structure LiftTrace where
  asked : List Word := []
  events : List ResolveEvent := []
  warnings : List Warning := []

/-- State of the search for blocks. -/
structure Progress (σ : Type) where
  lifter : σ
  func : Func
  blocks : BlockMap
  report : LiftReport := {}
  trace : LiftTrace := {}

/-- A function lifted into a module of its own. -/
structure LiftedFunction where
  module : Module
  func : FuncId
  entry : Word
  blocks : BlockMap
  report : LiftReport

def LiftedFunction.function? (l : LiftedFunction) : Option Func := l.module.func? l.func

/-- The resolver of an image: the solver relies on read-only bytes, the policy says what the
enumerator reads, and nothing is read if it says never. -/
def Resolver.ofImage (img : Image) (memory : Nat) (policy : MemoryPolicy) (sink : Sink) :
    Resolver :=
  match policy with
  | .never => { range := img.range, sink := sink }
  | .readOnly =>
    { range := img.range
      solver := solve (.readonlyImage img (some memory))
      enumerator := enumerate (.readonlyImage img (some memory))
      sink := sink }
  | .allMapped =>
    { range := img.range
      solver := solve (.readonlyImage img (some memory))
      enumerator := enumerate (.wholeImage img (some memory))
      sink := sink }

namespace Progress

variable {σ : Type}

def reject (p : Progress σ) (site : Word) (targets : List Word) : Progress σ :=
  { p with report.rejected := p.report.rejected ++ targets.map fun t => (site, t) }

/-- The block of a known target, if it lies inside the image. -/
def direct (r : Resolver) (p : Progress σ) (site target : Word) : Progress σ × Option BlockId :=
  if r.isValid target then
    let (m, f, b) := p.blocks.schedule p.func target .direct
    ({ p with blocks := m, func := f }, some b)
  else
    let p := p.reject site [target]
    ({ p with trace.warnings := p.trace.warnings ++ [.directOutside site target] }, none)

/-- The block of one arm of a branch; a target outside the image gets an empty block. -/
def arm (r : Resolver) (p : Progress σ) (site target : Word) : Progress σ × BlockId :=
  match p.direct r site target with
  | (p, some b) => (p, b)
  | (p, none) =>
    let (f, b) := p.func.addBlock none
    ({ p with func := f }, b)

/-- Ask the resolver, and write down what it observed. -/
def consult (r : Resolver) (p : Progress σ) (site : Word) (dest : Value) :
    Progress σ × Checked Resolution :=
  let done := r.resolve p.func p.blocks dest
  let p : Progress σ :=
    { p with
      func := done.func
      blocks := done.blocks
      trace.events := p.trace.events ++ done.events
      trace.warnings := p.trace.warnings ++ done.warnings }
  match done.result with
  | .error e => (p, .error e)
  | .ok res => (p.reject site res.rejected, .ok res)

/-- Branch to the first of two candidates if the destination is equal to it, else to the second. -/
def branchOn (f : Func) (block : BlockId) (dest : Value) (first second : Scheduled) :
    Checked (Func × Terminator) := do
  let ty := (← f.valueTy dest).getD .i64
  let (f, cond) ← f.appendInst block ⟨.icmp .eq dest (.int first.address ty), some .i1⟩
  return (f, .branch (.inst cond) first.block second.block)

/-- The terminator for a computed destination. -/
def indirect (r : Resolver) (p : Progress σ) (block : BlockId) (site : Word) (dest : Value) :
    Progress σ × Checked Terminator :=
  match p.consult r site dest with
  | (p, .error e) => (p, .error e)
  | (p, .ok res) =>
    match res.dest, res.targets with
    | some _, [target] => (p, .ok (.jump target.block))
    | some _, _ => (p, .ok .unreachable)
    | none, [only] =>
      ({ p with report.speculative := p.report.speculative ++ [site] }, .ok (.jump only.block))
    | none, [first, second] =>
      let p : Progress σ := { p with report.speculative := p.report.speculative ++ [site] }
      match branchOn p.func block dest first second with
      | .error e => (p, .error e)
      | .ok (f, t) => ({ p with func := f }, .ok t)
    | none, _ =>
      ({ p with report.unresolved := p.report.unresolved ++ [site] }, .ok (.indirect dest))

/-- The terminator that an exit prescribes. -/
def materialize (r : Resolver) (p : Progress σ) (block : BlockId) (site : Word) :
    BlockExit → Progress σ × Checked Terminator
  | .ret v => (p, .ok (.ret v))
  | .jump target =>
    match p.direct r site target with
    | (p, some b) => (p, .ok (.jump b))
    | (p, none) => (p, .ok .unreachable)
  | .branch cond taken fallthrough =>
    let (p, t) := p.arm r site taken
    let (p, e) := p.arm r site fallthrough
    (p, .ok (.branch cond t e))
  | .indirect dest => p.indirect r block site dest

/-- Set the terminator of a block that was just filled. -/
def finishBlock (r : Resolver) (p : Progress σ) (block : BlockId) (site : Word)
    (exit : BlockExit) : Progress σ × Except LiftFailure Unit :=
  match p.materialize r block site exit with
  | (p, .error e) => (p, .error (.fault e))
  | (p, .ok t) =>
    match p.func.setTerm block t with
    | .error e => (p, .error (.fault e))
    | .ok f => ({ p with func := f }, .ok ())

/-- Lift one block. -/
def liftBlock (lifter : BlockLifter σ) (r : Resolver) (p : Progress σ) (block : BlockId)
    (address : Word) : Progress σ × Except LiftFailure Unit :=
  let p : Progress σ := { p with trace.asked := p.trace.asked ++ [address] }
  match lifter.lift p.lifter p.func block address with
  | (s, .error e) => ({ p with lifter := s }, .error e)
  | (s, .ok (f, exit)) =>
    let p : Progress σ :=
      { p with lifter := s, func := f, report.blocksLifted := p.report.blocksLifted + 1 }
    p.finishBlock r block address exit

/-- Lift the pending blocks of the function called `name` until none is left; at most `n` more, out
of `limit` in all. -/
def discover (lifter : BlockLifter σ) (r : Resolver) (name : String) (limit : Nat) :
    Nat → Progress σ → Progress σ × Except LiftFailure Unit
  | n, p =>
    match p.blocks.next, n with
    | (_, none), _ => (p, .ok ())
    | (m, some _), 0 =>
      ({ p with blocks := m }, .error (.error (.blockLimitExceeded name limit)))
    | (m, some (address, block)), n + 1 =>
      match liftBlock lifter r { p with blocks := m } block address with
      | (p, .error e) => (p, .error e)
      | (p, .ok ()) => discover lifter r name limit n p

/-- The state before the first block. -/
def start (s : σ) (sig : Signature) (name : String) (entry : Word) : Progress σ :=
  let f : Func := { name := name, params := sig.params, ret := sig.ret }
  let (m, f, _) := ({} : BlockMap).schedule f entry .entry
  { lifter := s, func := f, blocks := m }

end Progress

/-- A session: an image, a lifter, a resolver and settings. -/
structure Session (σ : Type) where
  image : Image
  lifter : BlockLifter σ
  state : σ
  config : LiftConfig := {}
  sink : Sink := .shared
  /-- A resolver that the caller supplied; settings do not change it. -/
  custom : Bool := false
  resolver : Resolver

/-- Everything one call did. -/
structure LiftRun (σ : Type) where
  session : Session σ
  trace : LiftTrace
  result : Except LiftFailure LiftedFunction

namespace Session

variable {σ : Type}

/-- A session with default settings. -/
def new (image : Image) (lifter : BlockLifter σ) (state : σ) : Session σ :=
  { image := image
    lifter := lifter
    state := state
    resolver := .ofImage image lifter.signature.memory ({} : LiftConfig).policy .shared }

/-- Change the settings; a new policy rebuilds a resolver that was not supplied. -/
def withConfig (s : Session σ) (config : LiftConfig) : Session σ :=
  if !s.custom && config.policy ≠ s.config.policy then
    { s with
      config := config
      resolver := .ofImage s.image s.lifter.signature.memory config.policy s.sink }
  else { s with config := config }

/-- Send observations elsewhere. -/
def withSink (s : Session σ) (sink : Sink) : Session σ :=
  { s with sink := sink, resolver.sink := sink }

/-- Supply a resolver. -/
def withResolver (s : Session σ) (r : Resolver) : Session σ :=
  { s with resolver := r, custom := true }

/-- Optimize a module with one lifted function as the settings say. -/
def optimizeLifted (s : Session σ) (m : Module) (id : FuncId) :
    Checked (Module × Option OptimizeReport) :=
  if s.config.optimize then do
    let sig := s.lifter.signature
    let params : ScheduleParams :=
      { stack := ⟨id, sig.stack⟩, memory := ⟨id, sig.memory⟩, policy := s.config.policy }
    let (m, report) ← BinaryLift.optimize s.image params s.config.maxIterations m
    return (m, some report)
  else return (m, none)

/-- Wrap up a function whose blocks have all been lifted, in a module of the given name. -/
def finish (s : Session σ) (name : String) (entry : Word) (p : Progress σ) :
    Checked LiftedFunction := do
  let (m, id) := ({ name := name } : Module).addFunc p.func
  let (m, report) ← s.optimizeLifted m id
  return {
    module := m
    func := id
    entry := entry
    blocks := p.blocks
    report := { p.report with optimize := report } }

/-- Lift the function that starts at an address. -/
def liftFunction (s : Session σ) (name : String) (entry : Word) : LiftRun σ :=
  if s.resolver.isValid entry then
    let p := Progress.start s.state s.lifter.signature name entry
    let limit := s.config.maxBlocks
    let (p, found) := p.discover s.lifter s.resolver name limit limit
    let s := { s with state := p.lifter }
    match found with
    | .error e => ⟨s, p.trace, .error e⟩
    | .ok () =>
      match s.finish name entry p with
      | .error e => ⟨s, p.trace, .error (.fault e)⟩
      | .ok lifted => ⟨s, p.trace, .ok lifted⟩
  else ⟨s, {}, .error (.error (.entryOutsideImage entry))⟩

end Session

end BinaryLift
