import BinaryLift.Transform.Combine
import BinaryLift.Transform.ControlFlow
import BinaryLift.Transform.DeadCode
import BinaryLift.Transform.Memory
import BinaryLift.Transform.Numbering
import BinaryLift.Transform.Stack

/-!
# Passes

The transformations by name. Some work on one function at a time, some need the module; a group runs
several of the first kind on each defined function before it goes to the next.
-/

namespace BinaryLift

/-- A transformation of one function. -/
inductive FunctionPass where
  | promoteSlots
  | combine
  | simplifyGraph
  | numberEarly (memoryAware : Bool)
  | dropUnused
  | numberGlobal
  | dropUnneeded
deriving DecidableEq

namespace FunctionPass

def name : FunctionPass → String
  | promoteSlots => "mem2reg"
  | combine => "instcombine"
  | simplifyGraph => "simplifycfg"
  | numberEarly _ => "early-cse"
  | dropUnused => "dce"
  | numberGlobal => "gvn"
  | dropUnneeded => "adce"

def run (f : Func) : FunctionPass → Transformed
  | promoteSlots => f.promoteSlots
  | combine => f.combine
  | simplifyGraph => f.simplifyGraph
  | numberEarly memoryAware => f.number (.early memoryAware)
  | dropUnused => f.dropUnused
  | numberGlobal => f.number .global
  | dropUnneeded => f.dropUnneeded

/-- Run passes one after another on a function. -/
def runAll (passes : List FunctionPass) (f : Func) : Transformed := sweepOver run f passes

end FunctionPass

namespace Module

/-- Transform one function of a module, if it is present. -/
def transformOne (m : Module) (id : FuncId) (g : Func → Transformed) : Checked (Module × Bool) :=
  match m.func? id with
  | none => return (m, false)
  | some f => do
    let (f, changed) ← g f
    return (m.put id f, changed)

/-- Transform every defined function of a module. -/
def transformEach (m : Module) (g : Func → Transformed) : Checked (Module × Bool) :=
  m.funcs.foldlM (fun acc e => do
    if e.2.isDeclaration then return acc
    let (m, changed) ← acc.1.transformOne e.1 g
    return (m, acc.2 || changed)) (m, false)

end Module

/-- A transformation of a module. -/
inductive ModulePass where
  | foldImageLoads (memory : ArgRef) (policy : MemoryPolicy)
  | narrowLoads
  | promoteStack (stack : ArgRef)
  | flattenMemory (memory : ArgRef)
  | dropUncallable
  | dropPrototypes
deriving DecidableEq

namespace ModulePass

def name : ModulePass → String
  | foldImageLoads .. => "gep-load"
  | narrowLoads => "replace-trunc-with-load"
  | promoteStack _ => "promote-pseudo-stack"
  | flattenMemory _ => "promote-pseudo-memory"
  | dropUncallable => "globaldce"
  | dropPrototypes => "strip-dead-prototypes"

def run (img : Image) (m : Module) : ModulePass → Checked (Module × Bool)
  | foldImageLoads memory policy =>
    if policy = .never then return (m, false)
    else m.transformOne memory.func (Func.foldImageLoads img memory.index policy)
  | narrowLoads => m.transformEach Func.narrowLoads
  | promoteStack stack => m.transformOne stack.func (Func.promoteStack stack.value)
  | flattenMemory memory => m.transformOne memory.func (Func.flattenMemory memory.index)
  | dropUncallable => m.dropUncallable
  | dropPrototypes => return m.dropPrototypes

end ModulePass

/-- Something that can be run on a module. -/
inductive Pass where
  | group (name : String) (members : List FunctionPass)
  | single (pass : ModulePass)
deriving DecidableEq

namespace Pass

def name : Pass → String
  | group name _ => name
  | single pass => pass.name

def run (img : Image) (m : Module) : Pass → Checked (Module × Bool)
  | group _ members => m.transformEach (FunctionPass.runAll members)
  | single pass => pass.run img m

/-- Run passes one after another on a module. -/
def runAll (img : Image) (passes : List Pass) (m : Module) : Checked Module :=
  passes.foldlM (fun m p => return (← p.run img m).1) m

end Pass

/-- A pass of either kind on its own. -/
inductive PassStep where
  | function (pass : FunctionPass)
  | module (pass : ModulePass)
deriving DecidableEq

def PassStep.name : PassStep → String
  | .function pass => pass.name
  | .module pass => pass.name

/-- A step as something that can be run. -/
def PassStep.toPass : PassStep → Pass
  | .function pass => .group pass.name [pass]
  | .module pass => .single pass

end BinaryLift
