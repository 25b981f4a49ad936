import BinaryLift.Program.Func.Editing
import BinaryLift.Program.Iteration
import BinaryLift.Program.Module

/-!
# Dead code

Two ways to drop instructions whose results do not matter. `dropUnused`, the pass `dce`, takes out what
nobody reads, again and again; a cycle of phis that read each other stays. `dropUnneeded`, the pass `adce`,
keeps only what side effects and terminators depend on.

Of a module, `globaldce` drops the hidden functions that no visible one calls, directly or not
(`dropUncallable`), and `strip-dead-prototypes` the declarations that nobody calls (`dropPrototypes`).
-/

namespace BinaryLift

/-! ### Instructions -/

namespace Func

/-- The live instructions without readers and without side effects. -/
def unused (f : Func) : Checked (List InstId) :=
  f.liveInsts.filterM fun id => return !(← f.kind id).hasSideEffects && f.useCount id == 0

/-- Take out the unused instructions once. -/
def dropUnusedOnce (f : Func) : Transformed := do
  let dead ← f.unused
  if dead.isEmpty then return (f, false) else return (← f.removeInsts dead, true)

/-- Take out unused instructions until there are none. Every round but the last removes one. -/
def dropUnused (f : Func) : Transformed := untilStable dropUnusedOnce (f.liveInsts.length + 1) f

/-- The instructions that are needed for their effects or by a terminator. -/
def neededRoots (f : Func) : Checked (List InstId) := do
  let perBlock ← f.liveBlocks.mapM fun e => do
    let effects ← e.2.insts.filterM fun id => return (← f.kind id).hasSideEffects
    return effects ++ e.2.term.operands.filterMap Value.inst?
  return perBlock.flatten

/-- The instructions whose results an instruction reads. -/
def reads (f : Func) (id : InstId) : Checked (List InstId) :=
  return (← f.kind id).operands.filterMap Value.inst?

/-- Everything that is needed, directly or through operands. -/
def needed (f : Func) : Checked (List InstId) := do
  closure f.reads (f.arena.size + 1) (← f.neededRoots)

/-- Keep only what is needed. -/
def dropUnneeded (f : Func) : Transformed := do
  let keep ← f.needed
  let dead := f.liveInsts.filter (· ∉ keep)
  return (← f.removeInsts dead, !dead.isEmpty)

end Func

/-! ### Functions -/

/-- The functions a body calls, in order. -/
def Func.callees (f : Func) : List FuncId :=
  f.liveInsts.filterMap fun id => (f.inst? id).bind (·.kind.callee?)

namespace Module

def visible (m : Module) : List FuncId :=
  (m.funcs.filter (·.2.linkage = .visible)).map (·.1)

def calleesOf (m : Module) (id : FuncId) : List FuncId := (m.func? id).elim [] Func.callees

/-- Every call of the module. -/
def calls (m : Module) : List FuncId := m.funcs.flatMap (·.2.callees)

/-- The functions that visible ones lead to. -/
def called (m : Module) : Checked (List FuncId) :=
  closure (fun id => return m.calleesOf id) (m.arena.size + m.calls.length) m.visible

/-- Drop the functions that cannot be called. -/
def dropUncallable (m : Module) : Checked (Module × Bool) := do
  let keep ← m.called
  let dead := m.ids.filter (· ∉ keep)
  return (m.removeAll dead, !dead.isEmpty)

/-- Drop the declarations that are not called. -/
def dropPrototypes (m : Module) : Module × Bool :=
  let dead := (m.funcs.filter fun e => e.2.isDeclaration && !m.calls.contains e.1).map (·.1)
  (m.removeAll dead, !dead.isEmpty)

end Module

end BinaryLift
