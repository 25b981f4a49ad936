import BinaryLift.Program.Func.Basic

/-!
# Modules

A module keeps its functions in an arena with holes, so that calls may name a function that is gone. Its
written form is that of its functions: a head with the signature, then the live blocks in order of
creation. A declaration is its head.
-/

namespace BinaryLift

/-! ### Written form of functions -/

namespace Func

def paramText (f : Func) : String :=
  ", ".intercalate (f.params.zipIdx.map fun e => e.1.ty.text ++ " %arg" ++ Nat.repr e.2)

def instText (id : InstId) (i : Inst) : String :=
  match i.ty with
  | some ty => "  " ++ id.text ++ ": " ++ ty.text ++ " = " ++ i.kind.text ++ "\n"
  | none => "  " ++ i.kind.text ++ "\n"

def blockText (f : Func) (b : BlockId) (data : Block) : String :=
  let head := match data.address with
    | some a => b.text ++ ":  ; " ++ Word.hex a ++ "\n"
    | none => b.text ++ ":\n"
  let body := data.insts.map fun id => (f.inst? id).elim "" (instText id)
  head ++ String.join body ++ "  " ++ data.term.text ++ "\n"

/-- Written form of a function. -/
def text (f : Func) : String :=
  let head := (f.ret.elim "void" Ty.text) ++ " @" ++ f.name ++ "(" ++ f.paramText ++ ")"
  if f.isDeclaration then "declare " ++ head ++ "\n"
  else
    "define " ++ head ++ " \x7b\n" ++
      String.join (f.liveBlocks.map fun e => f.blockText e.1 e.2) ++ "\x7d\n"

end Func

/-! ### Modules -/

/-- One parameter of one function. -/
structure ArgRef where
  func : FuncId
  index : Nat
deriving DecidableEq

def ArgRef.value (a : ArgRef) : Value := .arg a.index

/-- A named collection of functions. -/
structure Module where
  name : String
  arena : Array (Option Func) := #[]
deriving DecidableEq

namespace Module

def addFunc (m : Module) (f : Func) : Module × FuncId :=
  ({ m with arena := m.arena.push (some f) }, ⟨m.arena.size⟩)

def func? (m : Module) (id : FuncId) : Option Func := m.arena[id.index]?.join

/-- The functions present, oldest first. -/
def funcs (m : Module) : List (FuncId × Func) :=
  m.arena.toList.zipIdx.filterMap fun e => e.1.map fun f => (⟨e.2⟩, f)

def ids (m : Module) : List FuncId := m.funcs.map (·.1)

def size (m : Module) : Nat := m.funcs.length

/-- The oldest function of a name. -/
def byName? (m : Module) (name : String) : Option FuncId :=
  (m.funcs.find? (·.2.name == name)).map (·.1)

/-- Overwrite the body of a function that is present. -/
def put (m : Module) (id : FuncId) (f : Func) : Module :=
  if (m.func? id).isSome then { m with arena := m.arena.setIfInBounds id.index (some f) } else m

def remove (m : Module) (id : FuncId) : Module :=
  { m with arena := m.arena.setIfInBounds id.index none }

def removeAll (m : Module) (ids : List FuncId) : Module := ids.foldl remove m

/-- Instructions and terminators of all bodies. -/
def instructionCount (m : Module) : Nat :=
  m.funcs.foldl (fun n e => n + e.2.instructionCount) 0

/-- Written form of a module. -/
def text (m : Module) : String :=
  "; module " ++ m.name ++ "\n" ++ String.join (m.funcs.map (·.2.text))

end Module

end BinaryLift
