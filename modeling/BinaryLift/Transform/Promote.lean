import BinaryLift.Graph.Dominators
import BinaryLift.Program.Func.Editing
import BinaryLift.Program.Iteration

/-!
# Promotion of local slots

The pass `mem2reg`: a slot that is only loaded from and stored to, always at one type, becomes an SSA
value. Phis are placed at the iterated dominance frontier of the stores; then one walk down the dominator
tree knows the current value of every slot. A load that no store reaches reads zero.
-/

namespace BinaryLift.Func

/-- Type of the access that a reader of a slot makes, if the reader is a load from the slot or a
store to it. -/
def slotAccess (f : Func) (slot : Value) (id : InstId) : Checked (Option Ty) := do
  let i ← f.inst id
  match i.kind with
  | .load ptr => if ptr = slot then return i.ty else return none
  | .store ptr value => if ptr = slot ∧ value ≠ slot then f.valueTy value else return none
  | _ => return none

/-- The one type of all accesses by these readers, if every one is an access in a reachable block.
`acc` is the type found so far. -/
def accessTy (f : Func) (dom : DomTree) (slot : Value) :
    Option Ty → List User → Checked (Option Ty)
  | acc, [] => return acc
  | _, .term _ :: _ => return none
  | acc, .inst id :: users => do
    if !(f.instBlock id).any dom.isReachable then return none
    match (← f.slotAccess slot id) with
    | none => return none
    | some ty => if acc.all (· = ty) then accessTy f dom slot (some ty) users else return none

/-- The type at which a slot can be promoted. -/
def promotableTy (f : Func) (dom : DomTree) (id : InstId) : Checked (Option Ty) :=
  if (f.instBlock id).any dom.isReachable then
    f.accessTy dom (.inst id) none (f.usersOf (.inst id))
  else return none

/-- The slots among some instructions that can be promoted, with their types. -/
def promotable (f : Func) (dom : DomTree) (allocas : List InstId) :
    Checked (List (InstId × Ty)) :=
  allocas.filterMapM fun id => return (← f.promotableTy dom id).map fun ty => (id, ty)

/-- The blocks with a store to a slot. -/
def storeBlocks (f : Func) (id : InstId) : List BlockId :=
  (f.usersOf (.inst id)).filterMap fun
    | .inst user =>
      match f.inst? user with
      | some ⟨.store .., _⟩ => f.instBlock user
      | _ => none
    | .term _ => none

/-- The phis made for slots: by block, the slot's number and the phi. -/
abbrev SlotPhis := Table BlockId (List (Nat × InstId))

/-- The phis made for slots in one block. -/
def SlotPhis.ofBlock (t : SlotPhis) (b : BlockId) : List (Nat × InstId) := (t.get? b).getD []

/-- Put an empty phi for one slot after the phis of each given block. -/
def placeSlotPhis (slot : Nat) (ty : Ty) (acc : Func × SlotPhis) (blocks : List BlockId) :
    Checked (Func × SlotPhis) :=
  blocks.foldlM (fun acc b => do
    let (g, phi) ← acc.1.insertInst b (← acc.1.phis b).length ⟨.phi [], some ty⟩
    return (g, acc.2.update b [] (· ++ [(slot, phi)]))) acc

/-- Place the phis of all slots. -/
def placePhis (f : Func) (dom : DomTree) (slots : List (InstId × Ty)) :
    Checked (Func × SlotPhis) :=
  slots.zipIdx.foldlM (fun acc e => do
    placeSlotPhis e.2 e.1.2 acc (← dom.iteratedFrontier (f.storeBlocks e.1.1))) (f, [])

/-- The number of the slot a pointer names. -/
def slotNumber? (slots : List (InstId × Ty)) : Value → Option Nat
  | .inst id => (slots.zipIdx.reverse.find? (·.1.1 = id)).map (·.2)
  | _ => none

/-- The current value of a slot. -/
def valueOf (current : List Value) (n : Nat) : Value := current[n]?.getD (.int 0 .i64)

/-- State of the renaming walk within one block: the function, the loads replaced so far and the
current value of every slot. -/
structure Renaming where
  func : Func
  replaced : Replacements
  current : List Value

/-- Take out one load or store of a slot. -/
def Renaming.inst (slots : List (InstId × Ty)) (r : Renaming) (id : InstId) : Checked Renaming := do
  match (← r.func.kind id) with
  | .load ptr =>
    match slotNumber? slots ptr with
    | none => return r
    | some n =>
      let value := valueOf r.current n
      return { r with func := ← r.func.removeInst id, replaced := r.replaced.insert id value }
  | .store ptr value =>
    match slotNumber? slots ptr with
    | none => return r
    | some n => return { r with func := ← r.func.removeInst id, current := r.current.set n value }
  | _ => return r

/-- Tell a phi the value that arrives from a block, once. -/
def addIncoming (f : Func) (b : BlockId) (current : List Value) (phi : Nat × InstId) : Func :=
  f.modifyKind phi.2 (Kind.mapIncoming fun inc =>
    if inc.any (·.1 = b) then inc else inc ++ [(b, valueOf current phi.1)])

/-- Rename within one block and along its edges. -/
def Renaming.block (slots : List (InstId × Ty)) (phis : SlotPhis) (r : Renaming) (b : BlockId) :
    Checked Renaming := do
  let entered := (phis.ofBlock b).foldl (fun cur p => cur.set p.1 (.inst p.2)) r.current
  let data ← r.func.block b
  let r ← data.insts.foldlM (Renaming.inst slots) { r with current := entered }
  let succs := (← r.func.successors b).eraseReps
  let f := succs.foldl
    (fun f s => (phis.ofBlock s).foldl (fun f p => f.addIncoming b r.current p) f) r.func
  return { r with func := f }

/-- Walk down the dominator tree with the blocks to visit and the slot values they start from. -/
def renameFrom (dom : DomTree) (slots : List (InstId × Ty)) (phis : SlotPhis) :
    Nat → Func → Replacements → List (BlockId × List Value) → Checked (Func × Replacements)
  | _, f, replaced, [] => return (f, replaced)
  | 0, _, _, _ :: _ => .error .stepLimit
  | n + 1, f, replaced, (b, current) :: work => do
    let r ← Renaming.block slots phis ⟨f, replaced, current⟩ b
    let next := (dom.children b).reverse.map fun c => (c, r.current)
    renameFrom dom slots phis n r.func r.replaced (next ++ work)

/-- Promote those of the given slots that can be; says how many. An entry block that control comes
back to could not hold a phi for the first arrival, so nothing is promoted then. -/
def promoteAllocas (f : Func) (allocas : List InstId) : Checked (Func × Nat) := do
  if allocas.isEmpty then return (f, 0)
  let dom ← DomTree.compute f
  match dom.entry with
  | none => return (f, 0)
  | some entry =>
    if !(dom.preds entry).isEmpty then return (f, 0)
    let slots ← f.promotable dom allocas
    if slots.isEmpty then return (f, 0)
    let (g, phis) ← f.placePhis dom slots
    let start := slots.map fun s => Value.int 0 s.2
    let (g, replaced) ← renameFrom dom slots phis dom.rpo.length g [] [(entry, start)]
    let g ← g.removeInsts (slots.map (·.1))
    return (g.applyReplacements replaced, slots.length)

/-- Promote every slot of a function that can be. -/
def promoteSlots (f : Func) : Transformed := do
  let allocas ← f.liveInsts.filterM fun id => return (← f.kind id).isAlloca
  let (g, n) ← f.promoteAllocas allocas
  return (g, n > 0)

end BinaryLift.Func
