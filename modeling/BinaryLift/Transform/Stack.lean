import BinaryLift.Transform.Promote

/-!
# Stack slots

The pass `promote-pseudo-stack`: accesses at constant offsets from the stack parameter become local slots,
which are then promoted. That is done only if the parameter has no other use, each offset is always
accessed at one width and no two slots overlap.
-/

namespace BinaryLift

/-- A slot of the stack: bytes accessed, and the instructions that compute its address. -/
structure StackSlot where
  width : Nat
  addresses : List InstId

/-- Slots by signed offset. -/
abbrev StackSlots := Table Int StackSlot

namespace Func

/-- The width of all accesses through an address, if every reader is an access of that width; the
inner option is empty if there is no reader. -/
def accessWidth (f : Func) (address : Value) :
    Option Nat → List User → Checked (Option (Option Nat))
  | acc, [] => return some acc
  | _, .term _ :: _ => return none
  | acc, .inst id :: users => do
    match (← f.slotAccess address id) with
    | none => return none
    | some ty =>
      if acc.all (· = ty.bytes) then accessWidth f address (some ty.bytes) users else return none

/-- Add one use of the stack parameter to the slots. -/
def addStackUse (f : Func) (stack : Value) (slots : StackSlots) :
    User → Checked (Option StackSlots)
  | .term _ => return none
  | .inst id => do
    match (← f.kind id) with
    | .ptrAdd base (.const c) =>
      if base ≠ stack then return none
      match (← f.accessWidth (.inst id) none (f.usersOf (.inst id))) with
      | none => return none
      | some none => return some slots
      | some (some width) =>
        let slot := (slots.get? c.signed).getD ⟨width, []⟩
        if slot.width ≠ width then return none
        return some (slots.insert c.signed { slot with addresses := slot.addresses ++ [id] })
    | _ => return none

/-- Add the uses of the stack parameter one by one. -/
def addStackUses (f : Func) (stack : Value) : StackSlots → List User → Checked (Option StackSlots)
  | slots, [] => return some slots
  | slots, u :: us => do
    match (← f.addStackUse stack slots u) with
    | none => return none
    | some slots => addStackUses f stack slots us

/-- How many words there are on either side of zero when they are read with a sign. -/
def signedSpan : Int := 0x8000000000000000

/-- Whether slots in ascending order do not overlap and end below the largest signed word. -/
def apart : Int → StackSlots → Bool
  | _, [] => true
  | stop, (offset, slot) :: rest =>
    stop ≤ offset && offset + slot.width < signedSpan && apart (offset + slot.width) rest

/-- The slots behind a stack parameter in ascending order, if it is used for nothing else. -/
def stackSlots (f : Func) (stack : Value) : Checked (Option StackSlots) := do
  match (← f.addStackUses stack [] (f.usersOf stack)) with
  | none => return none
  | some slots =>
    let sorted := slots.mergeSort fun x y => decide (x.1 ≤ y.1)
    return if apart (-signedSpan) sorted then some sorted else none

/-- Put a local slot at the start of a function, after its phis. -/
def addStackAllocas (f : Func) (entry : BlockId) (slots : StackSlots) :
    Checked (Func × List (InstId × StackSlot)) :=
  slots.foldlM (fun acc e => do
    let (g, id) ← acc.1.insertInst entry (← acc.1.phis entry).length
      ⟨.alloca e.2.width, some .ptr⟩
    return (g, acc.2 ++ [(id, e.2)])) (f, [])

/-- Turn the slots behind the stack parameter into values. -/
def promoteStack (stack : Value) (f : Func) : Transformed := do
  match f.entry with
  | none => return (f, false)
  | some entry =>
    match (← f.stackSlots stack) with
    | none => return (f, false)
    | some [] => return (f, false)
    | some slots =>
      let (f, made) ← f.addStackAllocas entry slots
      let table : Table InstId InstId :=
        made.flatMap fun e => e.2.addresses.map fun a => (a, e.1)
      let f := f.mapOperands fun
        | .inst id => .inst ((table.get? id).getD id)
        | v => v
      let f ← f.removeInsts table.keys
      return ((← f.promoteAllocas (made.map (·.1))).1, true)

end Func

end BinaryLift
