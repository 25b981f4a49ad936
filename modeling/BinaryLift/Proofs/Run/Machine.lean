import BinaryLift.Image.Layout
import BinaryLift.Proofs.Program.Arenas

/-!
# Execution

One activation of a function. Values are payloads cut to their types. Memory is made of bytes, least
significant first. A slot of the function may be its own: then a load or store that names it directly
reaches a private store, zero on entry, and nothing else does; the other slots are places in guest
memory. Calls are answered from outside and may change guest memory. What has no result (a division
by zero, a value that was never computed) stops the execution.
-/

namespace BinaryLift

/-- Bytes by address. -/
abbrev Memory := Word → Byte

namespace Memory

def byteAt (w : Word) (i : Nat) : Byte := (w >>> (8 * i)).setWidth 8

def read (m : Memory) (a : Word) (ty : Ty) : Word :=
  BitVec.ofNat 64 (littleEndian ((List.range ty.bytes).map fun i => m (a + BitVec.ofNat 64 i))) &&&
    ty.mask

def write (m : Memory) (a : Word) (ty : Ty) (w : Word) : Memory :=
  fun x => if (x - a).toNat < ty.bytes then byteAt w (x - a).toNat else m x

end Memory

/-- A call as the outside sees it. -/
structure Call where
  callee : FuncId
  args : List Word

/-- What an execution is given. -/
structure Activation where
  args : Nat → Word
  /-- Result of a call and memory after it, from the calls before it. -/
  answer : List Call → Call → Memory → Word × Memory
  /-- Addresses of slots. -/
  base : InstId → Word
  /-- Slots that nothing but a direct access can reach. -/
  own : InstId → Bool
  /-- An indirect jump to the address of a block goes there. -/
  linked : Bool

/-- Every argument is `w`, and calls return zero and leave memory as it is. -/
def Activation.plain (w : Word) : Activation where
  args := fun _ => w
  answer := fun _ _ memory => (0, memory)
  base := fun _ => 0
  own := fun _ => false
  linked := false

/-- Where an access goes. -/
inductive Place where
  | slot (s : InstId)
  | guest (a : Word)

def Activation.place (act : Activation) : Value → Word → Place
  | .inst s, a => if act.own s then .slot s else .guest a
  | _, a => .guest a

/-- State of an execution. -/
structure Machine where
  env : InstId → Option Word
  memory : Memory
  slots : InstId → Memory
  calls : List Call

/-- What an instruction does once its operands are known. -/
inductive Action where
  | result (w : Word)
  | load (p : Place)
  | store (p : Place) (ty : Ty) (w : Word)
  | call (c : Call)

/-- How an execution ends. -/
inductive Exit where
  | ret (value : Option Word)
  | indirect (target : Word)
  | unreachable
deriving DecidableEq

/-- What a terminator does. -/
inductive Next where
  | goto (b : BlockId)
  | leave (e : Exit)

namespace Machine

def start (memory : Memory) : Machine where
  env := fun _ => none
  memory := memory
  slots := fun _ _ => 0
  calls := []

def eval (act : Activation) (f : Func) (m : Machine) : Value → Option Word
  | .const c => some c.bits
  | .arg n => some (act.args n &&& (f.wordTy (.arg n)).mask)
  | .inst id => m.env id

def define (m : Machine) (id : InstId) (ty : Ty) (w : Word) : Machine :=
  { m with env := fun j => if j = id then some (w &&& ty.mask) else m.env j }

def read (m : Machine) (ty : Ty) : Place → Word
  | .slot s => (m.slots s).read 0 ty
  | .guest a => m.memory.read a ty

def write (m : Machine) (ty : Ty) (w : Word) : Place → Machine
  | .slot s => { m with slots := fun t => if t = s then (m.slots s).write 0 ty w else m.slots t }
  | .guest a => { m with memory := m.memory.write a ty w }

/-- Phis are not executed one by one and have no action. -/
def action (act : Activation) (f : Func) (id : InstId) : Kind → List Word → Option Action
  | .alloca _, [] => some (.result (act.base id))
  | .load p, [a] => some (.load (act.place p a))
  | .store p v, [a, w] => some (.store (act.place p a) (f.wordTy v) w)
  | .binary op _ _, [a, b] => (op.fold a b (f.wordTy (.inst id))).map .result
  | .icmp p x _, [a, b] => some (.result (if p.fold a b (f.wordTy x) then 1 else 0))
  | .cast op v, [a] => some (.result (op.fold a (f.wordTy v) (f.wordTy (.inst id))))
  | .ptrAdd _ _, [a, b] => some (.result (a + b))
  | .select _ _ _, [c, a, b] => some (.result (if c ≠ 0 then a else b))
  | .call g _, ws => some (.call ⟨g, ws⟩)
  | _, _ => none

def perform (act : Activation) (m : Machine) (id : InstId) (ty : Ty) : Action → Machine
  | .result w => m.define id ty w
  | .load p => m.define id ty (m.read ty p)
  | .store p t w => m.write t w p
  | .call c =>
    let (w, memory) := act.answer m.calls c m.memory
    { m with memory := memory, calls := m.calls ++ [c] }.define id ty w

/-- Execute an instruction that is not a phi. -/
def exec (act : Activation) (f : Func) (m : Machine) (id : InstId) : Option Machine := do
  let i ← f.inst? id
  let ws ← i.kind.operands.mapM (m.eval act f)
  let a ← action act f id i.kind ws
  return m.perform act id (f.wordTy (.inst id)) a

/-- What a phi reads on the edge from `prev`. -/
def phiWord (act : Activation) (f : Func) (prev : Option BlockId) (m : Machine) (id : InstId) :
    Option Word :=
  match f.inst? id with
  | some ⟨.phi inc, _⟩ => (inc.find? fun e => some e.1 = prev).bind fun e => m.eval act f e.2
  | _ => none

/-- All phis of a block read before any of them is written. -/
def enter (act : Activation) (f : Func) (prev : Option BlockId) (phis : List InstId)
    (m : Machine) : Option Machine :=
  if phis.all fun id => (m.phiWord act f prev id).isSome then
    some { m with
      env := fun id =>
        if id ∈ phis then (m.phiWord act f prev id).map (· &&& (f.wordTy (.inst id)).mask)
        else m.env id }
  else none

def next (act : Activation) (f : Func) (m : Machine) : Terminator → Option Next
  | .jump b => some (.goto b)
  | .branch c t e => (m.eval act f c).map fun w => .goto (if w ≠ 0 then t else e)
  | .indirect v => (m.eval act f v).map fun w =>
    match act.linked, f.addressBlock w with
    | true, some b => .goto b
    | _, _ => .leave (.indirect w)
  | .ret none => some (.leave (.ret none))
  | .ret (some v) => (m.eval act f v).map fun w => .leave (.ret (some w))
  | .unreachable => some (.leave .unreachable)

end Machine

namespace Func

def isPhi (f : Func) (id : InstId) : Bool := (f.inst? id).any (·.kind.isPhi)

/-- The phis at the head of a block, then its other instructions. -/
def runBlock (f : Func) (act : Activation) (prev : Option BlockId) (insts : List InstId)
    (m : Machine) : Option Machine := do
  let m ← m.enter act f prev (insts.takeWhile f.isPhi)
  (insts.dropWhile f.isPhi).foldlM (Machine.exec act f) m

/-- At most `n` blocks, starting with `b`. -/
def runFrom (f : Func) (act : Activation) :
    Nat → Option BlockId → BlockId → Machine → Option (Exit × Machine)
  | 0, _, _, _ => none
  | n + 1, prev, b, m => do
    let data ← f.block? b
    let m ← f.runBlock act prev data.insts m
    match ← m.next act f data.term with
    | .leave e => return (e, m)
    | .goto c => runFrom f act n (some b) c m

/-- An execution of at most `n` blocks. -/
def run (f : Func) (act : Activation) (memory : Memory) (n : Nat) : Option (Exit × Machine) := do
  f.runFrom act n none (← f.entry) (.start memory)

theorem runFrom_succ {f : Func} {act : Activation} (n : Nat) :
    ∀ {prev b m r}, f.runFrom act n prev b m = some r → f.runFrom act (n + 1) prev b m = some r := by
  induction n with
  | zero =>
    intro prev b m r h
    cases h
  | succ n ih =>
    intro prev b m r h
    unfold runFrom at h ⊢
    simp only [Option.bind_eq_bind, Option.bind_eq_some_iff] at h ⊢
    obtain ⟨data, hdata, m', hm', next, hnext, h⟩ := h
    refine ⟨data, hdata, m', hm', next, hnext, ?_⟩
    cases next with
    | leave e => exact h
    | goto c => exact ih h

theorem runFrom_le {f : Func} {act : Activation} {n k : Nat} (hle : n ≤ k) {prev : Option BlockId}
    {b : BlockId} {m : Machine} {r : Exit × Machine} (h : f.runFrom act n prev b m = some r) :
    f.runFrom act k prev b m = some r := by
  induction hle with
  | refl => exact h
  | step _ ih => exact runFrom_succ _ ih

/-- How long an execution may take makes no difference to where it ends. -/
theorem run_unique {f : Func} {act : Activation} {memory : Memory} {n k : Nat}
    {r s : Exit × Machine} (hr : f.run act memory n = some r) (hs : f.run act memory k = some s) :
    r = s := by
  unfold run at hr hs
  simp only [Option.bind_eq_bind, Option.bind_eq_some_iff] at hr hs
  obtain ⟨e, he, hr⟩ := hr
  obtain ⟨e', he', hs⟩ := hs
  rw [he] at he'
  cases he'
  have hr' := runFrom_le (Nat.le_max_left n k) hr
  have hs' := runFrom_le (Nat.le_max_right n k) hs
  rw [hr'] at hs'
  exact Option.some.inj hs'

end Func

end BinaryLift
