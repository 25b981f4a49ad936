import BinaryLift.Graph.Dominators
import BinaryLift.Program.Func.Editing
import BinaryLift.Program.Iteration

/-!
# Value numbering

The passes `early-cse` and `gvn`. Blocks are scanned in reverse postorder. An instruction that computes
what a dominating one has computed is replaced by it. What counts as the same is set by a
`NumberingPolicy`: whether the order of commutative operands matters, whether phis of one block are
compared, and how far the contents of memory are remembered. A store or a call makes everything remembered
of memory stale.
-/

namespace BinaryLift

/-- How far loads are remembered. -/
inductive LoadScope where
  | nowhere
  /-- To the end of the block. -/
  | block
  /-- Also into a block whose only predecessor is its immediate dominator. -/
  | chain
deriving DecidableEq, Repr

/-- What a numbering compares. -/
structure NumberingPolicy where
  commute : Bool
  mergePhis : Bool
  loads : LoadScope

/-- Plain comparison; with `memoryAware`, loads are reused within a block. -/
def NumberingPolicy.early (memoryAware : Bool) : NumberingPolicy :=
  { commute := false, mergePhis := false, loads := if memoryAware then .block else .nowhere }

/-- Everything that can be compared. -/
def NumberingPolicy.global : NumberingPolicy :=
  { commute := true, mergePhis := true, loads := .chain }

/-- Order of operands: parameters, then results, then constants. -/
def Value.rank : Value → Nat × Nat
  | .arg n => (0, n)
  | .inst id => (1, id.index)
  | .const c => (2, c.bits.toNat)

def Value.rankLt (a b : Value) : Bool :=
  a.rank.1 < b.rank.1 || (a.rank.1 == b.rank.1 && a.rank.2 < b.rank.2)

/-- Put commutative operands in order. -/
def Kind.sorted : Kind → Kind
  | .binary op lhs rhs =>
    if op.isCommutative && rhs.rankLt lhs then .binary op rhs lhs else .binary op lhs rhs
  | k => k

/-- Memory contents known to be at an address, by type. -/
abbrev Available := Table (Value × Ty) Value

/-- State of a scan: leaders of each computation, replacements, and the memory contents known at the
end of each block. -/
structure Numbering where
  leaders : Table (Kind × Option Ty) (List (BlockId × InstId)) := []
  replaced : Replacements := []
  availableOut : Table BlockId Available := []

/-- State of a scan within a block. -/
structure BlockNumbering extends Numbering where
  available : Available
  phis : Table (List (BlockId × Value)) InstId := []

namespace BlockNumbering

def replace (s : BlockNumbering) (id : InstId) (v : Value) : BlockNumbering :=
  { s with replaced := s.replaced.insert id v }

/-- Number a pure computation. -/
def pure (dom : DomTree) (b : BlockId) (s : BlockNumbering) (id : InstId)
    (key : Kind × Option Ty) : BlockNumbering :=
  let group := (s.leaders.get? key).getD []
  match group.find? fun e => dom.dominates e.1 b with
  | some (_, leader) => s.replace id (.inst leader)
  | none => { s with leaders := s.leaders.insert key (group ++ [(b, id)]) }

/-- Number a phi by what arrives on its edges, in order of block age. -/
def phi (f : Func) (s : BlockNumbering) (id : InstId) (ty : Option Ty)
    (incoming : List (BlockId × Value)) : Checked BlockNumbering := do
  let key := incoming.mergeSort fun x y => x.1.le y.1
  match s.phis.get? key with
  | some leader =>
    if (← f.inst leader).ty = ty then return s.replace id (.inst leader)
    else return { s with phis := s.phis.insert key id }
  | none => return { s with phis := s.phis.insert key id }

/-- Replace a load by what is known to be there, or remember it. -/
def load (s : BlockNumbering) (id : InstId) (ptr : Value) (ty : Option Ty) : BlockNumbering :=
  match ty with
  | none => s
  | some ty =>
    match s.available.get? (ptr, ty) with
    | some v => s.replace id v
    | none => { s with available := s.available.insert (ptr, ty) (.inst id) }

/-- Only what was stored is known after a store. -/
def store (f : Func) (s : BlockNumbering) (ptr value : Value) : Checked BlockNumbering := do
  match (← f.valueTy value) with
  | some ty => return { s with available := [((ptr, ty), value)] }
  | none => return { s with available := [] }

/-- Number one instruction. -/
def inst (p : NumberingPolicy) (dom : DomTree) (f : Func) (b : BlockId) (s : BlockNumbering)
    (id : InstId) : Checked BlockNumbering := do
  let i ← f.inst id
  let kind ← i.kind.traverse s.replaced.resolve
  match kind with
  | .phi incoming => if p.mergePhis then s.phi f id i.ty incoming else return s
  | .load ptr => return if p.loads = .nowhere then s else s.load id ptr i.ty
  | .store ptr value => if p.loads = .nowhere then return s else s.store f ptr value
  | .call .. => return { s with available := [] }
  | .alloca _ => return s
  | _ => return s.pure dom b id (if p.commute then kind.sorted else kind, i.ty)

end BlockNumbering

namespace Numbering

/-- The memory contents known at the start of a block. -/
def availableIn (p : NumberingPolicy) (dom : DomTree) (s : Numbering) (b : BlockId) : Available :=
  if p.loads ≠ .chain then []
  else match dom.preds b, dom.idom b with
    | [pred], some idom => if pred = idom then (s.availableOut.get? idom).getD [] else []
    | _, _ => []

/-- Number the instructions of one block. -/
def block (p : NumberingPolicy) (dom : DomTree) (f : Func) (s : Numbering) (b : BlockId) :
    Checked Numbering := do
  let data ← f.block b
  let start : BlockNumbering := { s with available := s.availableIn p dom b }
  let done ← data.insts.foldlM (BlockNumbering.inst p dom f b) start
  return { done.toNumbering with availableOut := done.availableOut.insert b done.available }

end Numbering

/-- Replace what has been computed before. -/
def Func.number (p : NumberingPolicy) (f : Func) : Transformed := do
  let dom ← DomTree.compute f
  let done ← dom.rpo.foldlM (Numbering.block p dom f) {}
  f.substitute done.replaced

end BinaryLift
