import BinaryLift.Proofs.Program.Growth
import BinaryLift.Proofs.Program.Typing
import BinaryLift.Target.Evaluate
import Mathlib.Algebra.Order.Ring.Nat
import Mathlib.Tactic.Common

/-!
# Runs without paths

An execution that forgets control flow: at any time any live instruction whose operands are defined
may be executed again. A phi takes what one of its edges holds, a load takes the read-only bytes of
the image where there are any, and calls, local slots and other memory give any word. What holds in
every state of such a run holds on every path.

A function that is continued keeps its instructions and their operands, so a run of the longer
function, seen only where the shorter one has an instruction, is a run of the shorter one. The same
holds when less is known of the memory.
-/

namespace BinaryLift

/-! ### Runs -/

/-- The results that are defined, with their payloads. -/
abbrev Assignment := InstId → Option Word

/-- What stays fixed during a run: the function, the memory it sees and its arguments. Addresses are
counted from the memory parameter, which is therefore zero. -/
structure FreeRun where
  func : Func
  memory : MemoryView
  args : Nat → Word
  memoryZero : ∀ n, memory.memoryArg = some n → args n = 0

namespace FreeRun

/-- The payload of an operand, if it is defined. -/
def operand (r : FreeRun) (s : Assignment) : Value → Option Word
  | .const c => some c.bits
  | .arg n => some (r.args n)
  | .inst id => s id

/-- What a load may give: the read-only bytes if the image has them, else anything. -/
def Reads (r : FreeRun) (address : Word) (width : Nat) (w : Word) : Prop :=
  ∀ img x, r.memory.image = some img → img.readReadonly address width = some x → w = x

/-- The payloads an instruction may give in a state. -/
def Gives (r : FreeRun) (s : Assignment) (i : Inst) (w : Word) : Prop :=
  let ty := i.ty.getD .i64
  match i.kind with
  | .alloca _ => True
  | .load p => ∃ a, r.operand s p = some a ∧ r.Reads a ty.bytes w
  | .store _ _ => False
  | .binary op x y =>
    ∃ a b, r.operand s x = some a ∧ r.operand s y = some b ∧ op.fold a b ty = some w
  | .icmp p x y =>
    ∃ a b, r.operand s x = some a ∧ r.operand s y = some b ∧
      w = if p.fold a b (r.func.wordTy x) then 1 else 0
  | .cast op x => ∃ a, r.operand s x = some a ∧ w = op.fold a (r.func.wordTy x) ty
  | .ptrAdd x y => ∃ a b, r.operand s x = some a ∧ r.operand s y = some b ∧ w = a + b
  | .select c x y =>
    ∃ k a b, r.operand s c = some k ∧ r.operand s x = some a ∧ r.operand s y = some b ∧
      w = if k ≠ 0 then a else b
  | .phi inc => ∃ e ∈ inc, r.operand s e.2 = some w
  | .call _ args => ∀ v ∈ args, (r.operand s v).isSome

/-- The states of a run. -/
inductive Reachable (r : FreeRun) : Assignment → Prop
  | start : Reachable r fun _ => none
  | step {s : Assignment} {j : InstId} {i : Inst} {w : Word} :
    Reachable r s → r.func.isLive j → r.func.inst? j = some i → r.Gives s i w →
      Reachable r fun id => if id = j then some w else s id

/-- A defined result was given by its instruction in some earlier state. -/
theorem Reachable.given {r : FreeRun} {s : Assignment} (hs : r.Reachable s) {id : InstId} {w : Word}
    (h : s id = some w) :
    ∃ s₀ i, r.Reachable s₀ ∧ r.func.isLive id ∧ r.func.inst? id = some i ∧ r.Gives s₀ i w := by
  induction hs with
  | start => cases h
  | @step s₀ j i v hr hlive hi hw ih =>
    by_cases heq : id = j
    · subst heq
      simp only [if_true, Option.some.injEq] at h
      subst h
      exact ⟨s₀, i, hr, hlive, hi, hw⟩
    · simp only [heq, if_false] at h
      exact ih h

end FreeRun

/-! ### Runs of a longer function -/

namespace Func

/-- The function `g` has the parameters of `f` and starts with its slots. -/
structure ContinuedBy (f g : Func) : Prop where
  params : g.params = f.params
  slots : ∀ k, k < f.arena.size → g.arena[k]? = f.arena[k]?

namespace ContinuedBy

variable {f g h : Func}

theorem refl (f : Func) : f.ContinuedBy f := ⟨rfl, fun _ _ => rfl⟩

theorem of_grows (hfg : f.Grows g) : f.ContinuedBy g :=
  ⟨hfg.params, fun k _ => by rw [hfg.arena]⟩

theorem appendInst (hfg : f.ContinuedBy g) {b : BlockId} {i : Inst} {id : InstId}
    (happ : g.appendInst b i = .ok (h, id)) : f.ContinuedBy h := by
  obtain ⟨_, harena, _, hparams, _⟩ := appendInst_eq_ok happ
  refine ⟨hparams.trans hfg.params, ?_⟩
  intro k hk
  have hkg : k < g.arena.size := by
    by_contra hge
    have hslot := hfg.slots k hk
    rw [Array.getElem?_eq_none (Nat.le_of_not_lt hge), Array.getElem?_eq_getElem hk] at hslot
    cases hslot
  rw [harena, Array.getElem?_push_lt hkg, ← Array.getElem?_eq_getElem hkg, hfg.slots k hk]

theorem setTerm (hfg : f.ContinuedBy g) {b : BlockId} {t : Terminator}
    (hset : g.setTerm b t = .ok h) : f.ContinuedBy h := by
  obtain ⟨_, _, rfl⟩ := modifyBlock_eq_ok.1 hset
  exact ⟨hfg.params, hfg.slots⟩

theorem inst? (hfg : f.ContinuedBy g) {id : InstId} {i : Inst} (hi : f.inst? id = some i) :
    g.inst? id = some i := by
  rw [← hi, Func.inst?, Func.inst?, hfg.slots _ (index_lt_of_inst? hi)]

theorem isLive (hfg : f.ContinuedBy g) {id : InstId} {i : Inst} (hi : f.inst? id = some i) :
    g.isLive id = f.isLive id := by
  rw [Func.isLive, Func.isLive, instBlock, instBlock, hfg.slots _ (index_lt_of_inst? hi)]

theorem typeOf (hfg : f.ContinuedBy g) {v : Value} (hv : (f.typeOf v).isSome) :
    g.typeOf v = f.typeOf v := by
  cases v with
  | const c => rfl
  | arg n => simp only [Func.typeOf, hfg.params]
  | inst id =>
    cases hi : f.inst? id with
    | none =>
      rw [Func.typeOf, hi] at hv
      cases hv
    | some i => rw [typeOf_inst hi, typeOf_inst (hfg.inst? hi)]

theorem wordTy (hfg : f.ContinuedBy g) {v : Value} (hv : (f.typeOf v).isSome) :
    g.wordTy v = f.wordTy v := by
  rw [Func.wordTy, Func.wordTy, hfg.typeOf hv]

end ContinuedBy

theorem exists_inst_of_isLive {f : Func} {id : InstId} (h : f.isLive id) :
    ∃ i, f.inst? id = some i := by
  rw [isLive, instBlock] at h
  cases hs : f.arena[id.index]? with
  | none =>
    rw [hs] at h
    cases h
  | some s => exact ⟨s.inst, by rw [inst?, hs]; rfl⟩

end Func

namespace FreeRun

/-- The run `r` is of a continuation of the function of `r'`, which is well typed; the arguments are
the same, and a load of `r` gives nothing that it could not give in `r'`. -/
structure Continues (r r' : FreeRun) : Prop where
  func : r'.func.ContinuedBy r.func
  typed : r'.func.WellTyped
  args : r.args = r'.args
  reads : ∀ a width w, r.Reads a width w → r'.Reads a width w

/-- What a state says of the instructions of a function. -/
def restrict (f : Func) (s : Assignment) : Assignment :=
  fun id => if f.isLive id then s id else none

variable {r r' : FreeRun} {s : Assignment}

theorem Continues.operand (h : r.Continues r') (hs : r.Reachable s) {v : Value}
    (hv : (r'.func.typeOf v).isSome) :
    r'.operand (restrict r'.func s) v = r.operand s v := by
  cases v with
  | const c => rfl
  | arg n => simp only [FreeRun.operand, h.args]
  | inst id =>
    simp only [FreeRun.operand, restrict]
    split
    · rfl
    · rename_i hdead
      cases hi : r'.func.inst? id with
      | none =>
        rw [Func.typeOf, hi] at hv
        cases hv
      | some i =>
        -- a dead instruction is dead in the longer function too, so it is never executed
        cases hw : s id with
        | none => rfl
        | some w =>
          obtain ⟨_, _, _, hlive, _⟩ := hs.given hw
          rw [h.func.isLive hi] at hlive
          exact absurd hlive hdead

theorem Continues.gives (h : r.Continues r') (hs : r.Reachable s) {i : Inst} {w : Word}
    (htyped : i.kind.Typed r'.func i.ty) (hg : r.Gives s i w) :
    r'.Gives (restrict r'.func s) i w := by
  have hop : ∀ v ∈ i.kind.operands, r'.operand (restrict r'.func s) v = r.operand s v :=
    fun v hv => h.operand hs (htyped.operand hv)
  have hty : ∀ v ∈ i.kind.operands, r.func.wordTy v = r'.func.wordTy v :=
    fun v hv => h.func.wordTy (htyped.operand hv)
  obtain ⟨kind, ty⟩ := i
  cases kind with
  | alloca n => trivial
  | store p v => exact hg
  | load p =>
    obtain ⟨a, ha, hread⟩ := hg
    exact ⟨a, by rw [hop p List.mem_cons_self, ha], h.reads _ _ _ hread⟩
  | binary op x y =>
    simp only [Kind.operands, List.forall_mem_cons] at hop
    simp only [FreeRun.Gives, hop] at hg ⊢
    exact hg
  | icmp p x y =>
    simp only [Kind.operands, List.forall_mem_cons] at hop hty
    simp only [FreeRun.Gives, hop, hty] at hg ⊢
    exact hg
  | cast op x =>
    simp only [Kind.operands, List.forall_mem_cons] at hop hty
    simp only [FreeRun.Gives, hop, hty] at hg ⊢
    exact hg
  | ptrAdd x y =>
    simp only [Kind.operands, List.forall_mem_cons] at hop
    simp only [FreeRun.Gives, hop] at hg ⊢
    exact hg
  | select c x y =>
    simp only [Kind.operands, List.forall_mem_cons] at hop
    simp only [FreeRun.Gives, hop] at hg ⊢
    exact hg
  | phi inc =>
    obtain ⟨e, he, hw⟩ := hg
    exact ⟨e, he, by rw [hop e.2 (List.mem_map_of_mem he), hw]⟩
  | call callee args =>
    intro v hv
    rw [hop v hv]
    exact hg v hv

/-- A run of the longer function is one of the shorter one where that has an instruction. -/
theorem Continues.reachable (h : r.Continues r') (hs : r.Reachable s) :
    r'.Reachable (restrict r'.func s) := by
  induction hs with
  | start =>
    have hnone : restrict r'.func (fun _ => none) = fun _ => none := by
      funext id
      simp [restrict]
    rw [hnone]
    exact .start
  | @step s j i w hs hlive hi hg ih =>
    by_cases hold : r'.func.isLive j = true
    · obtain ⟨k, hk⟩ := Func.exists_inst_of_isLive hold
      obtain rfl : i = k := by
        rw [h.func.inst? hk] at hi
        exact (Option.some.inj hi).symm
      have hstep := ih.step hold hk (h.gives hs (h.typed.kind hold hk) hg)
      have hsame : (fun id => if id = j then some w else restrict r'.func s id) =
          restrict r'.func fun id => if id = j then some w else s id := by
        funext id
        simp only [restrict]
        split
        · rename_i hid
          rw [hid, if_pos hold]
        · rfl
      rwa [hsame] at hstep
    · have hsame : restrict r'.func (fun id => if id = j then some w else s id) =
          restrict r'.func s := by
        funext id
        simp only [restrict]
        split
        · rename_i hid
          rw [if_neg (fun heq : id = j => hold (heq ▸ hid))]
        · rfl
      rwa [hsame]

end FreeRun

end BinaryLift
