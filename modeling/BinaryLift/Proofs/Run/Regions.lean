import BinaryLift.Proofs.Run.Visits

/-!
# Reserved regions

A part of memory that only one parameter of a function leads to. It is zero on entry. Unless the
function stores a pointer computed from the parameter or hands it to a call, whatever accesses the
region goes through such a pointer, and calls neither see nor change it. What is accessed at a constant
offset from the parameter belongs to it.
-/

namespace BinaryLift

namespace Memory

variable {m m' : Memory} {a a' x : Word} {ty : Ty} {w : Word}

/-- The bytes decide what is read. -/
theorem read_congr (h : ∀ i < ty.bytes, m' (a' + BitVec.ofNat 64 i) = m (a + BitVec.ofNat 64 i)) :
    m'.read a' ty = m.read a ty := by
  have hmap : ((List.range ty.bytes).map fun i => m' (a' + BitVec.ofNat 64 i)) =
      (List.range ty.bytes).map fun i => m (a + BitVec.ofNat 64 i) :=
    List.map_congr_left fun i hi => h i (List.mem_range.1 hi)
  rw [read, read, hmap]

theorem write_of_ne (h : ∀ i < ty.bytes, x ≠ a + BitVec.ofNat 64 i) : m.write a ty w x = m x := by
  refine if_neg fun hlt => h _ hlt ?_
  rw [BitVec.ofNat_toNat, BitVec.setWidth_eq, BitVec.add_comm, BitVec.sub_add_cancel]

theorem write_congr (h : m' x = m x) : m'.write a ty w x = m.write a ty w x := by
  unfold write
  split
  · rfl
  · exact h

end Memory

/-- A call that knows nothing of the region: what is in there makes no difference to the answer and to
the memory outside, and it stays there. -/
def Activation.Avoids (act : Activation) (region : Word → Prop) (calls : List Call) (c : Call)
    (memory : Memory) : Prop :=
  (∀ other : Memory, (∀ a, ¬ region a → other a = memory a) →
    (act.answer calls c other).1 = (act.answer calls c memory).1 ∧
    ∀ a, ¬ region a → (act.answer calls c other).2 a = (act.answer calls c memory).2 a) ∧
  ∀ a, region a → (act.answer calls c memory).2 a = memory a

/-- The place is outside the region, for that many bytes, and none of the slots. -/
def Place.Clear (region : Word → Prop) (ids : List InstId) (n : Nat) : Place → Prop
  | .slot s => s ∉ ids
  | .guest a => ∀ i < n, ¬ region (a + BitVec.ofNat 64 i)

namespace Func

/-- The pointer through which a load or a store goes, and the type at which. -/
def access? (f : Func) (id : InstId) : Option (Value × Ty) :=
  match f.inst? id with
  | some ⟨.load p, _⟩ => some (p, f.wordTy (.inst id))
  | some ⟨.store p v, _⟩ => some (p, f.wordTy v)
  | _ => none

theorem operand_of_access? {f : Func} {id : InstId} {v : Value} {ty : Ty}
    (h : f.access? id = some (v, ty)) :
    ∃ i, f.inst? id = some i ∧ i.kind.isPhi = false ∧ v ∈ i.kind.operands := by
  unfold access? at h
  split at h
  · rename_i p o hi
    cases h
    exact ⟨_, hi, rfl, List.mem_cons_self⟩
  · rename_i p w o hi
    cases h
    exact ⟨_, hi, rfl, List.mem_cons_self⟩
  · cases h

theorem inst?_ne_call {f : Func} (h : ∀ s ∈ f.arena.toList, s.inst.kind.callee? = none) {id : InstId}
    {callee : FuncId} {args : List Value} {o : Option Ty} : f.inst? id ≠ some ⟨.call callee args, o⟩ := by
  intro hi
  obtain ⟨s, hs, heq⟩ := Option.map_eq_some_iff.1 hi
  have hnone := h s (Array.mem_toList_iff.2 (Array.mem_of_getElem? hs))
  rw [heq] at hnone
  cases hnone

/-- The value is computed from `p`, other than by loads and stores. -/
inductive ComesFrom (f : Func) (p : Value) : Value → Prop
  | self : ComesFrom f p p
  | step {b : BlockId} {id : InstId} {i : Inst} {v : Value} (hid : id ∈ f.instsOf b)
      (hi : f.inst? id = some i) (haccess : f.access? id = none) (hv : v ∈ i.kind.operands)
      (h : ComesFrom f p v) : ComesFrom f p (.inst id)

/-- A value computed from `p` is stored or handed to a call, so that others may come to know it. -/
def Exposes (f : Func) (p : Value) : Prop :=
  ∃ b id i v, id ∈ f.instsOf b ∧ f.inst? id = some i ∧ f.ComesFrom p v ∧
    ((∃ q, i.kind = .store q v) ∨ ∃ callee args, i.kind = .call callee args ∧ v ∈ args)

/-- Somewhere in the execution an access at type `ty` through the pointer `v` goes to the address `a`
in guest memory. -/
def Touches (f : Func) (act : Activation) (memory : Memory) (v : Value) (ty : Ty) (a : Word) : Prop :=
  ∃ b pre id post m, f.Visits act memory b pre m ∧ f.instsOf b = pre ++ id :: post ∧
    f.access? id = some (v, ty) ∧ m.eval act f v = some a ∧ act.place v a = .guest a

/-- An access through the result of a pure instruction goes where its operands always lead. -/
theorem Touches.address {f : Func} {act : Activation} {memory : Memory} {j : InstId} {i : Inst} {ty : Ty}
    {a w : Word} (h : f.Touches act memory (.inst j) ty a) (hwf : f.WellFormed) (hl : act.Leaves f)
    (hi : f.inst? j = some i) (hpure : i.kind.isPure = true)
    (hw : ∀ m : Machine, m.compute act f j = some w) : a = w := by
  obtain ⟨b, pre, id, post, m, hvisit, hsplit, haccess, hvalue, _⟩ := h
  obtain ⟨k, hk, hphi, hop⟩ := operand_of_access? haccess
  have hav := hwf.use (hvisit.reachable hwf hl) hsplit hk hphi hop
  obtain ⟨u, hu, hcompute⟩ := hvisit.settled hwf hl hi hpure hav
  rw [hw m] at hcompute
  exact (Option.some.inj (hu.symm.trans hvalue)).symm.trans (Option.some.inj hcompute).symm

/-- In the execution from `memory` only the value `p` leads to the region, unless the function gives it
away. -/
structure Reserves (act : Activation) (f : Func) (memory : Memory) (p : Value)
    (region : Word → Prop) : Prop where
  zero : ∀ a, region a → memory a = 0
  reached : ∀ v ty a i, f.Touches act memory v ty a → i < ty.bytes →
    region (a + BitVec.ofNat 64 i) → f.ComesFrom p v ∨ f.Exposes p
  within : ∀ j c o ty a i, f.Touches act memory (.inst j) ty a →
    f.inst? j = some ⟨.ptrAdd p (.const c), o⟩ → i < ty.bytes → region (a + BitVec.ofNat 64 i)
  calls : ∀ b pre id post m callee args o ws, f.Visits act memory b pre m →
    f.instsOf b = pre ++ id :: post → f.inst? id = some ⟨.call callee args, o⟩ →
    args.mapM (m.eval act f) = some ws → f.Exposes p ∨ act.Avoids region m.calls ⟨callee, ws⟩ m.memory

end Func

end BinaryLift
