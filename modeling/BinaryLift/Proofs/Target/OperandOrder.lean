import BinaryLift.Proofs.Scalar.Laws
import BinaryLift.Proofs.Target.Recomputation

/-!
# Order of operands

Two functions that differ in the order of the operands of commutative operations and of the entries of
phis have the same definitions to follow. Evaluated anew wherever it is met, a definition has the same
set in both. Stored results do not change this as long as the definitions are reducible. On a cycle
that is entered at two definitions they do: what is stored was found while a definition above it counted
as empty, and which one that was depends on where the evaluation came in.
-/

namespace BinaryLift

/-- The same up to the order in which operands are written that have the same part in the result. -/
inductive Kind.Reordered : Kind → Kind → Prop
  | same (k : Kind) : Kind.Reordered k k
  | swapped {op : BinOp} {x y : Value} (hop : op.isCommutative = true) :
    Kind.Reordered (.binary op x y) (.binary op y x)
  | permuted {inc inc' : List (BlockId × Value)} (hperm : inc.Perm inc') :
    Kind.Reordered (.phi inc) (.phi inc')

/-- In the same block with the same result type, and the same up to order. -/
structure Slot.Reordered (s s' : Slot) : Prop where
  block : s'.block = s.block
  ty : s'.inst.ty = s.inst.ty
  kind : s.inst.kind.Reordered s'.inst.kind

/-- Slot by slot the same up to the order of operands. -/
structure Func.Reordered (f g : Func) : Prop where
  params : g.params = f.params
  slots : List.Forall₂ Slot.Reordered f.arena.toList g.arena.toList

theorem Kind.Reordered.symm {k k' : Kind} (h : k.Reordered k') : k'.Reordered k := by
  cases h with
  | same => exact .same _
  | swapped hop => exact .swapped hop
  | permuted hperm => exact .permuted hperm.symm

theorem Kind.Reordered.mem_operands {k k' : Kind} (h : k.Reordered k') {v : Value} :
    v ∈ k'.operands ↔ v ∈ k.operands := by
  cases h with
  | same => exact Iff.rfl
  | swapped hop => exact (List.Perm.swap _ _ []).mem_iff
  | permuted hperm => exact (hperm.map _).mem_iff.symm

theorem Slot.Reordered.symm {s s' : Slot} (h : s.Reordered s') : s'.Reordered s :=
  ⟨h.block.symm, h.ty.symm, h.kind.symm⟩

namespace Func.Reordered

variable {f g : Func} {i : Inst} {id j root : InstId} {p : List InstId} {n : Nat} {v w : Value}

theorem symm (h : f.Reordered g) : g.Reordered f :=
  ⟨h.params.symm, (h.slots.imp fun _ _ hs => hs.symm).flip⟩

theorem size (h : f.Reordered g) : g.arena.size = f.arena.size := h.slots.length_eq.symm

theorem exists_slot (h : f.Reordered g) {s : Slot} (hs : f.arena[n]? = some s) :
    ∃ s', g.arena[n]? = some s' ∧ s.Reordered s' := by
  obtain ⟨hlt, rfl⟩ := Array.getElem?_eq_some_iff.1 hs
  have hlt' : n < g.arena.size := by rwa [h.size]
  exact ⟨_, Array.getElem?_eq_getElem hlt', h.slots.get hlt hlt'⟩

theorem exists_inst? (h : f.Reordered g) (hi : f.inst? id = some i) :
    ∃ i', g.inst? id = some i' ∧ i'.ty = i.ty ∧ i.kind.Reordered i'.kind := by
  obtain ⟨s, hs, rfl⟩ := Option.map_eq_some_iff.1 hi
  obtain ⟨s', hs', hrel⟩ := h.exists_slot hs
  exact ⟨s'.inst, Option.map_eq_some_iff.2 ⟨s', hs', rfl⟩, hrel.ty, hrel.kind⟩

/-- At each position the functions agree, or they have operands there that may be written in another
order. -/
theorem inst?_cases (h : f.Reordered g) (id : InstId) :
    g.inst? id = f.inst? id ∨
    (∃ op x y ty, f.inst? id = some ⟨.binary op x y, ty⟩ ∧ g.inst? id = some ⟨.binary op y x, ty⟩) ∨
    ∃ inc inc' ty, f.inst? id = some ⟨.phi inc, ty⟩ ∧ g.inst? id = some ⟨.phi inc', ty⟩ := by
  cases hi : f.inst? id with
  | none =>
    left
    cases hg : g.inst? id with
    | none => rfl
    | some i' =>
      obtain ⟨i, hsome, _⟩ := h.symm.exists_inst? hg
      rw [hi] at hsome
      cases hsome
  | some i =>
    obtain ⟨⟨kind', ty'⟩, hi', hty, hkind⟩ := h.exists_inst? hi
    obtain ⟨kind, ty⟩ := i
    cases hty
    cases hkind with
    | same => exact .inl hi'
    | swapped hop => exact .inr (.inl ⟨_, _, _, _, rfl, hi'⟩)
    | permuted hperm => exact .inr (.inr ⟨_, _, _, rfl, hi'⟩)

/-- An instruction whose operands have one order only is the same in both. -/
theorem inst?_of_fixed (h : f.Reordered g) {kind : Kind} {ty : Option Ty}
    (hi : f.inst? id = some ⟨kind, ty⟩) (hfixed : ∀ k, kind.Reordered k → k = kind) :
    g.inst? id = some ⟨kind, ty⟩ := by
  obtain ⟨⟨kind', ty'⟩, hi', hty, hkind⟩ := h.exists_inst? hi
  cases hty
  cases hfixed kind' hkind
  exact hi'

theorem isLive (h : f.Reordered g) (id : InstId) : g.isLive id = f.isLive id := by
  simp only [Func.isLive, instBlock]
  cases hs : f.arena[id.index]? with
  | none => rw [Array.getElem?_eq_none (h.size ▸ Array.getElem?_eq_none_iff.1 hs)]
  | some s =>
    obtain ⟨s', hs', hrel⟩ := h.exists_slot hs
    rw [hs', Option.bind_some, Option.bind_some, hrel.block]

theorem typeOf (h : f.Reordered g) (v : Value) : g.typeOf v = f.typeOf v := by
  cases v with
  | const c => rfl
  | arg n => simp only [Func.typeOf, h.params]
  | inst id =>
    rcases h.inst?_cases id with heq | ⟨op, x, y, ty, hf, hg⟩ | ⟨inc, inc', ty, hf, hg⟩
    · simp only [Func.typeOf, heq]
    · rw [Func.typeOf_inst hf, Func.typeOf_inst hg]
    · rw [Func.typeOf_inst hf, Func.typeOf_inst hg]

theorem wordTy (h : f.Reordered g) (v : Value) : g.wordTy v = f.wordTy v := by
  rw [Func.wordTy, Func.wordTy, h.typeOf]

/-! ### The same definitions are followed -/

theorem addressPart (h : f.Reordered g) (hpart : f.AddressPart v w) : g.AddressPart v w := by
  have hcast : ∀ {op v k}, (Kind.cast op v).Reordered k → k = .cast op v := fun hk => by cases hk; rfl
  have hptr : ∀ {b o k}, (Kind.ptrAdd b o).Reordered k → k = .ptrAdd b o := fun hk => by cases hk; rfl
  induction hpart with
  | converted hlive hi => exact .converted (by rwa [h.isLive]) (h.inst?_of_fixed hi fun _ => hcast)
  | offset hlive hi => exact .offset (by rwa [h.isLive]) (h.inst?_of_fixed hi fun _ => hptr)
  | base hlive hi _ ih => exact .base (by rwa [h.isLive]) (h.inst?_of_fixed hi fun _ => hptr) ih

theorem consults (h : f.Reordered g) {k k' : Kind} (hk : k.Reordered k') (hv : f.Consults k v) :
    g.Consults k' v := by
  cases hk with
  | swapped hop => exact (Kind.Reordered.swapped hop).mem_operands.2 hv
  | permuted hperm => exact (Kind.Reordered.permuted hperm).mem_operands.2 hv
  | same =>
    cases k with
    | load p => exact h.addressPart hv
    | _ => exact hv

theorem follows (h : f.Reordered g) (hfollows : f.Follows id j) : g.Follows id j := by
  obtain ⟨hlive, i, hi, hv⟩ := hfollows
  obtain ⟨i', hi', _, hkind⟩ := h.exists_inst? hi
  exact ⟨by rwa [h.isLive], i', hi', h.consults hkind hv⟩

theorem defChain (h : f.Reordered g) (hp : f.DefChain root p id) : g.DefChain root p id := by
  induction hp with
  | root => exact .root
  | step _ hfollows ih => exact ih.step (h.follows hfollows)

theorem reducible (h : f.Reordered g) (hred : f.Reducible root) : g.Reducible root := by
  obtain ⟨rank, hrank⟩ := hred
  refine ⟨rank, fun p i j hp hfollows => ?_⟩
  rcases hrank p i j (h.symm.defChain hp) (h.symm.follows hfollows) with hheads | hlt
  · exact .inl fun p' hp' => hheads p' (h.symm.defChain hp')
  · exact .inr hlt

theorem chainsWithin (h : f.Reordered g) (hn : f.ChainsWithin root n) : g.ChainsWithin root n :=
  fun p i j hp hnodup hfollows =>
    hn p i j (h.symm.defChain hp) hnodup (h.symm.follows hfollows)

theorem pointerBase? (h : f.Reordered g) : g.pointerBase? = f.pointerBase? := by
  funext v
  cases v with
  | const c => rfl
  | arg n => rfl
  | inst id =>
    rcases h.inst?_cases id with heq | ⟨op, x, y, ty, hf, hg⟩ | ⟨inc, inc', ty, hf, hg⟩
    · simp only [Func.pointerBase?, h.isLive, heq]
    · simp only [Func.pointerBase?, h.isLive, hf, hg]
      cases f.isLive id <;> rfl
    · simp only [Func.pointerBase?, h.isLive, hf, hg]
      cases f.isLive id <;> rfl

theorem basesEnd (h : f.Reordered g) (hbases : f.BasesEnd) : g.BasesEnd := by
  intro p
  rw [h.pointerBase?]
  exact hbases p

theorem operandsMade (h : f.Reordered g) (hmade : f.OperandsMade) : g.OperandsMade := by
  intro id i' hlive hi' j hj
  obtain ⟨i, hi, _, hkind⟩ := h.symm.exists_inst? hi'
  rw [h.size]
  exact hmade id i (by rwa [← h.isLive]) hi j (hkind.mem_operands.2 hj)

end Func.Reordered

namespace EvalQuery

variable {f g : Func} {mem : MemoryView} {mode : EvalMode} {r : Value → ValueSet} {i i' : Inst}
  {v : Value}

/-! ### Evaluation anew -/

theorem addressSet_reordered (h : f.Reordered g) (n : Nat) (p : Value) :
    addressSet ⟨g, mem, mode⟩ r n p = addressSet ⟨f, mem, mode⟩ r n p := by
  induction n generalizing p with
  | zero => cases p <;> rfl
  | succ n ih =>
    cases p with
    | const c => rfl
    | arg a => rfl
    | inst id =>
      rcases h.inst?_cases id with heq | ⟨op, x, y, ty, hf, hg⟩ | ⟨inc, inc', ty, hf, hg⟩
      · simp only [addressSet, h.isLive, heq, ih]
        rfl
      · simp only [addressSet, h.isLive, hf, hg]
        cases f.isLive id <;> rfl
      · simp only [addressSet, h.isLive, hf, hg]
        cases f.isLive id <;> rfl

/-- The set of an instruction from the same sets of operands. -/
theorem setOf_reordered (h : f.Reordered g) (hty : i'.ty = i.ty)
    (hkind : i.kind.Reordered i'.kind) (hr : ∀ v, (r v).IsNormal) :
    setOf ⟨g, mem, mode⟩ r i' = setOf ⟨f, mem, mode⟩ r i := by
  obtain ⟨kind, ty⟩ := i
  obtain ⟨kind', ty'⟩ := i'
  cases hty
  cases hkind with
  | swapped hop =>
    simp only [setOf]
    rw [ValueSet.product_swap (hr _) (hr _)]
    simp only [BinOp.fold_comm hop]
  | permuted hperm =>
    refine (ValueSet.foldl_merge_perm (hperm.map _) (fun s hs => ?_) ValueSet.isNormal_empty).symm
    obtain ⟨e, _, rfl⟩ := List.mem_map.1 hs
    exact hr e.2
  | same =>
    cases kind with
    | icmp p x y => simp only [setOf, h.wordTy]
    | cast op x => simp only [setOf, h.wordTy]
    | load p =>
      simp only [setOf, addressSet_reordered h, h.size]
      rfl
    | _ => rfl

/-- Without stored results order makes no difference, on whatever cycles. -/
theorem recompute_reordered (h : f.Reordered g) (n : Nat) (path : List InstId) (v : Value) :
    recompute ⟨g, mem, mode⟩ n path v = recompute ⟨f, mem, mode⟩ n path v := by
  induction n generalizing path v with
  | zero => cases v <;> rfl
  | succ n ih =>
    cases v with
    | const c => rfl
    | arg a => rfl
    | inst id =>
      cases hlive : f.isLive id with
      | false => rw [recompute_of_dead ((h.isLive id).trans hlive), recompute_of_dead hlive]
      | true =>
        have hlive' : g.isLive id = true := (h.isLive id).trans hlive
        by_cases hmem : id ∈ path
        · rw [recompute_of_mem hlive' (Nat.succ_pos n) hmem,
            recompute_of_mem hlive (Nat.succ_pos n) hmem]
          rfl
        · obtain ⟨i, hi⟩ := Func.exists_inst?_of_lt (Func.index_lt_of_isLive hlive)
          obtain ⟨i', hi', hty, hkind⟩ := h.exists_inst? hi
          have hsame : recompute ⟨g, mem, mode⟩ n (id :: path) =
              recompute ⟨f, mem, mode⟩ n (id :: path) := funext (ih (id :: path))
          rw [recompute_of_live hlive' hi' hmem, recompute_of_live hlive hi hmem, hsame]
          exact setOf_reordered h hty hkind (isNormal_recompute n (id :: path))

/-! ### Evaluation with stored results -/

/-- In either mode both evaluations come to the same set. -/
theorem run_reordered (mem : MemoryView) (mode : EvalMode) (h : f.Reordered g)
    (hmade : f.OperandsMade) (hbases : f.BasesEnd)
    (hroot : ∀ root, v = .inst root → f.Reducible root ∧ f.ChainsWithin root maxDepth) :
    ∃ s, run ⟨f, mem, mode⟩ v = .ok s ∧ run ⟨g, mem, mode⟩ v = .ok s := by
  refine ⟨recompute ⟨f, mem, mode⟩ (maxDepth + 1) [] v, run_eq hmade hbases hroot, ?_⟩
  rw [← recompute_reordered h]
  refine run_eq (h.operandsMade hmade) (h.basesEnd hbases) fun root hv => ?_
  obtain ⟨hred, hdepth⟩ := hroot root hv
  exact ⟨h.reducible hred, h.chainsWithin hdepth⟩

end EvalQuery

/-- The candidates for an operand whose definitions are reducible do not depend on the order in which
the operands of commutative operations and the entries of phis are written. -/
theorem enumerate_reordered {f g : Func} (h : f.Reordered g) (hmade : f.OperandsMade)
    (hbases : f.BasesEnd) (v : Value)
    (hroot : ∀ root, v = .inst root → f.Reducible root ∧ f.ChainsWithin root EvalQuery.maxDepth)
    (mem : MemoryView) : ∃ s, enumerate mem f v = .ok s ∧ enumerate mem g v = .ok s := by
  obtain ⟨s, hf, hg⟩ := EvalQuery.run_reordered mem .speculative h hmade hbases hroot
  refine ⟨.ofList (s.values?.getD []), ?_, ?_⟩
  · rw [enumerate, hf]
    rfl
  · rw [enumerate, hg]
    rfl

/-! ### A counter -/

/-- A counter that goes up by words and is an index into a table. -/
def tableWalk (incoming : List (BlockId × Value)) (base index : Value) : Func where
  name := "walk"
  params := [⟨"more", .i1⟩]
  arena := #[
    ⟨⟨.phi incoming, some .i64⟩, some ⟨1⟩⟩,
    ⟨⟨.binary .add (.inst ⟨0⟩) (.int 8 .i64), some .i64⟩, some ⟨1⟩⟩,
    ⟨⟨.binary .add base index, some .i64⟩, some ⟨1⟩⟩,
    ⟨⟨.cast .inttoptr (.inst ⟨2⟩), some .ptr⟩, some ⟨1⟩⟩,
    ⟨⟨.load (.inst ⟨3⟩), some .i64⟩, some ⟨1⟩⟩]
  blocks := #[
    some { term := .jump ⟨1⟩ },
    some { insts := [⟨0⟩, ⟨1⟩, ⟨2⟩, ⟨3⟩, ⟨4⟩], term := .branch (.arg 0) ⟨1⟩ ⟨2⟩ },
    some { term := .indirect (.inst ⟨4⟩) }]
  entry := some ⟨0⟩

/-- The table starts at `0x1000`. -/
def walkedTable : MemoryView :=
  .readonlyImage
    { sections := [{
        name := ".rdata"
        address := 0x1000
        size := 16
        flags := .readable
        data := #[0x40, 0x20, 0, 0, 0, 0, 0, 0, 0x80, 0x20] }] } none

/-- The counter starts at the first word. -/
def forwardWalk : Func :=
  tableWalk [(⟨0⟩, .int 0 .i64), (⟨1⟩, .inst ⟨1⟩)] (.int 0x1000 .i64) (.inst ⟨0⟩)

/-- The same with the entries of the phi and the operands of the sum the other way round. -/
def reversedWalk : Func :=
  tableWalk [(⟨1⟩, .inst ⟨1⟩), (⟨0⟩, .int 0 .i64)] (.inst ⟨0⟩) (.int 0x1000 .i64)

theorem forwardWalk_reordered : forwardWalk.Reordered reversedWalk :=
  ⟨rfl, .cons ⟨rfl, rfl, .permuted (.swap _ _ _)⟩ (.cons ⟨rfl, rfl, .same _⟩
    (.cons ⟨rfl, rfl, .swapped rfl⟩ (.cons ⟨rfl, rfl, .same _⟩ (.cons ⟨rfl, rfl, .same _⟩ .nil))))⟩

theorem forwardWalk_inst? {id : InstId} {i : Inst} (h : forwardWalk.inst? id = some i) :
    (id = ⟨0⟩ ∧ i = ⟨.phi [(⟨0⟩, .int 0 .i64), (⟨1⟩, .inst ⟨1⟩)], some .i64⟩) ∨
    (id = ⟨1⟩ ∧ i = ⟨.binary .add (.inst ⟨0⟩) (.int 8 .i64), some .i64⟩) ∨
    (id = ⟨2⟩ ∧ i = ⟨.binary .add (.int 0x1000 .i64) (.inst ⟨0⟩), some .i64⟩) ∨
    (id = ⟨3⟩ ∧ i = ⟨.cast .inttoptr (.inst ⟨2⟩), some .ptr⟩) ∨
    (id = ⟨4⟩ ∧ i = ⟨.load (.inst ⟨3⟩), some .i64⟩) := by
  obtain ⟨n⟩ := id
  have hn : n < 5 := Func.index_lt_of_inst? h
  interval_cases n
  · exact .inl ⟨rfl, (Option.some.inj h).symm⟩
  · exact .inr (.inl ⟨rfl, (Option.some.inj h).symm⟩)
  · exact .inr (.inr (.inl ⟨rfl, (Option.some.inj h).symm⟩))
  · exact .inr (.inr (.inr (.inl ⟨rfl, (Option.some.inj h).symm⟩)))
  · exact .inr (.inr (.inr (.inr ⟨rfl, (Option.some.inj h).symm⟩)))

theorem forwardWalk_operandsMade : forwardWalk.OperandsMade := by
  intro id i _ hi j hj
  rcases forwardWalk_inst? hi with ⟨_, rfl⟩ | ⟨_, rfl⟩ | ⟨_, rfl⟩ | ⟨_, rfl⟩ | ⟨_, rfl⟩ <;>
    simp [Kind.operands, Value.int] at hj <;> subst hj <;> decide

theorem forwardWalk_basesEnd : forwardWalk.BasesEnd := by
  intro p
  refine ⟨0, .stop ?_⟩
  unfold Func.pointerBase?
  split
  · split
    · rename_i hi
      rcases forwardWalk_inst? hi with ⟨_, h⟩ | ⟨_, h⟩ | ⟨_, h⟩ | ⟨_, h⟩ | ⟨_, h⟩ <;> cases h
    · rfl
  · rfl

/-- The counter and its next value are made from each other, the sum from the counter, and what is read
from the sum. -/
theorem forwardWalk_follows {i j : InstId} (h : forwardWalk.Follows i j) :
    (i = ⟨0⟩ ∧ j = ⟨1⟩) ∨ (i = ⟨1⟩ ∧ j = ⟨0⟩) ∨ (i = ⟨2⟩ ∧ j = ⟨0⟩) ∨ (i = ⟨3⟩ ∧ j = ⟨2⟩) ∨
      (i = ⟨4⟩ ∧ j = ⟨2⟩) := by
  obtain ⟨_, inst, hi, hv⟩ := h
  rcases forwardWalk_inst? hi with ⟨rfl, rfl⟩ | ⟨rfl, rfl⟩ | ⟨rfl, rfl⟩ | ⟨rfl, rfl⟩ | ⟨rfl, rfl⟩
  · have hj : j = ⟨1⟩ := by simpa [Func.Consults, Kind.operands, Value.int] using hv
    simp [hj]
  · have hj : j = ⟨0⟩ := by simpa [Func.Consults, Kind.operands, Value.int] using hv
    simp [hj]
  · have hj : j = ⟨0⟩ := by simpa [Func.Consults, Kind.operands, Value.int] using hv
    simp [hj]
  · have hj : j = ⟨2⟩ := by simpa [Func.Consults, Kind.operands] using hv
    simp [hj]
  · cases hv with
    | converted _ hi =>
      cases hi
      simp
    | offset _ hi => cases hi
    | base _ hi _ => cases hi

/-- All chains come to the next value through the counter. -/
theorem forwardWalk_reducible : forwardWalk.Reducible ⟨4⟩ := by
  refine ⟨fun k => [1, 0, 2, 3, 3].getD k.index 0, fun p i j _ hfollows => ?_⟩
  rcases forwardWalk_follows hfollows with
    ⟨rfl, rfl⟩ | ⟨rfl, rfl⟩ | ⟨rfl, rfl⟩ | ⟨rfl, rfl⟩ | ⟨rfl, rfl⟩
  · exact .inr (by decide)
  · refine .inl fun p hp => ?_
    cases hp with
    | step hbefore hlast =>
      rcases forwardWalk_follows hlast with ⟨rfl, _⟩ | ⟨_, h⟩ | ⟨_, h⟩ | ⟨_, h⟩ | ⟨_, h⟩
      · exact List.mem_cons_of_mem _ hbefore.last_mem
      all_goals cases h
  · exact .inr (by decide)
  · exact .inr (by decide)
  · exact .inr (by decide)

/-- In either order the first word of the table is found, and no further one: the counter counts as
empty while its next value is evaluated. -/
theorem forwardWalk_enumerated :
    (forwardWalk.Reordered reversedWalk ∧ forwardWalk.OperandsMade ∧ forwardWalk.BasesEnd ∧
      forwardWalk.Reducible ⟨4⟩ ∧ forwardWalk.ChainsWithin ⟨4⟩ EvalQuery.maxDepth) ∧
    ∃ s, enumerate walkedTable forwardWalk (.inst ⟨4⟩) = .ok s ∧
      enumerate walkedTable reversedWalk (.inst ⟨4⟩) = .ok s ∧ s.toList = [0x2040] := by
  have hdepth : forwardWalk.ChainsWithin ⟨4⟩ EvalQuery.maxDepth :=
    Func.chainsWithin_of_size_le (by decide) _
  refine ⟨⟨forwardWalk_reordered, forwardWalk_operandsMade, forwardWalk_basesEnd,
    forwardWalk_reducible, hdepth⟩, ?_⟩
  obtain ⟨s, hf, hg⟩ := enumerate_reordered forwardWalk_reordered forwardWalk_operandsMade
    forwardWalk_basesEnd (.inst ⟨4⟩) (fun root hv => by
      cases hv
      exact ⟨forwardWalk_reducible, hdepth⟩) walkedTable
  refine ⟨s, hf, hg, ?_⟩
  have hfound : (enumerate walkedTable forwardWalk (.inst ⟨4⟩)).map (·.toList) = .ok [0x2040] := by cbv
  rw [hf] at hfound
  exact Except.ok.inj hfound

/-- The sum of a counter and its next value, in either order. -/
def counterSum (x y : Value) : Func where
  name := "sum"
  params := [⟨"more", .i1⟩]
  arena := #[
    ⟨⟨.phi [(⟨0⟩, .int 0x1000 .i64), (⟨1⟩, .inst ⟨1⟩)], some .i64⟩, some ⟨1⟩⟩,
    ⟨⟨.binary .add (.inst ⟨0⟩) (.int 8 .i64), some .i64⟩, some ⟨1⟩⟩,
    ⟨⟨.binary .add x y, some .i64⟩, some ⟨1⟩⟩]
  blocks := #[
    some { term := .jump ⟨1⟩ },
    some { insts := [⟨0⟩, ⟨1⟩, ⟨2⟩], term := .branch (.arg 0) ⟨1⟩ ⟨2⟩ },
    some { term := .indirect (.inst ⟨2⟩) }]
  entry := some ⟨0⟩

/-- Without reducible definitions order counts: the counter and its next value are on one cycle, and
the sum enters it at both. With the counter first, its next value is evaluated while the counter counts
as empty, and the empty set is stored for it. -/
theorem enumerate_depends_on_order :
    (counterSum (.inst ⟨0⟩) (.inst ⟨1⟩)).Reordered (counterSum (.inst ⟨1⟩) (.inst ⟨0⟩)) ∧
    (counterSum (.inst ⟨0⟩) (.inst ⟨1⟩)).ChainsWithin ⟨2⟩ EvalQuery.maxDepth ∧
    (enumerate {} (counterSum (.inst ⟨0⟩) (.inst ⟨1⟩)) (.inst ⟨2⟩)).map (·.toList) = .ok [] ∧
    (enumerate {} (counterSum (.inst ⟨1⟩) (.inst ⟨0⟩)) (.inst ⟨2⟩)).map (·.toList) =
      .ok [0x2008] := by
  refine ⟨⟨rfl, ?_⟩, Func.chainsWithin_of_size_le (by decide) _, by cbv, by cbv⟩
  exact .cons ⟨rfl, rfl, .same _⟩ (.cons ⟨rfl, rfl, .same _⟩ (.cons ⟨rfl, rfl, .swapped rfl⟩ .nil))

end BinaryLift
