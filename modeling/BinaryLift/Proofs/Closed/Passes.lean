import BinaryLift.Proofs.Closed.Endings
import BinaryLift.Proofs.Closed.Slots
import BinaryLift.Proofs.Pipeline.Modules

/-!
# Passes on modules of closed functions

No pass asks for a block that is gone, inserts before an instruction that is gone or looks at an
instruction that was never made, whether or not the functions are in SSA form. What a pass leaves is
closed again.
-/

namespace BinaryLift

namespace Module

variable {m m' : Module} {id : FuncId} {f g : Func} {t : Func → Transformed} {s : Prop}

/-- Every function present is closed, the removed instructions it leads to included. -/
def Closed (m : Module) : Prop := ∀ id f, m.func? id = some f → f.ClosedThrough

theorem Closed.put (hm : m.Closed) (hg : g.ClosedThrough) (id : FuncId) : (m.put id g).Closed := by
  intro j f hf
  cases hid : m.func? id with
  | none =>
    unfold Module.put at hf
    rw [hid] at hf
    exact hm j f hf
  | some f' =>
    by_cases hne : id = j
    · subst hne
      rw [func?_put_self hid] at hf
      cases hf
      exact hg
    · rw [func?_put_of_ne hne] at hf
      exact hm j f hf

theorem Closed.gives_transformOne (hm : m.Closed)
    (ht : ∀ f, f.ClosedThrough → Gives s (fun r => r.1.ClosedThrough) (t f)) (id : FuncId) :
    Gives s (fun r => r.1.Closed) (m.transformOne id t) := by
  unfold transformOne
  split
  · exact .pure hm
  · rename_i f hf
    exact (ht f (hm id f hf)).bind fun r hr => .pure (hm.put hr id)

theorem Closed.gives_transformEach (hm : m.Closed)
    (ht : ∀ f, f.ClosedThrough → Gives s (fun r => r.1.ClosedThrough) (t f)) :
    Gives s (fun r => r.1.Closed) (m.transformEach t) := by
  unfold transformEach
  refine Gives.foldlM (I := fun acc : Module × Bool => acc.1.Closed) (fun x _ acc hacc => ?_) hm
  split
  · exact .pure hacc
  · exact (hacc.gives_transformOne ht x.1).bind fun r hr => .pure hr

/-! ### Functions that go -/

theorem Closed.removeAll (hm : m.Closed) (ids : List FuncId) : (m.removeAll ids).Closed := by
  intro id f hf
  rw [func?_removeAll] at hf
  split at hf
  · cases hf
  · exact hm id f hf

theorem length_ids_le (m : Module) : m.ids.length ≤ m.arena.size := by
  unfold ids funcs
  rw [List.length_map]
  refine (List.length_filterMap_le _ _).trans ?_
  rw [List.length_zipIdx, Array.length_toList]

/-- The walk over the calls comes to its end. -/
theorem called_returns (m : Module) : ∃ keep, m.called = .ok keep := by
  have hsub : ∀ id, m.calleesOf id ⊆ m.calls := by
    intro id callee hcallee
    unfold calleesOf at hcallee
    cases hf : m.func? id with
    | none =>
      rw [hf] at hcallee
      exact absurd hcallee List.not_mem_nil
    | some f =>
      rw [hf] at hcallee
      exact List.mem_flatMap.2 ⟨(id, f), mem_funcs.2 hf, hcallee⟩
  have hvisible : m.visible ⊆ m.ids := by
    intro id hid
    obtain ⟨x, hx, rfl⟩ := List.mem_map.1 hid
    exact List.mem_map.2 ⟨x, List.mem_of_mem_filter hx, rfl⟩
  have hstep : ∀ id ∈ m.ids ++ m.calls, ∃ ids,
      (pure (m.calleesOf id) : Checked (List FuncId)) = .ok ids ∧ ids ⊆ m.ids ++ m.calls :=
    fun id _ => ⟨m.calleesOf id, rfl, fun x hx => List.mem_append_right _ (hsub id hx)⟩
  have hbound : (m.ids ++ m.calls).length ≤ m.arena.size + m.calls.length := by
    rw [List.length_append]
    exact Nat.add_le_add_right m.length_ids_le _
  obtain ⟨keep, hkeep, _⟩ := closure_spec hstep
    (fun id hid => List.mem_append_left _ (hvisible hid)) hbound
  exact ⟨keep, hkeep⟩

end Module

open Func

namespace PassStep

variable {img : Image} {m : Module} {f : Func}

/-- Passes with a loop that need not come to rest: rounds that always find something to change, a
chain of offsets or of replacements that comes back to itself. -/
def MayStop : PassStep → Prop
  | .function .combine => True
  | .function .simplifyGraph => True
  | .function (.numberEarly _) => True
  | .function .numberGlobal => True
  | .module (.foldImageLoads ..) => True
  | _ => False

theorem gives_run (pass : FunctionPass) (hf : f.ClosedThrough) :
    Gives (MayStop (.function pass)) (fun r => r.1.ClosedThrough) (pass.run f) := by
  have h := hf.within
  cases pass with
  | promoteSlots => exact h.gives_promoteSlots.mono fun _ hr => hr.within.closedThrough
  | combine => exact h.gives_combine.mono fun _ hr => hr.within.closedThrough
  | simplifyGraph =>
    exact (h.gives_simplifyGraphRounds _).mono fun _ hr => hr.within.closedThrough
  | numberEarly memoryAware => exact (h.gives_number _).mono fun _ hr => hr.within.closedThrough
  | dropUnused => exact h.gives_dropUnused.mono fun _ hr => hr.within.closedThrough
  | numberGlobal => exact (h.gives_number _).mono fun _ hr => hr.within.closedThrough
  | dropUnneeded => exact h.gives_dropUnneeded.mono fun _ hr => hr.within.closedThrough

theorem gives_toPass (step : PassStep) (img : Image) (hm : m.Closed) :
    Gives step.MayStop (fun r => r.1.Closed) (step.toPass.run img m) := by
  match step with
  | .function pass =>
    refine hm.gives_transformEach fun f hf => ?_
    exact Gives.sweepOver (I := ClosedThrough)
      (fun p hp g hg => by rw [List.mem_singleton.1 hp]; exact gives_run pass hg) hf
  | .module (.foldImageLoads memory policy) =>
    change Gives True _ (if policy = .never then _ else _)
    split
    · exact .pure hm
    · exact hm.gives_transformOne (fun f hf => (hf.within.gives_foldImageLoads img _ policy).mono
        fun _ hr => hr.within.closedThrough) memory.func
  | .module .narrowLoads =>
    exact hm.gives_transformEach fun f hf => hf.within.gives_narrowLoads.mono
      fun _ hr => hr.within.closedThrough
  | .module (.promoteStack stack) =>
    exact hm.gives_transformOne (fun f hf => (hf.within.gives_promoteStack stack.value).mono
      fun _ hr => hr.within.closedThrough) stack.func
  | .module (.flattenMemory memory) =>
    exact hm.gives_transformOne (fun f hf => (hf.within.gives_flattenMemory memory.index).mono
      fun _ hr => hr.within.closedThrough) memory.func
  | .module .dropUncallable =>
    obtain ⟨keep, hkeep⟩ := m.called_returns
    exact .bind_ok hkeep (.pure (hm.removeAll _))
  | .module .dropPrototypes => exact .pure (hm.removeAll _)

/-- A pass on closed functions meets no handle that names nothing, and leaves closed functions. The
one fault left is that of loops that need not come to rest, and only some passes have such. These
loops are safe beyond their bounds: combination and simplification meet no other fault after any
number of rounds, and a chain that is given up has no end. -/
theorem keeps_closed (step : PassStep) (img : Image) (m : Module) (hm : m.Closed) :
    (∀ fault, step.toPass.run img m = .error fault → step.MayStop ∧ fault = .stepLimit) ∧
    (∀ m' changed, step.toPass.run img m = .ok (m', changed) → m'.Closed) ∧
    (∀ id f, m.func? id = some f → ∀ n,
      (∀ d, DomTree.compute f = .ok d →
        Gives True (fun r => r.1.ClosedThrough) (untilStable (combineOnce d) n f)) ∧
      Gives True (fun r => r.1.ClosedThrough) (untilStable simplifyGraphOnce n f)) ∧
    (∀ (f : Func) memory n v a, f.constantAddressIn memory n v = .ok a →
      f.constantAddress memory v = .ok a) ∧
    ∀ (t : Replacements) n v, t.covers (t.follow n v) = false → ∃ w, t.resolve v = .ok w := by
  have hgives := step.gives_toPass img hm
  refine ⟨fun fault hfault => ?_, fun m' changed h => hgives.result h, fun id f hf n => ?_,
    fun f memory n v a h => constantAddress_of_in h, fun t n v h => t.resolve_of_follow h⟩
  · rcases hgives with ⟨r, hr, _⟩ | ⟨hstop, hr⟩
    · rw [hr] at hfault
      cases hfault
    · rw [hr] at hfault
      cases hfault
      exact ⟨hstop, rfl⟩
  · have hwithin := (hm id f hf).within
    exact ⟨fun d _ => (hwithin.gives_combineRounds d n).mono fun _ hr => hr.within.closedThrough,
      (hwithin.gives_simplifyGraphRounds n).mono fun _ hr => hr.within.closedThrough⟩

/-! ### A removed instruction -/

/-- A sum that has been taken out of its block and is still read. -/
def removedSum (v : Value) : Func where
  name := "sample"
  params := []
  ret := some .i64
  arena := #[
    ⟨⟨.binary .add v (.int 1 .i64), some .i64⟩, none⟩,
    ⟨⟨.binary .add (.inst ⟨0⟩) (.int 1 .i64), some .i64⟩, some ⟨0⟩⟩]
  blocks := #[some { insts := [⟨1⟩], term := .ret (some (.inst ⟨1⟩)) }]
  entry := some ⟨0⟩

theorem removedSum_block? {v : Value} {b : BlockId} {data : Block}
    (h : (removedSum v).block? b = some data) :
    b = ⟨0⟩ ∧ data = { insts := [⟨1⟩], term := .ret (some (.inst ⟨1⟩)) } := by
  obtain ⟨n⟩ := b
  match n with
  | 0 => exact ⟨rfl, (Option.some.inj h).symm⟩
  | n + 1 => cases h

theorem removedSum_instBlock {v : Value} {id : InstId} {b : BlockId} :
    (removedSum v).instBlock id = some b ↔ id = ⟨1⟩ ∧ b = ⟨0⟩ := by
  obtain ⟨n⟩ := id
  match n with
  | 0 => simp [instBlock, removedSum]
  | 1 => simp [instBlock, removedSum, eq_comm]
  | n + 2 => simp [instBlock, removedSum]

/-- Live code reads the two instructions only. -/
theorem removedSum_closed (v : Value) : (removedSum v).Closed where
  consistent := by
    refine ⟨?_, ?_, ?_⟩
    · intro b data hdata id
      obtain ⟨rfl, rfl⟩ := removedSum_block? hdata
      simp [removedSum_instBlock]
    · intro id b hb
      rw [(removedSum_instBlock.1 hb).2]
      rfl
    · intro b data hdata
      obtain ⟨_, rfl⟩ := removedSum_block? hdata
      simp
  entry := by
    rintro e ⟨⟩
    rfl
  targets := by
    intro b data hdata c hc
    obtain ⟨_, rfl⟩ := removedSum_block? hdata
    exact absurd hc List.not_mem_nil
  operands := by
    intro id i hlive hi j hj
    obtain ⟨b, hb⟩ := Option.isSome_iff_exists.1 hlive
    rw [(removedSum_instBlock.1 hb).1] at hi
    cases hi
    rcases List.mem_cons.1 hj with hj | hj
    · cases hj
      exact Nat.zero_lt_succ 1
    · cases List.mem_singleton.1 hj
  termOperands := by
    intro b data hdata j hj
    obtain ⟨_, rfl⟩ := removedSum_block? hdata
    cases List.mem_singleton.1 hj
    exact Nat.lt_succ_self 1

/-- The removed sum counts as well. -/
theorem removedSum_closedThrough {v : Value} (hv : ∀ j, v ≠ .inst j) :
    (removedSum v).ClosedThrough where
  toClosed := removedSum_closed v
  made := by
    intro id hid
    cases hid with
    | inst hlive hi hj => exact (removedSum_closed v).operands _ _ hlive hi _ hj
    | term hb hj => exact (removedSum_closed v).termOperands _ _ hb _ hj
    | @through id' j i _ hi hj =>
      obtain ⟨n⟩ := id'
      match n with
      | 0 =>
        cases hi
        rcases List.mem_cons.1 hj with hj | hj
        · exact absurd hj.symm (hv _)
        · cases List.mem_singleton.1 hj
      | 1 =>
        cases hi
        rcases List.mem_cons.1 hj with hj | hj
        · cases hj
          exact Nat.zero_lt_succ 1
        · cases List.mem_singleton.1 hj
      | n + 2 => cases hi

def removedSumModule (v : Value) : Module := { name := "sample", arena := #[some (removedSum v)] }

theorem removedSumModule_func? {v : Value} {id : FuncId} {f : Func}
    (hf : (removedSumModule v).func? id = some f) : f = removedSum v := by
  obtain ⟨n⟩ := id
  match n with
  | 0 => exact (Option.some.inj hf).symm
  | n + 1 => cases hf

theorem removedSum_keeps_closed :
    (removedSumModule (.int 7 .i64)).Closed ∧
    ∃ m', (PassStep.function .dropUnneeded).toPass.run {} (removedSumModule (.int 7 .i64)) =
      .ok (m', false) ∧ m'.Closed := by
  have hm : (removedSumModule (.int 7 .i64)).Closed := by
    intro id f hf
    rw [removedSumModule_func? hf]
    exact removedSum_closedThrough nofun
  have hrun : (PassStep.function .dropUnneeded).toPass.run {} (removedSumModule (.int 7 .i64)) =
      .ok (removedSumModule (.int 7 .i64), false) := by decide
  exact ⟨hm, _, hrun, (keeps_closed (.function .dropUnneeded) {} _ hm).2.1 _ _ hrun⟩

/-- It is not enough that live code reads made instructions: what is needed is followed through
removed ones. -/
theorem not_keeps_closed_of_removed :
    (∀ id f, (removedSumModule (.inst ⟨99⟩)).func? id = some f → f.Closed) ∧
    (PassStep.function .dropUnneeded).toPass.run {} (removedSumModule (.inst ⟨99⟩)) =
      .error (.noSuchInst ⟨99⟩) := by
  refine ⟨fun id f hf => ?_, by decide⟩
  rw [removedSumModule_func? hf]
  exact removedSum_closed _

end PassStep

end BinaryLift
