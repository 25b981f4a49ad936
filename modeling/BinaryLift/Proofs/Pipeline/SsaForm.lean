import BinaryLift.Proofs.Pipeline.Modules
import BinaryLift.Proofs.Transform.Combination
import BinaryLift.Proofs.Transform.DeadCode
import BinaryLift.Proofs.Transform.Memory
import BinaryLift.Proofs.Transform.Numbering
import BinaryLift.Proofs.Transform.StackForm
import Mathlib

/-!
# SSA form through the passes

Simplification of the graph apart, the passes on bodies leave blocks and edges as they are and keep a
function well formed. Two of them ask for more: promotion takes a store away with its slot, so nothing
may read a store, and narrowing makes instructions, so nothing may read one that is yet to be made.
-/

namespace BinaryLift

namespace Func

variable {f : Func}

/-- What reachable code reads has not been taken out. -/
theorem WellFormed.isLive_of_reads (hwf : f.WellFormed) {drop : InstId → Bool} {b : BlockId}
    {pre : List InstId} {j : InstId} (h : f.Reads drop b pre (.inst j)) : f.isLive j = true := by
  obtain ⟨c, hc, _, _⟩ := hwf.consistent.home_of_available h.reachable h.pre_prefix.subset
    (h.atHand hwf)
  rw [isLive, hc]
  rfl

theorem readsResults_of_unread
    (h : ∀ j p v ty, f.inst? j = some ⟨.store p v, ty⟩ → f.usersOf (.inst j) = []) :
    f.ReadsResults := by
  intro b pre j hread p v ty hj
  obtain ⟨u, hu, _⟩ := hread.user
  rw [h j p v ty hj] at hu
  cases hu

end Func

namespace PassStep

open Func

variable {step : PassStep} {f g : Func} {changed : Bool}

/-- Passes that change bodies and leave their blocks and edges as they are. -/
def keepsGraph : PassStep → Bool
  | .function .simplifyGraph => false
  | .module .dropUncallable => false
  | .module .dropPrototypes => false
  | _ => true

/-- What a pass asks of a well-formed body. -/
def Admits (f : Func) : PassStep → Prop
  | .function .promoteSlots => f.ReadsResults
  | .module (.promoteStack _) => f.ReadsResults
  | .module .narrowLoads => f.NamesMade
  | _ => True

/-- When a pass is known not to stop short. -/
def Completes (f : Func) : PassStep → Prop
  | .function .combine => False
  | .function .dropUnneeded => ∀ id, f.Wanted id → (f.inst? id).isSome = true
  | .module (.foldImageLoads _ policy) => policy = .never
  | .module (.promoteStack _) => f.ReadsMade
  | _ => True

/-! ### Passes on one function -/

theorem run_wellFormed {pass : FunctionPass} (hgraph : (function pass).keepsGraph = true)
    (hwf : f.WellFormed) (hadmits : (function pass).Admits f) (h : pass.run f = .ok (g, changed)) :
    g.WellFormed := by
  have hkept : ∀ {t : Transformed}, (∃ g changed, t = .ok (g, changed) ∧ g.WellFormed) →
      t = .ok (g, changed) → g.WellFormed := by
    rintro t ⟨g', c, ht, hg'⟩ h
    rw [ht] at h
    cases h
    exact hg'
  have hkeeps : ∀ {t : Transformed}, (∃ g changed, t = .ok (g, changed) ∧ f.Keeps g) →
      t = .ok (g, changed) → g.WellFormed := by
    rintro t ⟨g', c, ht, hg'⟩ h
    exact hkept ⟨g', c, ht, hg'.wellFormed⟩ h
  cases pass with
  | promoteSlots => exact hkept (promoteSlots_wellFormed hwf hadmits) h
  | combine =>
    change f.combine = .ok (g, changed) at h
    unfold combine at h
    cases hd : DomTree.compute f with
    | error e =>
      rw [hd] at h
      cases h
    | ok d =>
      rw [hd] at h
      exact untilStable_combineOnce_wellFormed hwf hd h
  | simplifyGraph => cases hgraph
  | numberEarly memoryAware => exact hkeeps (number_keeps hwf _) h
  | dropUnused => exact hkeeps (dropUnused_keeps hwf) h
  | numberGlobal => exact hkeeps (number_keeps hwf _) h
  | dropUnneeded => exact (dropUnneeded_keeps hwf h).wellFormed

theorem run_returns {pass : FunctionPass} (hgraph : (function pass).keepsGraph = true)
    (hwf : f.WellFormed) (hadmits : (function pass).Admits f)
    (hcompletes : (function pass).Completes f) : ∃ r, pass.run f = .ok r := by
  cases pass with
  | promoteSlots =>
    obtain ⟨g, c, hg, _⟩ := promoteSlots_wellFormed hwf hadmits
    exact ⟨_, hg⟩
  | combine => exact absurd hcompletes id
  | simplifyGraph => cases hgraph
  | numberEarly memoryAware =>
    obtain ⟨g, c, hg, _⟩ := number_keeps hwf (.early memoryAware)
    exact ⟨_, hg⟩
  | dropUnused =>
    obtain ⟨g, c, hg, _⟩ := dropUnused_keeps hwf
    exact ⟨_, hg⟩
  | numberGlobal =>
    obtain ⟨g, c, hg, _⟩ := number_keeps hwf .global
    exact ⟨_, hg⟩
  | dropUnneeded =>
    obtain ⟨g, c, hg⟩ := (dropUnneeded_returns_iff hwf).2 hcompletes
    exact ⟨_, hg⟩

/-! ### Passes on a module -/

/-- What a pass on modules makes of a function. -/
theorem run_becomes {img : Image} {m m' : Module} (hgraph : step.keepsGraph = true)
    (h : step.toPass.run img m = .ok (m', changed)) {id : FuncId} (hf : m.func? id = some f)
    (hwf : f.WellFormed) (hadmits : step.Admits f) :
    ∃ g, m'.func? id = some g ∧ g.WellFormed := by
  have hone : ∀ {j : FuncId} {t : Func → Transformed},
      (∀ {g c}, t f = .ok (g, c) → g.WellFormed) → m.transformOne j t = .ok (m', changed) →
      ∃ g, m'.func? id = some g ∧ g.WellFormed := by
    intro j t ht h
    obtain ⟨g, hg, rfl | hstep⟩ := Module.transformOne_becomes h hf
    · exact ⟨g, hg, hwf⟩
    · exact ⟨g, hg, ht hstep⟩
  have heach : ∀ {t : Func → Transformed}, (∀ {g c}, t f = .ok (g, c) → g.WellFormed) →
      m.transformEach t = .ok (m', changed) → ∃ g, m'.func? id = some g ∧ g.WellFormed := by
    intro t ht h
    obtain ⟨g, hg, hbecomes⟩ := Module.transformEach_becomes h hf
    cases hbecomes with
    | declared _ => exact ⟨f, hg, hwf⟩
    | defined _ hstep => exact ⟨g, hg, ht hstep⟩
  match step with
  | .function pass =>
    refine heach (fun hstep => ?_) h
    rw [FunctionPass.runAll_singleton] at hstep
    exact run_wellFormed hgraph hwf hadmits hstep
  | .module (.foldImageLoads memory policy) =>
    change (if policy = .never then _ else _ : Checked _) = _ at h
    split at h
    · cases h
      exact ⟨f, hf, hwf⟩
    · exact hone (fun hstep => foldImageLoads_wellFormed hwf hstep) h
  | .module .narrowLoads =>
    refine heach (fun hstep => ?_) h
    obtain ⟨g, c, hg, hgwf⟩ := narrowLoads_wellFormed hwf hadmits
    rw [hg] at hstep
    cases hstep
    exact hgwf
  | .module (.promoteStack stack) =>
    exact hone (fun hstep => promoteStack_wellFormed hwf hadmits hstep) h
  | .module (.flattenMemory memory) =>
    refine hone (fun hstep => ?_) h
    obtain ⟨g, c, hg, hgwf⟩ := flattenMemory_wellFormed hwf memory.index
    rw [hg] at hstep
    cases hstep
    exact hgwf
  | .module .dropUncallable => cases hgraph
  | .module .dropPrototypes => cases hgraph

theorem run_completes {m : Module} (hgraph : step.keepsGraph = true) (img : Image)
    (hall : ∀ id f, m.func? id = some f → f.WellFormed ∧ step.Admits f ∧ step.Completes f) :
    ∃ r, step.toPass.run img m = .ok r := by
  match step with
  | .function pass =>
    refine Module.transformEach_returns fun id f hf _ => ?_
    obtain ⟨hwf, hadmits, hcompletes⟩ := hall id f hf
    rw [FunctionPass.runAll_singleton]
    exact run_returns hgraph hwf hadmits hcompletes
  | .module (.foldImageLoads memory policy) =>
    change ∃ r, (if policy = .never then _ else _ : Checked _) = _
    split
    · exact ⟨_, rfl⟩
    · rename_i hpolicy
      exact Module.transformOne_returns fun f hf => absurd (hall _ f hf).2.2 hpolicy
  | .module .narrowLoads =>
    refine Module.transformEach_returns fun id f hf _ => ?_
    obtain ⟨hwf, hadmits, _⟩ := hall id f hf
    obtain ⟨g, c, hg, _⟩ := narrowLoads_wellFormed hwf hadmits
    exact ⟨_, hg⟩
  | .module (.promoteStack stack) =>
    refine Module.transformOne_returns fun f hf => ?_
    obtain ⟨hwf, _, hmade⟩ := hall _ f hf
    exact promoteStack_returns hwf hmade stack.value
  | .module (.flattenMemory memory) =>
    refine Module.transformOne_returns fun f hf => ?_
    obtain ⟨g, c, hg, _⟩ := flattenMemory_wellFormed (hall _ f hf).1 memory.index
    exact ⟨_, hg⟩
  | .module .dropUncallable => cases hgraph
  | .module .dropPrototypes => cases hgraph

/-- Whatever such a pass makes of a well-formed function that it admits is well formed, and what its
reachable code reads is there. Combination is so after any number of rounds. All but combination
are known to return. -/
theorem keeps_ssaForm (hgraph : step.keepsGraph = true) (img : Image) (m : Module) :
    (∀ m' changed, step.toPass.run img m = .ok (m', changed) →
      ∀ id f, m.func? id = some f → f.WellFormed → step.Admits f →
        ∃ g, m'.func? id = some g ∧ g.WellFormed ∧
          ∀ b pre j, g.Reads (fun _ => false) b pre (.inst j) → g.isLive j = true) ∧
    (∀ f d n g changed, f.WellFormed → DomTree.compute f = .ok d →
      untilStable (combineOnce d) n f = .ok (g, changed) → g.WellFormed) ∧
    ((∀ id f, m.func? id = some f → f.WellFormed ∧ step.Admits f ∧ step.Completes f) →
      ∃ m' changed, step.toPass.run img m = .ok (m', changed)) := by
  refine ⟨?_, fun f d n g changed hwf hd h => untilStable_combineOnce_wellFormed hwf hd h, ?_⟩
  · intro m' changed h id f hf hwf hadmits
    obtain ⟨g, hg, hgwf⟩ := run_becomes hgraph h hf hwf hadmits
    exact ⟨g, hg, hgwf, fun b pre j hread => hgwf.isLive_of_reads hread⟩
  · intro hall
    obtain ⟨r, hr⟩ := run_completes hgraph img hall
    exact ⟨r.1, r.2, hr⟩

/-- A word is put on the stack and read back through another address of the same place. -/
def stackWord : Func where
  name := "sample"
  params := [⟨"stack", .ptr⟩]
  ret := some .i64
  arena := #[
    ⟨⟨.ptrAdd (.arg 0) (.int 8 .i64), some .ptr⟩, some ⟨0⟩⟩,
    ⟨⟨.store (.inst ⟨0⟩) (.int 5 .i64), none⟩, some ⟨0⟩⟩,
    ⟨⟨.ptrAdd (.arg 0) (.int 8 .i64), some .ptr⟩, some ⟨0⟩⟩,
    ⟨⟨.load (.inst ⟨2⟩), some .i64⟩, some ⟨0⟩⟩]
  blocks := #[some { insts := [⟨0⟩, ⟨1⟩, ⟨2⟩, ⟨3⟩], term := .ret (some (.inst ⟨3⟩)) }]
  entry := some ⟨0⟩

theorem stackWord_wellFormed : stackWord.WellFormed := by
  have haccepts : Survey.accepts [(⟨0⟩, [])] stackWord = true := by decide
  exact Survey.wellFormed_of_accepts haccepts

theorem stackWord_readsResults : stackWord.ReadsResults := by
  refine readsResults_of_unread fun j p v ty hj => ?_
  have hlt : j.index < 4 := index_lt_of_inst? hj
  obtain ⟨n⟩ := j
  match n with
  | 0 => cases hj
  | 1 => decide
  | 2 => cases hj
  | 3 => cases hj

/-- A module with one function, the sample. -/
def stackModule : Module := { name := "sample", arena := #[some stackWord] }

/-- The word goes from the store to the return. -/
theorem stackWord_promoted :
    ∃ m g, ModulePass.run {} stackModule (.promoteStack ⟨⟨0⟩, 0⟩) = .ok (m, true) ∧
      m.func? ⟨0⟩ = some g ∧ g.WellFormed ∧
      g.block? ⟨0⟩ = some { insts := [], term := .ret (some (.int 5 .i64)) } := by
  have hgraph : (PassStep.module (.promoteStack ⟨⟨0⟩, 0⟩)).keepsGraph = true := rfl
  obtain ⟨hkeeps, _, hreturns⟩ := keeps_ssaForm hgraph {} stackModule
  have honly : ∀ id f, stackModule.func? id = some f → f = stackWord := by
    rintro ⟨n⟩ f hf
    match n with
    | 0 => exact (Option.some.inj hf).symm
    | n + 1 => cases hf
  have hmade := WellTyped.readsMade (by decide : stackWord.WellTyped) stackWord_wellFormed.consistent
  obtain ⟨m, changed, hrun⟩ := hreturns fun id f hf => by
    rw [honly id f hf]
    exact ⟨stackWord_wellFormed, stackWord_readsResults, hmade⟩
  obtain ⟨g, hg, hgwf, _⟩ :=
    hkeeps m changed hrun ⟨0⟩ stackWord rfl stackWord_wellFormed stackWord_readsResults
  have hresult : ((ModulePass.run {} stackModule (.promoteStack ⟨⟨0⟩, 0⟩)).toOption.map fun r =>
      (r.2, (r.1.func? ⟨0⟩).bind fun g => g.block? ⟨0⟩)) =
      some (true, some { insts := [], term := .ret (some (.int 5 .i64)) }) := by cbv
  change ModulePass.run {} stackModule (.promoteStack ⟨⟨0⟩, 0⟩) = _ at hrun
  rw [hrun] at hresult
  obtain ⟨rfl, hblock⟩ := Prod.mk.inj (Option.some.inj hresult)
  rw [hg] at hblock
  exact ⟨m, g, hrun, hg, hgwf, hblock⟩

/-! ### What is not admitted -/

/-- A store is returned. -/
def storeRead : Func where
  name := "sample"
  params := []
  ret := some .i64
  arena := #[
    ⟨⟨.alloca 8, some .ptr⟩, some ⟨0⟩⟩,
    ⟨⟨.store (.inst ⟨0⟩) (.int 5 .i64), none⟩, some ⟨0⟩⟩]
  blocks := #[some { insts := [⟨0⟩, ⟨1⟩], term := .ret (some (.inst ⟨1⟩)) }]
  entry := some ⟨0⟩

theorem storeRead_wellFormed : storeRead.WellFormed := by
  have haccepts : Survey.accepts [(⟨0⟩, [])] storeRead = true := by decide
  exact Survey.wellFormed_of_accepts haccepts

/-- A word is cut down to a half and the half to a quarter and to a byte. A block that control does not
come to returns an instruction that is yet to be made. -/
def cutTwice : Func where
  name := "sample"
  params := [⟨"p", .ptr⟩]
  ret := some .i8
  arena := #[
    ⟨⟨.load (.arg 0), some .i64⟩, some ⟨0⟩⟩,
    ⟨⟨.cast .trunc (.inst ⟨0⟩), some .i32⟩, some ⟨0⟩⟩,
    ⟨⟨.cast .trunc (.inst ⟨1⟩), some .i16⟩, some ⟨0⟩⟩,
    ⟨⟨.cast .trunc (.inst ⟨1⟩), some .i8⟩, some ⟨0⟩⟩]
  blocks := #[
    some { insts := [⟨0⟩, ⟨1⟩, ⟨2⟩, ⟨3⟩], term := .ret (some (.inst ⟨3⟩)) },
    some { term := .ret (some (.inst ⟨4⟩)) }]
  entry := some ⟨0⟩

theorem cutTwice_wellFormed : cutTwice.WellFormed := by
  have haccepts : Survey.accepts [(⟨0⟩, [])] cutTwice = true := by decide
  exact Survey.wellFormed_of_accepts haccepts

theorem not_wellFormed_of_gone {b : BlockId} {pre : List InstId} {j : InstId}
    (h : f.Reads (fun _ => false) b pre (.inst j)) (hgone : f.isLive j = false) :
    ¬ f.WellFormed := by
  intro hwf
  rw [hwf.isLive_of_reads h] at hgone
  cases hgone

/-- The store that is returned goes with its slot. The half that two instructions cut down goes with
the first of them, since the one reader that was counted is in the block that control does not come
to. -/
theorem not_wellFormed_of_unadmitted :
    (storeRead.WellFormed ∧ ∃ g, storeRead.promoteSlots = .ok (g, true) ∧ ¬ g.WellFormed) ∧
    (cutTwice.WellFormed ∧ ∃ g, cutTwice.narrowLoads = .ok (g, true) ∧ ¬ g.WellFormed) := by
  refine ⟨⟨storeRead_wellFormed, ?_⟩, cutTwice_wellFormed, ?_⟩
  · have hresult : (storeRead.promoteSlots.toOption.map fun r =>
        (r.2, r.1.entry, r.1.block? ⟨0⟩, r.1.isLive ⟨1⟩)) =
        some (true, some ⟨0⟩, some { insts := [], term := .ret (some (.inst ⟨1⟩)) }, false) := by cbv
    obtain ⟨⟨g, changed⟩, hg, heq⟩ := Option.map_eq_some_iff.1 hresult
    simp only [Prod.mk.injEq] at heq
    obtain ⟨rfl, hentry, hblock, hgone⟩ := heq
    refine ⟨g, ok_of_toOption hg, not_wellFormed_of_gone (.term ?_ hblock ?_) hgone⟩
    · exact .entry hentry (containsBlock_iff.2 ⟨_, hblock⟩)
    · exact List.mem_singleton_self _
  · have hresult : (cutTwice.narrowLoads.toOption.map fun r =>
        (r.2, r.1.entry, r.1.containsBlock ⟨0⟩, r.1.instsOf ⟨0⟩, r.1.inst? ⟨3⟩, r.1.isLive ⟨4⟩)) =
        some (true, some ⟨0⟩, true, [⟨5⟩, ⟨3⟩], some ⟨.cast .trunc (.inst ⟨4⟩), some .i8⟩,
          false) := by cbv
    obtain ⟨⟨g, changed⟩, hg, heq⟩ := Option.map_eq_some_iff.1 hresult
    simp only [Prod.mk.injEq] at heq
    obtain ⟨rfl, hentry, hlive, hinsts, hi, hgone⟩ := heq
    have hread : g.Reads (fun _ => false) ⟨0⟩ [⟨5⟩] (.inst ⟨4⟩) :=
      .inst (.entry hentry hlive) hinsts rfl hi rfl (List.mem_singleton_self _)
    exact ⟨g, ok_of_toOption hg, not_wellFormed_of_gone hread hgone⟩

end PassStep

end BinaryLift
