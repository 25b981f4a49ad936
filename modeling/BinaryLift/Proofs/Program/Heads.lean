import BinaryLift.Pipeline.Pass
import BinaryLift.Proofs.Program.Checks
import BinaryLift.Proofs.Transform.Rounds

/-!
# Heads of functions

Name, signature, linkage and the entry stand outside the two arenas of a function. The passes on
functions work inside the arenas, so they keep all of that, whatever the function looks like: no pass
makes a declaration of a definition or a definition of a declaration.
-/

namespace BinaryLift

namespace Func

variable {f g h : Func} {α : Type}

/-- A function without what its arenas hold. -/
def head (f : Func) : Func := { f with arena := #[], blocks := #[] }

/-- Whatever the computation returns has the head `h`. -/
abbrev HasHead (h : Func) (x : Checked Func) : Prop := Ensures (fun g => g.head = h) x

/-- The same for computations that return something else as well. -/
abbrev HasHeadWith (h : Func) (x : Checked (Func × α)) : Prop := Ensures (fun r => r.1.head = h) x

theorem isDeclaration_of_head (hg : g.head = f.head) : g.isDeclaration = f.isDeclaration := by
  have hhead : g.head.isDeclaration = f.head.isDeclaration := by rw [hg]
  exact hhead

/-! ### Edits -/

theorem head_place (f : Func) (id : InstId) (b : Option BlockId) : (f.place id b).head = f.head := rfl

theorem head_modifyKind (f : Func) (id : InstId) (k : Kind → Kind) :
    (f.modifyKind id k).head = f.head := rfl

theorem head_replaceAllUses (f : Func) (v w : Value) : (f.replaceAllUses v w).head = f.head := by
  unfold replaceAllUses
  split <;> rfl

theorem head_applyReplacements (f : Func) (t : Replacements) :
    (f.applyReplacements t).head = f.head := by
  unfold applyReplacements
  split <;> rfl

theorem head_foldl {step : Func → α → Func} (hstep : ∀ g a, (step g a).head = g.head) (l : List α)
    (f : Func) : (l.foldl step f).head = f.head := by
  induction l generalizing f with
  | nil => rfl
  | cons a l ih => exact (ih (step f a)).trans (hstep f a)

theorem head_removeBlock (f : Func) (b : BlockId) : (f.removeBlock b).head = f.head := by
  unfold removeBlock
  split
  · rfl
  · split
    · rfl
    · exact head_foldl (fun g id => head_place g id none) _ _

theorem head_removeBlocks (f : Func) (bs : List BlockId) : (f.removeBlocks bs).head = f.head :=
  head_foldl head_removeBlock bs f

theorem hasHead_modifyBlock (hf : f.head = h) (b : BlockId) (k : Block → Block) :
    HasHead h (f.modifyBlock b k) := .bind_any fun _ => .pure hf

theorem hasHead_insertInst (hf : f.head = h) (b : BlockId) (n : Nat) (i : Inst) :
    HasHeadWith h (f.insertInst b n i) := by
  refine Ensures.bind (hasHead_modifyBlock (h := h) ?_ b _) fun g hg => .pure hg
  exact hf

theorem hasHead_removeInst (hf : f.head = h) (id : InstId) : HasHead h (f.removeInst id) := by
  unfold removeInst
  split
  · exact .pure hf
  · exact (hasHead_modifyBlock hf _ _).bind fun _ hg => .pure hg

theorem hasHead_removeInsts (hf : f.head = h) (ids : List InstId) : HasHead h (f.removeInsts ids) :=
  .foldlM (fun _ id hg => hasHead_removeInst hg id) hf

theorem hasHead_removePhiIncoming (hf : f.head = h) (b pred : BlockId) :
    HasHead h (f.removePhiIncoming b pred) :=
  .bind_any fun _ => .pure ((head_foldl (fun g id => head_modifyKind g id _) _ _).trans hf)

theorem hasHead_renamePhiPred (hf : f.head = h) (b old new : BlockId) :
    HasHead h (f.renamePhiPred b old new) :=
  .bind_any fun _ => .pure ((head_foldl (fun g id => head_modifyKind g id _) _ _).trans hf)

theorem hasHead_mergeBlocks (hf : f.head = h) (b c : BlockId) : HasHead h (f.mergeBlocks b c) := by
  unfold mergeBlocks
  split
  · exact .pure hf
  · split
    · exact .pure hf
    · refine Ensures.bind (Ensures.foldlM (fun _ s hg => hasHead_renamePhiPred hg s c b) ?_)
        fun g hg => hasHead_modifyBlock hg b _
      exact (head_foldl (fun g id => head_place g id (some b)) _ _).trans hf

theorem hasHead_substitute (hf : f.head = h) (t : Replacements) : HasHeadWith h (f.substitute t) := by
  unfold substitute
  split
  · exact .pure hf
  · exact (hasHead_removeInsts ((f.head_applyReplacements t).trans hf) _).bind fun g hg => .pure hg

theorem hasHead_sweepOver {step : Func → α → Transformed}
    (hstep : ∀ g a, g.head = h → HasHeadWith h (step g a)) (hf : f.head = h) (items : List α) :
    HasHeadWith h (sweepOver step f items) :=
  fun _ hr => sweepOver_keeps (I := fun g => g.head = h)
    (fun a g _ _ hg hrun => hstep g a hg _ hrun) hf hr

theorem hasHead_untilStable {round : Func → Transformed}
    (hround : ∀ g, g.head = h → HasHeadWith h (round g)) (hf : f.head = h) (n : Nat) :
    HasHeadWith h (untilStable round n f) :=
  fun _ hr => untilStable_keeps (I := fun g => g.head = h)
    (fun g _ _ hg hrun => hround g hg _ hrun) hf hr

/-! ### Promotion of slots -/

theorem hasHead_placePhis (hf : f.head = h) (dom : DomTree) (slots : List (InstId × Ty)) :
    HasHeadWith h (f.placePhis dom slots) := by
  refine Ensures.foldlM (I := fun acc : Func × SlotPhis => acc.1.head = h) (fun acc e hacc => ?_) hf
  refine .bind_any fun blocks => ?_
  refine Ensures.foldlM (I := fun acc : Func × SlotPhis => acc.1.head = h) (fun acc b hacc => ?_) hacc
  exact .bind_any fun ids => (hasHead_insertInst hacc b _ _).bind fun r hr => .pure hr

theorem hasHead_renaming_inst (slots : List (InstId × Ty)) {r : Renaming} (hr : r.func.head = h)
    (id : InstId) : Ensures (fun r : Renaming => r.func.head = h) (r.inst slots id) := by
  unfold Renaming.inst
  refine .bind_any fun kind => ?_
  split
  · split
    · exact .pure hr
    · exact (hasHead_removeInst hr id).bind fun g hg => .pure hg
  · split
    · exact .pure hr
    · exact (hasHead_removeInst hr id).bind fun g hg => .pure hg
  · exact .pure hr

theorem hasHead_renaming_block (slots : List (InstId × Ty)) (phis : SlotPhis) {r : Renaming}
    (hr : r.func.head = h) (b : BlockId) :
    Ensures (fun r : Renaming => r.func.head = h) (r.block slots phis b) := by
  unfold Renaming.block
  refine .bind_any fun data => ?_
  refine Ensures.bind (Ensures.foldlM (I := fun r : Renaming => r.func.head = h)
    (fun _ id hr => hasHead_renaming_inst slots hr id) hr) fun r₁ hr₁ => ?_
  refine .bind_any fun succs => .pure ?_
  refine (head_foldl (fun g s => ?_) _ _).trans hr₁
  exact head_foldl (fun g _ => head_modifyKind g _ _) _ _

theorem hasHead_renameFrom (dom : DomTree) (slots : List (InstId × Ty)) (phis : SlotPhis) (n : Nat)
    (hf : f.head = h) (replaced : Replacements) (work : List (BlockId × List Value)) :
    HasHeadWith h (renameFrom dom slots phis n f replaced work) := by
  induction n generalizing f replaced work with
  | zero =>
    cases work with
    | nil => exact .pure hf
    | cons w work => exact .error _
  | succ n ih =>
    cases work with
    | nil => exact .pure hf
    | cons w work => exact (hasHead_renaming_block slots phis hf w.1).bind fun r hr => ih hr _ _

theorem hasHead_promoteAllocas (hf : f.head = h) (allocas : List InstId) :
    HasHeadWith h (f.promoteAllocas allocas) := by
  unfold promoteAllocas
  split
  · exact .pure hf
  · refine .bind_any fun dom => ?_
    split
    · exact .pure hf
    · split
      · exact .pure hf
      · refine .bind_any fun slots => ?_
        split
        · exact .pure hf
        · refine (hasHead_placePhis hf dom slots).bind fun placed hplaced => ?_
          refine (hasHead_renameFrom dom slots _ _ hplaced _ _).bind fun renamed hrenamed => ?_
          refine (hasHead_removeInsts hrenamed _).bind fun g hg => .pure ?_
          exact (g.head_applyReplacements _).trans hg

theorem hasHead_promoteSlots (hf : f.head = h) : HasHeadWith h f.promoteSlots :=
  .bind_any fun allocas => (hasHead_promoteAllocas hf allocas).bind fun _ hr => .pure hr

/-! ### Combination -/

theorem hasHead_combineInst (dom : DomTree) (hf : f.head = h) (id : InstId) :
    HasHeadWith h (combineInst dom f id) := by
  unfold combineInst
  split
  · exact .pure hf
  · refine Ensures.bind (P := fun r => r.1.head = h) ?_ fun r hr => ?_
    · unfold canonicalize
      refine .bind_any fun i => .bind_any fun o => ?_
      split <;> exact .pure hf
    · refine .bind_any fun o => ?_
      split
      · exact (hasHead_removeInst ((r.1.head_replaceAllUses _ _).trans hr) id).bind
          fun g hg => .pure hg
      · exact .pure hr

theorem hasHead_combine (hf : f.head = h) : HasHeadWith h f.combine :=
  .bind_any fun dom => hasHead_untilStable
    (fun g hg => hasHead_sweepOver (fun _ id hg => hasHead_combineInst dom hg id) hg g.liveInsts) hf _

/-! ### Simplification of control flow -/

theorem hasHead_foldBranch (hf : f.head = h) (b : BlockId) : HasHeadWith h (f.foldBranch b) := by
  have hset : ∀ {g : Func} (t : Terminator), g.head = h →
      HasHeadWith h (do return (← g.setTerm b t, true)) := fun t hg =>
    (hasHead_modifyBlock hg b _).bind fun _ hg' => .pure hg'
  unfold foldBranch
  refine .bind_any fun t => ?_
  split
  · dsimp only
    split <;> split
    · exact (hasHead_removePhiIncoming hf _ _).bind fun _ hg => hset _ hg
    · exact hset _ hf
    · exact (hasHead_removePhiIncoming hf _ _).bind fun _ hg => hset _ hg
    · exact hset _ hf
  · split
    · exact hset _ hf
    · exact .pure hf
  · split
    · exact .pure hf
    · refine .bind_any fun ids => ?_
      split
      · exact hset _ hf
      · exact .pure hf
  · exact .pure hf

theorem hasHead_removeUnreachable (hf : f.head = h) : HasHeadWith h f.removeUnreachable := by
  refine .bind_any fun reachable => ?_
  refine Ensures.bind (P := fun g : Func => g.head = h) (Ensures.foldlM (fun g b hg => ?_) hf)
    fun g hg => .pure ((head_removeBlocks g _).trans hg)
  exact .bind_any fun succs => .foldlM (fun _ s hg => hasHead_removePhiIncoming hg s b) hg

theorem hasHead_dissolvePhi (hf : f.head = h) (phi : InstId) : HasHead h (f.dissolvePhi phi) := by
  refine .bind_any fun kind => ?_
  have hremove : ∀ {g : Func}, g.head = h → HasHead h (g.removeInst phi) := fun hg =>
    hasHead_removeInst hg phi
  dsimp only
  split
  · refine Ensures.bind (P := fun g : Func => g.head = h) (.pure ?_) fun _ hg => hremove hg
    split
    · exact hf
    · exact (f.head_replaceAllUses _ _).trans hf
  · exact hremove hf

theorem hasHead_mergeChain (hf : f.head = h) (b : BlockId) : HasHeadWith h (f.mergeChain b) := by
  refine .bind_any fun o => ?_
  split
  · exact .pure hf
  · refine .bind_any fun ids => ?_
    refine Ensures.bind (Ensures.foldlM (fun _ phi hg => hasHead_dissolvePhi hg phi) hf) fun g hg => ?_
    exact (hasHead_mergeBlocks hg _ b).bind fun _ hg' => .pure hg'

theorem hasHead_bypassForwarder (hf : f.head = h) (b : BlockId) :
    HasHeadWith h (f.bypassForwarder b) := by
  refine .bind_any fun o => ?_
  split
  · exact .pure hf
  · exact Ensures.bind (Ensures.foldlM (fun _ p hg => hasHead_modifyBlock hg p _) hf)
      fun g hg => .pure hg

theorem hasHead_simplifyGraph (hf : f.head = h) : HasHeadWith h f.simplifyGraph := by
  refine hasHead_untilStable (fun g hg => ?_) hf _
  refine (hasHead_sweepOver (fun _ b hg => hasHead_foldBranch hg b) hg _).bind fun r₁ h₁ => ?_
  refine (hasHead_removeUnreachable h₁).bind fun r₂ h₂ => ?_
  refine (hasHead_sweepOver (fun _ b hg => hasHead_mergeChain hg b) h₂ _).bind fun r₃ h₃ => ?_
  exact (hasHead_sweepOver (fun _ b hg => hasHead_bypassForwarder hg b) h₃ _).bind
    fun r₄ h₄ => .pure h₄

/-! ### Numbering and dead code -/

theorem hasHead_number (hf : f.head = h) (p : NumberingPolicy) : HasHeadWith h (f.number p) :=
  .bind_any fun _ => .bind_any fun done => hasHead_substitute hf done.replaced

theorem hasHead_dropUnused (hf : f.head = h) : HasHeadWith h f.dropUnused := by
  refine hasHead_untilStable (fun g hg => ?_) hf _
  unfold dropUnusedOnce
  refine .bind_any fun dead => ?_
  split
  · exact .pure hg
  · exact (hasHead_removeInsts hg dead).bind fun _ hg' => .pure hg'

theorem hasHead_dropUnneeded (hf : f.head = h) : HasHeadWith h f.dropUnneeded :=
  .bind_any fun _ => (hasHead_removeInsts hf _).bind fun _ hg => .pure hg

/-! ### Memory and stack -/

theorem hasHead_narrowLoad (useCount : InstId → Nat) (hf : f.head = h) (id : InstId) :
    HasHeadWith h (narrowLoad useCount f id) := by
  refine .bind_any fun o => ?_
  split
  · exact .pure hf
  · split
    · exact .pure hf
    · refine .bind_any fun i => Ensures.bind (P := fun r => r.1.head = h) ?_ fun r hr => ?_
      · unfold insertBefore
        split
        · exact .error _
        · exact .bind_any fun _ => hasHead_insertInst hf _ _ _
      · refine (hasHead_removeInsts ((head_replaceAllUses _ _ _).trans hr) _).bind fun g hg => ?_
        exact .pure hg

theorem hasHead_narrowLoads (hf : f.head = h) : HasHeadWith h f.narrowLoads :=
  hasHead_sweepOver (fun _ id hg => hasHead_narrowLoad _ hg id) hf _

theorem hasHead_addStackAllocas (hf : f.head = h) (e : BlockId) (slots : StackSlots) :
    HasHeadWith h (f.addStackAllocas e slots) := by
  refine Ensures.foldlM (I := fun acc : Func × List (InstId × StackSlot) => acc.1.head = h)
    (fun acc x hacc => ?_) hf
  exact .bind_any fun ids => (hasHead_insertInst hacc e _ _).bind fun r hr => .pure hr

theorem hasHead_promoteStack (hf : f.head = h) (stack : Value) :
    HasHeadWith h (f.promoteStack stack) := by
  unfold promoteStack
  split
  · exact .pure hf
  · refine .bind_any fun o => ?_
    split
    · exact .pure hf
    · exact .pure hf
    · refine (hasHead_addStackAllocas hf _ _).bind fun r hr => ?_
      refine (hasHead_removeInsts (f := r.1.mapOperands _) hr _).bind fun g hg => ?_
      exact (hasHead_promoteAllocas hg _).bind fun r' hr' => .pure hr'

theorem hasHead_flattenMemory (hf : f.head = h) (memory : Nat) :
    HasHeadWith h (f.flattenMemory memory) := by
  refine hasHead_sweepOver (fun g id hg => ?_) hf _
  refine .bind_any fun kind => ?_
  split
  · split
    · exact .pure ((head_modifyKind g id _).trans hg)
    · exact .pure hg
  · exact .pure hg

end Func

open Func

/-- No pass on functions touches what stands outside the arenas. -/
theorem FunctionPass.run_head {pass : FunctionPass} {f g : Func} {changed : Bool}
    (h : pass.run f = .ok (g, changed)) : g.head = f.head := by
  have hkept : HasHeadWith f.head (pass.run f) := by
    cases pass with
    | promoteSlots => exact hasHead_promoteSlots rfl
    | combine => exact hasHead_combine rfl
    | simplifyGraph => exact hasHead_simplifyGraph rfl
    | numberEarly memoryAware => exact hasHead_number rfl _
    | dropUnused => exact hasHead_dropUnused rfl
    | numberGlobal => exact hasHead_number rfl _
    | dropUnneeded => exact hasHead_dropUnneeded rfl
  exact hkept _ h

end BinaryLift
