import BinaryLift.Pipeline.Pass
import BinaryLift.Proofs.Program.Checks
import BinaryLift.Proofs.Run.PrivateSlots
import BinaryLift.Proofs.Transform.CombinationRounds
import BinaryLift.Proofs.Transform.GraphEdits
import BinaryLift.Proofs.Transform.GraphRounds
import BinaryLift.Proofs.Transform.Memory
import BinaryLift.Proofs.Transform.StackPromotion

/-!
# Whole functions

What takes instructions out, rewrites them or replaces their results leaves blocks and edges as they
were, whatever the function looks like.

Where control can come to every block, what holds of reachable code holds of all of it: it is typed,
it names only results that are there, and no instruction is computed from itself. Simplification of
control flow leaves such functions, and the other passes keep them.
-/

namespace BinaryLift.Func

/-! ### Blocks and edges that stay -/

variable {f g : Func} {α : Type}

/-- Whatever the computation returns has the blocks and edges of `f`. -/
abbrev KeepsEdges (f : Func) (x : Checked Func) : Prop := Ensures f.SameGraph x

/-- The same for computations that return something else as well. -/
abbrev KeepsEdgesWith (f : Func) (x : Checked (Func × α)) : Prop :=
  Ensures (fun r => f.SameGraph r.1) x

/-! ### Edits -/

theorem sameGraph_applyReplacements (f : Func) (t : Replacements) :
    f.SameGraph (f.applyReplacements t) := by
  unfold applyReplacements
  split
  · exact .refl f
  · exact f.sameGraph_mapOperands _

theorem keepsEdges_removeInst (hg : f.SameGraph g) (id : InstId) : f.KeepsEdges (g.removeInst id) := by
  unfold removeInst
  split
  · exact .pure hg
  · refine Ensures.bind (P := f.SameGraph) (fun g' hg' => hg.trans ⟨?_, fun c => ?_⟩)
      fun g' hg' => .pure ⟨hg'.entry, hg'.block⟩
    · obtain ⟨_, _, rfl⟩ := modifyBlock_eq_ok.1 hg'
      rfl
    · rw [block?_of_modifyBlock hg' c]
      split
      · rename_i hc
        rw [hc, Option.map_map]
        rfl
      · rfl

theorem keepsEdges_removeInsts (hg : f.SameGraph g) (ids : List InstId) :
    f.KeepsEdges (g.removeInsts ids) :=
  .foldlM (fun _ id hg => keepsEdges_removeInst hg id) hg

theorem keepsEdges_substitute (hg : f.SameGraph g) (t : Replacements) :
    f.KeepsEdgesWith (g.substitute t) := by
  unfold substitute
  split
  · exact .pure hg
  · exact (keepsEdges_removeInsts (hg.trans (g.sameGraph_applyReplacements t)) _).bind
      fun _ hg' => .pure hg'

theorem keepsEdges_sweepOver {step : Func → α → Transformed}
    (hstep : ∀ g a, f.SameGraph g → f.KeepsEdgesWith (step g a)) (hg : f.SameGraph g)
    (items : List α) : f.KeepsEdgesWith (sweepOver step g items) :=
  fun _ hr => sweepOver_keeps (I := f.SameGraph) (fun a g _ _ hg hrun => hstep g a hg _ hrun) hg hr

theorem keepsEdges_untilStable {round : Func → Transformed}
    (hround : ∀ g, f.SameGraph g → f.KeepsEdgesWith (round g)) (hg : f.SameGraph g) (n : Nat) :
    f.KeepsEdgesWith (untilStable round n g) :=
  fun _ hr => untilStable_keeps (I := f.SameGraph) (fun g _ _ hg hrun => hround g hg _ hrun) hg hr

/-! ### Passes -/

theorem keepsEdges_combineInst (dom : DomTree) (hg : f.SameGraph g) (id : InstId) :
    f.KeepsEdgesWith (combineInst dom g id) := by
  unfold combineInst
  split
  · exact .pure hg
  · refine Ensures.bind (P := fun r => f.SameGraph r.1) ?_ fun r hr => ?_
    · unfold canonicalize
      refine .bind_any fun i => .bind_any fun o => ?_
      split
      · exact .pure ⟨hg.entry, hg.block⟩
      · exact .pure hg
    · refine .bind_any fun o => ?_
      split
      · exact (keepsEdges_removeInst (hr.trans (r.1.sameGraph_replaceAllUses _ _)) id).bind
          fun _ hg' => .pure hg'
      · exact .pure hr

theorem keepsEdges_combine (f : Func) : f.KeepsEdgesWith f.combine :=
  .bind_any fun dom => keepsEdges_untilStable (fun g hg => keepsEdges_sweepOver
    (fun _ id hg => keepsEdges_combineInst dom hg id) hg g.liveInsts) (.refl f) _

theorem keepsEdges_number (f : Func) (p : NumberingPolicy) : f.KeepsEdgesWith (f.number p) :=
  .bind_any fun _ => .bind_any fun done => keepsEdges_substitute (.refl f) done.replaced

theorem keepsEdges_dropUnused (f : Func) : f.KeepsEdgesWith f.dropUnused := by
  refine keepsEdges_untilStable (fun g hg => ?_) (.refl f) _
  unfold dropUnusedOnce
  refine .bind_any fun dead => ?_
  split
  · exact .pure hg
  · exact (keepsEdges_removeInsts hg dead).bind fun _ hg' => .pure hg'

theorem keepsEdges_dropUnneeded (f : Func) : f.KeepsEdgesWith f.dropUnneeded :=
  .bind_any fun _ => (keepsEdges_removeInsts (.refl f) _).bind fun _ hg => .pure hg

/-! ### Functions that control comes to -/

variable {id j : InstId} {i : Inst} {b : BlockId}

/-- Control can come to every block. -/
def Whole (f : Func) : Prop := ∀ b, f.containsBlock b = true → f.Reachable b

theorem Whole.of_sameGraph (hf : f.Whole) (h : f.SameGraph g) : g.Whole := by
  intro b hb
  rw [h.containsBlock] at hb
  exact h.reachable.2 (hf b hb)

theorem whole_of_rest (hf : f.Routed) (h : f.simplifyGraphOnce = .ok (f, false)) : f.Whole :=
  fun _ hb => reachable_of_rest hf h hb

theorem simplifyGraph_whole (hf : f.Routed) {changed : Bool}
    (h : f.simplifyGraph = .ok (g, changed)) : g.Whole := by
  obtain ⟨g', changed', hg', hrouted, hrest⟩ := simplifyGraph_rests hf
  rw [h] at hg'
  cases hg'
  exact whole_of_rest hrouted hrest

namespace Whole

theorem of_mem (hw : f.Whole) (hid : id ∈ f.instsOf b) : f.Reachable b := by
  obtain ⟨data, hdata, _⟩ := exists_block_of_mem hid
  exact hw b (containsBlock_iff.2 ⟨data, hdata⟩)

theorem home (hw : f.Whole) (hc : f.Consistent) (hlive : f.isLive id = true) :
    ∃ b, f.Reachable b ∧ id ∈ f.instsOf b := by
  obtain ⟨b, hb⟩ := exists_mem_of_isLive hc hlive
  exact ⟨b, hw.of_mem hb, hb⟩

/-- Phis receive from blocks that control comes from. -/
theorem pred (hw : f.Whole) (hwf : f.WellFormed) {inc : List (BlockId × Value)} {ty : Option Ty}
    (hid : id ∈ f.instsOf b) (hi : f.inst? id = some ⟨.phi inc, ty⟩) {e : BlockId × Value}
    (he : e ∈ inc) : f.Reachable e.1 := by
  obtain ⟨data, hdata, hmem⟩ := exists_block_of_mem hid
  obtain ⟨qdata, hqdata, _⟩ := (hwf.incoming b data id inc ty hdata hmem hi).2 e he
  exact hw e.1 (containsBlock_iff.2 ⟨qdata, hqdata⟩)

end Whole

theorem isLive_of_available (hc : f.Consistent) {pre : List InstId} (hb : f.Reachable b)
    (hpre : pre ⊆ f.instsOf b) (hj : f.Available b pre j) : f.isLive j = true := by
  obtain ⟨c, hjc, _⟩ := hc.home_of_available hb hpre hj
  rw [isLive, hjc]
  rfl

namespace Settled

variable (hf : f.Settled) (hw : f.Whole)

include hf hw

theorem wellTyped : f.WellTyped := by
  refine wellTyped_iff.2 fun id i hlive hi => ?_
  obtain ⟨b, hb, hid⟩ := hw.home hf.wellFormed.consistent hlive
  cases hphi : i.kind.isPhi with
  | false => exact hf.orderly.typed b id i hb hid hi hphi
  | true =>
    obtain ⟨kind, ty⟩ := i
    cases kind with
    | phi inc =>
      obtain ⟨hsome, hinc⟩ := hf.orderly.phi b id inc ty hb hid hi
      refine ⟨hsome, fun e he => ?_⟩
      exact (hinc e.1 e.2 he (hw.pred hf.wellFormed hid hi he)).1
    | _ => cases hphi

/-- What live code names is the result of a live instruction. -/
theorem operand_live (hlive : f.isLive id = true) (hi : f.inst? id = some i)
    (hj : .inst j ∈ i.kind.operands) : f.isLive j = true := by
  have hc := hf.wellFormed.consistent
  obtain ⟨b, hb, hid⟩ := hw.home hc hlive
  cases hphi : i.kind.isPhi with
  | false =>
    obtain ⟨before, after, hsplit⟩ := List.append_of_mem hid
    exact isLive_of_available hc hb (prefix_of_split hsplit).subset
      (hf.wellFormed.use hb hsplit hi hphi hj)
  | true =>
    obtain ⟨kind, ty⟩ := i
    cases kind with
    | phi inc =>
      obtain ⟨⟨q, v⟩, he, rfl⟩ := List.mem_map.1 hj
      have hq := hw.pred hf.wellFormed hid hi he
      exact isLive_of_available hc hq (List.Subset.refl _) (hf.wellFormed.phiUse hb hid hi he hq)
    | _ => cases hphi

theorem term_operand_live {data : Block} (hdata : f.block? b = some data)
    (hj : .inst j ∈ data.term.operands) : f.isLive j = true := by
  have hb := hw b (containsBlock_iff.2 ⟨data, hdata⟩)
  exact isLive_of_available hf.wellFormed.consistent hb (List.Subset.refl _)
    (hf.wellFormed.termUse hb hdata hj)

theorem layered : f.Layered where
  operands := fun _ _ hlive hi _ hj => hf.operand_live hw hlive hi hj
  termOperands := fun _ _ hdata _ hj => hf.term_operand_live hw hdata hj
  acyclic := by
    intro id hcycle
    have hlive : f.isLive id = true := by
      obtain ⟨_, ⟨_, hlive, _⟩, _⟩ := Relation.TransGen.head'_iff.1 hcycle
      exact hlive
    obtain ⟨b, hb, hid⟩ := hw.home hf.wellFormed.consistent hlive
    exact hf.wellFormed.not_computed_from_self hb hid hcycle

theorem namesMade : f.NamesMade := by
  intro j u hu
  obtain ⟨b, data, hdata, ⟨id, i, hid, hi, hj, _⟩ | ⟨hj, _⟩⟩ := mem_usersOf.1 hu
  · have hlive := hf.wellFormed.consistent.isLive_of_mem (instsOf_eq hdata ▸ hid)
    exact index_lt_of_isLive (hf.operand_live hw hlive hi hj)
  · exact index_lt_of_isLive (hf.term_operand_live hw hdata hj)

theorem wideOffsets (stack : Value) : f.WideOffsets stack := by
  intro b a c o ha hi
  have hwords := hf.regular.words b a _ (hw.of_mem ha) ha hi
  exact Option.some.inj hwords

theorem inst?_of_wanted (hid : f.Wanted id) : (f.inst? id).isSome = true := by
  suffices hlive : f.isLive id = true by
    obtain ⟨b, hb⟩ := exists_mem_of_isLive hf.wellFormed.consistent hlive
    obtain ⟨i, hi⟩ := hf.wellFormed.consistent.inst?_of_mem hb
    rw [hi]
    rfl
  induction hid with
  | effects hid _ _ => exact hf.wellFormed.consistent.isLive_of_mem hid
  | term hdata hj => exact hf.term_operand_live hw hdata hj
  | operand _ hi hj ih => exact hf.operand_live hw ih hi hj

end Settled

end BinaryLift.Func
