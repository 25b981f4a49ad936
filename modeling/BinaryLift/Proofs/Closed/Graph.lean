import BinaryLift.Proofs.Closed.Rewrites
import BinaryLift.Proofs.Transform.GraphEdits

/-!
# Simplifying the control flow of closed functions

The four steps hold on to handles of blocks while blocks go. A step asks again whether its block is
live, the targets it writes are targets that were there, and a block goes only when no remaining block
leads to it.
-/

namespace BinaryLift.Func

variable {f g h : Func} {P : InstId → Prop} {b c pred target : BlockId} {id : InstId} {v : Value}
  {s : Prop}

/-! ### Blocks that stay -/

/-- The function `g` has come from `f` and keeps to `P`, and the same blocks are live. -/
structure Abides (P : InstId → Prop) (f g : Func) : Prop extends f.Stays P g where
  entry : g.entry = f.entry
  live : ∀ b, g.containsBlock b = f.containsBlock b

theorem Enclosed.abides (h : f.Enclosed P) : f.Abides P f := ⟨h.stays, rfl, fun _ => rfl⟩

theorem Abides.trans (hfg : f.Abides P g) (hgh : g.Abides P h) : f.Abides P h :=
  ⟨hfg.toStays.trans hgh.toStays, hgh.entry.trans hfg.entry, fun b => (hgh.live b).trans (hfg.live b)⟩

theorem Enclosed.abides_retold (h : f.Enclosed P) (hretold : f.Retold g) : f.Abides P g :=
  ⟨⟨h.retold hretold, Nat.le_of_eq hretold.layout.arena.symm⟩, hretold.layout.entry,
    hretold.layout.live⟩

theorem gives_phis (hb : f.containsBlock b = true) :
    Gives s (fun ids => ∀ id ∈ ids, id ∈ f.instsOf b) (f.phis b) :=
  .of_ok (phis_eq hb) fun _ hid => (f.phisOf_prefix b).subset hid

theorem Enclosed.routed (h : f.Enclosed P) : f.Routed := ⟨h.consistent, h.entry, h.targets⟩

namespace Enclosed

theorem gives_setTerm (h : f.Enclosed P) (hb : f.containsBlock b = true) {t : Terminator}
    (htargets : ∀ c ∈ t.successors, f.containsBlock c = true)
    (hterms : ∀ v ∈ t.operands, f.Knows P v) : Gives s (f.Abides P) (f.setTerm b t) := by
  obtain ⟨g, hg, hwithin, hlayout⟩ := h.setTerm hb htargets hterms
  exact .of_ok hg ⟨⟨hwithin, Nat.le_of_eq hlayout.arena.symm⟩, hlayout.entry, hlayout.live⟩

theorem gives_setJump (h : f.Enclosed P) (hb : f.containsBlock b = true)
    (hc : f.containsBlock c = true) : Gives s (f.Abides P) (f.setTerm b (.jump c)) := by
  refine h.gives_setTerm hb (fun d hd => ?_) nofun
  rw [List.mem_singleton.1 hd]
  exact hc

/-! ### Branches -/

theorem gives_foldBranch (h : f.Enclosed P) (hb : f.containsBlock b = true) :
    Gives s (fun r => f.Abides P r.1) (f.foldBranch b) := by
  obtain ⟨g, changed, hg, ⟨rfl, rfl⟩ | ⟨rfl, hstraight⟩⟩ := foldBranch_cases h.routed hb
  · exact .of_ok hg h.abides
  · obtain ⟨told, target, htold, htarget, hset⟩ := hstraight.steps
    have habides := h.abides_retold htold
    have hjump := habides.within.gives_setJump (s := True) ((habides.live b).trans hb)
      ((habides.live target).trans htarget)
    exact .of_ok hg (habides.trans (hjump.result hset))

theorem gives_foldBranches (h : f.Enclosed P) : Gives s (fun r => f.Abides P r.1) f.foldBranches := by
  refine .sweepOver (fun b hb g hg => ?_) h.abides
  have hlive := (hg.live b).trans (mem_blockIds.1 hb)
  exact (hg.within.gives_foldBranch hlive).mono fun r hr => hg.trans hr

/-! ### Blocks that control cannot reach -/

theorem gives_removeUnreachable (h : f.Enclosed P) :
    Gives s (fun r => f.Stays P r.1) f.removeUnreachable := by
  obtain ⟨g, dead, hg, hpruned⟩ := removeUnreachable_cases h.routed
  obtain ⟨_, told, _, _, htold, hremoved⟩ := hpruned.steps
  have habides := h.abides_retold htold
  have hentry : ∀ e, told.entry = some e → e ∉ dead := by
    intro e he hdead
    rw [habides.entry] at he
    exact ((hpruned.mem_dead e).1 hdead).2 (.entry he (h.entry e he))
  refine .of_ok hg ⟨habides.within.removed hremoved hentry fun b data hb hnot c hc hcdead => ?_, ?_⟩
  · -- a block that stays leads to blocks that can be reached
    have hkept : g.block? b = some data := by rw [hremoved.block?, if_neg hnot, hb]
    obtain ⟨hdata, hreach⟩ := hpruned.reachable_of_live hkept
    obtain ⟨hclive, hcnot⟩ := (hpruned.mem_dead c).1 hcdead
    exact hcnot (hreach.step ⟨data, hdata, hc, hclive⟩)
  · rw [size_arena_congr hremoved.inst?]
    exact habides.size

/-! ### Chains of blocks -/

theorem gives_dissolvePhi (h : f.Enclosed P) (hid : f.Knows P (.inst id)) :
    Gives s (fun g => f.Stays P g ∧ f.SameGraph g) (f.dissolvePhi id) := by
  unfold dissolvePhi
  refine (h.gives_kind hid).bind fun k hk => ?_
  have hremove : ∀ {g : Func}, f.Stays P g → f.SameGraph g →
      Gives s (fun g => f.Stays P g ∧ f.SameGraph g) (g.removeInst id) := by
    intro g hg hgraph
    obtain ⟨g', hg', hw⟩ := removeInst_spec hg.within.consistent.housed id
    exact .of_ok hg' ⟨hg.trans (hg.within.stays_without hw), hgraph.trans hw.sameGraph⟩
  dsimp only
  split
  · rename_i pred v rest
    refine .bind_ok rfl ?_
    split
    · exact hremove h.stays (.refl f)
    · have hv : f.Knows P v := hk.2 v List.mem_cons_self
      exact hremove (h.stays_replaceAllUses (.inst id) hv) (sameGraph_replaceAllUses f _ v)
  · exact .bind_ok rfl (hremove h.stays (.refl f))

theorem gives_mergeChain (h : f.Enclosed P) (b : BlockId) :
    Gives s (fun r => f.Stays P r.1) (f.mergeChain b) := by
  unfold mergeChain
  obtain ⟨o, ho, hjoins⟩ := soleJumper?_spec f b
  refine .bind_ok ho ?_
  cases o with
  | none => exact .pure h.stays
  | some pred =>
    have hj := hjoins pred rfl
    have hb := hj.live
    obtain ⟨pdata, hpdata, _⟩ := hj.jumps
    have hpred : f.containsBlock pred = true := containsBlock_iff.2 ⟨pdata, hpdata⟩
    refine (gives_phis hb).bind fun ids hids => ?_
    refine Gives.bind (Gives.foldlM (I := fun g => f.Stays P g ∧ f.SameGraph g)
      (fun id hid g hg => ?_) ⟨h.stays, .refl f⟩) fun g hg => ?_
    · have hknown := hg.1.knows (h.knows_of_mem (hids id hid))
      refine (hg.1.within.gives_dissolvePhi hknown).mono fun g' hg' => ?_
      exact ⟨hg.1.trans hg'.1, hg.2.trans hg'.2⟩
    · obtain ⟨hstays, hgraph⟩ := hg
      have hcon := hstays.within.consistent
      obtain ⟨g', hg'⟩ := mergeBlocks_returns hcon ((hgraph.containsBlock pred).trans hpred) b
      refine (Gives.of_ok (Q := f.Stays P) hg' ?_).bind fun g'' hg'' => .pure hg''
      rcases mergeBlocks_eq_ok hcon hg' with ⟨rfl, _⟩ | habsorbs
      · exact hstays
      · refine ⟨hstays.within.absorbs habsorbs fun c data hc hbs => ?_, ?_⟩
        · refine hj.sole c (hgraph.edge.1 ⟨data, hc, hbs, ?_⟩)
          exact (hgraph.containsBlock b).trans hb
        · rw [habsorbs.arena]
          exact hstays.size

theorem gives_mergeChains (h : f.Enclosed P) : Gives s (fun r => f.Stays P r.1) f.mergeChains :=
  .sweepOver (fun b _ _ hg => (hg.within.gives_mergeChain b).mono fun _ hr => hg.trans hr) h.stays

/-! ### Blocks that only jump on -/

theorem gives_forwardsTo? (h : f.Enclosed P) (b : BlockId) :
    Gives s (fun o => ∀ target, o = some target → f.containsBlock target = true)
      (f.forwardsTo? b) := by
  unfold forwardsTo?
  split
  · exact .pure nofun
  · rename_i hlive
    have hb : f.containsBlock b = true := by
      simp only [Bool.or_eq_true, not_or, Bool.not_eq_true', Bool.not_eq_false] at hlive
      exact hlive.1
    obtain ⟨data, hdata⟩ := containsBlock_iff.1 hb
    refine .bind_ok (block_eq_ok.2 hdata) ?_
    split
    · rename_i target hterm
      have htarget : f.containsBlock target = true :=
        h.targets b data hdata target (by rw [hterm]; exact List.mem_singleton_self target)
      split
      · exact .pure nofun
      · refine (gives_phis htarget).bind fun ids _ => .pure fun target' heq => ?_
        split at heq
        · cases heq
          exact htarget
        · cases heq
    · exact .pure nofun

theorem gives_redirect (h : f.Enclosed P) (hc : f.containsBlock c = true) (b : BlockId)
    (htarget : f.containsBlock target = true) :
    Gives s (f.Abides P) (f.modifyBlock c fun data =>
      { data with term := data.term.replaceSuccessor b target }) := by
  obtain ⟨data, hdata⟩ := containsBlock_iff.1 hc
  have hoperands : (data.term.replaceSuccessor b target).operands = data.term.operands := by
    cases data.term <;> rfl
  -- the change of the terminator is one that only reads it
  have hset : (f.modifyBlock c fun data =>
      { data with term := data.term.replaceSuccessor b target }) =
      f.setTerm c (data.term.replaceSuccessor b target) := by
    rw [Func.setTerm, modifyBlock_eq_ok.2 ⟨data, hdata, rfl⟩, modifyBlock_eq_ok.2 ⟨data, hdata, rfl⟩]
  rw [hset]
  refine h.gives_setTerm hc (fun d hd => ?_) fun v hv => h.terms c data hdata v (hoperands ▸ hv)
  rw [Terminator.successors_replaceSuccessor] at hd
  obtain ⟨d', hd', rfl⟩ := List.mem_map.1 hd
  split
  · exact htarget
  · exact h.targets c data hdata d' hd'

theorem gives_bypassForwarder (h : f.Enclosed P) (b : BlockId) :
    Gives s (fun r => f.Stays P r.1) (f.bypassForwarder b) := by
  unfold bypassForwarder
  refine (h.gives_forwardsTo? b).bind fun o ho => ?_
  cases o with
  | none => exact .pure h.stays
  | some target =>
    have htarget := ho target rfl
    refine Gives.bind (Gives.foldlM (I := f.Abides P) (fun c hc g hg => ?_) h.abides)
      fun g hg => .pure hg.toStays
    obtain ⟨data, hdata, _⟩ := mem_predsOf.1 (List.mem_of_mem_filter hc)
    have hlive : f.containsBlock c = true := containsBlock_iff.2 ⟨data, hdata⟩
    exact (hg.within.gives_redirect ((hg.live c).trans hlive) b
      ((hg.live target).trans htarget)).mono fun g' hg' => hg.trans hg'

theorem gives_bypassForwarders (h : f.Enclosed P) :
    Gives s (fun r => f.Stays P r.1) f.bypassForwarders :=
  .sweepOver (fun b _ _ hg => (hg.within.gives_bypassForwarder b).mono fun _ hr => hg.trans hr)
    h.stays

/-! ### All steps -/

theorem gives_simplifyGraphOnce (h : f.Enclosed P) :
    Gives s (fun r => f.Stays P r.1) f.simplifyGraphOnce := by
  unfold simplifyGraphOnce
  refine h.gives_foldBranches.bind fun r₁ h₁ => ?_
  refine h₁.within.gives_removeUnreachable.bind fun r₂ h₂ => ?_
  refine h₂.within.gives_mergeChains.bind fun r₃ h₃ => ?_
  refine h₃.within.gives_bypassForwarders.bind fun r₄ h₄ => .pure ?_
  exact h₁.toStays.trans (h₂.trans (h₃.trans h₄))

/-- Simplification for any number of rounds. -/
theorem gives_simplifyGraphRounds (h : f.Enclosed P) (n : Nat) :
    Gives True (fun r => f.Stays P r.1) (untilStable simplifyGraphOnce n f) :=
  .untilStable (fun _ hg => hg.within.gives_simplifyGraphOnce.mono fun _ hr => hg.trans hr) n h.stays

end Enclosed

end BinaryLift.Func
