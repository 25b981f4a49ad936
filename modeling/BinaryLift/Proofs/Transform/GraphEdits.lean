import BinaryLift.Proofs.Graph.Dominance
import BinaryLift.Proofs.Program.Bookkeeping
import BinaryLift.Proofs.Transform.Rounds
import BinaryLift.Transform.ControlFlow

/-!
# What the steps that simplify control flow do

The steps are read where no more is known of a function than that its arenas agree and that control
stays within live blocks. Each returns, and it returns the function as it was or a function with a
jump for another terminator, without some blocks, or with a block appended to the one before it. What
phis receive, and which values instructions read, does not matter here.
-/

namespace BinaryLift

theorem Terminator.eq_jump_of_successors {t : Terminator} {b : BlockId} (h : t.successors = [b]) :
    t = .jump b := by
  cases t with
  | jump c => rw [List.singleton_inj.1 h]
  | _ => cases h

namespace Func

variable {f g h : Func} {b c pred : BlockId} {id : InstId} {data : Block}

/-- The arenas agree, the entry is live, and terminators name live blocks. -/
structure Routed (f : Func) : Prop where
  consistent : f.Consistent
  entry : f.EntryLive
  targets : ∀ b data, f.block? b = some data → ∀ s ∈ data.term.successors,
    f.containsBlock s = true

theorem WellFormed.routed (h : f.WellFormed) : f.Routed := ⟨h.consistent, h.entry, h.targets⟩

theorem mem_blockIds : b ∈ f.blockIds ↔ f.containsBlock b = true := by
  rw [blockIds, List.mem_map, containsBlock_iff]
  constructor
  · rintro ⟨⟨_, data⟩, hx, rfl⟩
    exact ⟨data, mem_liveBlocks.1 hx⟩
  · rintro ⟨data, hdata⟩
    exact ⟨(b, data), mem_liveBlocks.2 hdata, rfl⟩

theorem term_eq (hdata : f.block? b = some data) : f.term b = .ok data.term := by
  unfold term
  rw [block_eq_ok.2 hdata]
  rfl

theorem containsBlock_of_addressBlock {w : Word} (h : f.addressBlock w = some b) :
    f.containsBlock b = true := by
  obtain ⟨e, he, rfl⟩ := Option.map_eq_some_iff.1 h
  exact containsBlock_iff.2 ⟨e.2, mem_liveBlocks.1 (List.mem_of_find?_eq_some he)⟩

/-! ### The same graph -/

theorem sameGraph_mapOperands (f : Func) (k : Value → Value) : f.SameGraph (f.mapOperands k) := by
  refine ⟨rfl, fun b => ?_⟩
  rw [block?_mapOperands, Option.map_map]
  congr 1
  funext data
  exact Terminator.successors_mapOperands _ data.term

theorem sameGraph_replaceAllUses (f : Func) (v w : Value) : f.SameGraph (f.replaceAllUses v w) := by
  unfold replaceAllUses
  split
  · exact .refl f
  · exact f.sameGraph_mapOperands _

theorem Without.sameGraph {ids : List InstId} (h : f.Without ids g) : f.SameGraph g := by
  refine ⟨h.entry, fun b => ?_⟩
  rw [h.block? b, Option.map_map]
  rfl

theorem Retold.sameGraph (h : f.Retold g) : f.SameGraph g := by
  refine ⟨h.layout.entry, fun b => ?_⟩
  rw [h.block b]

theorem Routed.of_sameGraph (hf : f.Routed) (hg : f.SameGraph g) (hc : g.Consistent) : g.Routed where
  consistent := hc
  entry := by
    intro e he
    rw [hg.containsBlock]
    exact hf.entry e (hg.entry.symm.trans he)
  targets := by
    intro b data' hdata' s hs
    obtain ⟨data, hdata, hsucc⟩ := hg.old hdata'
    rw [hg.containsBlock]
    exact hf.targets b data hdata s (hsucc ▸ hs)

/-! ### Branches -/

/-- Some phis have been told, and the block jumps to a live one where it did not jump. -/
structure Straightened (f g : Func) (b : BlockId) : Prop where
  steps : ∃ told target, f.Retold told ∧ f.containsBlock target = true ∧
    told.setTerm b (.jump target) = .ok g
  was : ∃ data, f.block? b = some data ∧ ∀ s, data.term ≠ .jump s

theorem setJump_cases (htold : f.Retold h) (hdata : f.block? b = some data)
    (hterm : ∀ s, data.term ≠ .jump s) (hc : f.containsBlock c = true) :
    ∃ g changed, (do return (← h.setTerm b (.jump c), true) : Transformed) = .ok (g, changed) ∧
      ((changed = false ∧ g = f) ∨ changed = true ∧ f.Straightened g b) := by
  have hset : h.setTerm b (.jump c) = .ok (h.putBlock b (some { data with term := .jump c })) :=
    modifyBlock_eq_ok.2 ⟨data, (htold.block b).trans hdata, rfl⟩
  refine ⟨_, true, by rw [hset]; rfl, .inr ⟨rfl, ?_⟩⟩
  exact ⟨⟨h, c, htold, hc, hset⟩, data, hdata, hterm⟩

/-- A branch whose target is settled becomes a jump, and so does an indirect jump to the recorded
address of a block without phis. -/
theorem foldBranch_cases (hf : f.Routed) (hb : f.containsBlock b = true) :
    ∃ g changed, f.foldBranch b = .ok (g, changed) ∧
      ((changed = false ∧ g = f) ∨ changed = true ∧ f.Straightened g b) := by
  obtain ⟨data, hdata⟩ := containsBlock_iff.1 hb
  have htargets := hf.targets b data hdata
  have hstays : ∃ g changed, (return (f, false) : Transformed) = .ok (g, changed) ∧
      ((changed = false ∧ g = f) ∨ changed = true ∧ f.Straightened g b) :=
    ⟨f, false, rfl, .inl ⟨rfl, rfl⟩⟩
  unfold foldBranch
  simp only [term_eq hdata, bind, Except.bind]
  split
  · rename_i k x y hterm
    have hother : ∀ s, data.term ≠ .jump s := by simp [hterm]
    have htaken : f.containsBlock (if k.isZero then y else x) = true := by
      apply htargets
      rw [hterm]
      split <;> simp [Terminator.successors]
    generalize (if k.isZero = true then y else x) = taken at htaken ⊢
    generalize (if k.isZero = true then x else y) = dropped
    split
    · rename_i hdrop
      obtain ⟨told, htold, hretold⟩ := removePhiIncoming_retold hdrop.2 b
      rw [htold]
      exact setJump_cases hretold hdata hother htaken
    · exact setJump_cases (.refl f) hdata hother htaken
  · rename_i v x y _ hterm
    have hx : f.containsBlock x = true := htargets x (by rw [hterm]; exact List.mem_cons_self)
    split
    · exact setJump_cases (.refl f) hdata (by simp [hterm]) hx
    · exact hstays
  · rename_i k hterm
    split
    · exact hstays
    · rename_i target haddress
      have htarget := containsBlock_of_addressBlock haddress
      simp only [phis_eq htarget]
      split
      · exact setJump_cases (.refl f) hdata (by simp [hterm]) htarget
      · exact hstays
  · exact hstays

namespace Straightened

theorem block (h : f.Straightened g b) : ∃ data target, f.block? b = some data ∧
    (∀ s, data.term ≠ .jump s) ∧ f.containsBlock target = true ∧
    ∀ x, g.block? x = if x = b then some { data with term := .jump target } else f.block? x := by
  obtain ⟨⟨told, target, htold, htarget, hset⟩, data, hdata, hterm⟩ := h
  refine ⟨data, target, hdata, hterm, htarget, fun x => ?_⟩
  have hblock := block?_of_modifyBlock hset x
  rw [htold.block, htold.block, hdata] at hblock
  exact hblock

theorem layout (h : f.Straightened g b) : f.SameLayout g := by
  obtain ⟨told, _, htold, _, hset⟩ := h.steps
  exact htold.layout.trans (setTerm_sameLayout hset)

theorem routed (h : f.Straightened g b) (hf : f.Routed) : g.Routed where
  consistent := h.layout.consistent hf.consistent
  entry := by
    intro e he
    rw [h.layout.live]
    exact hf.entry e (h.layout.entry.symm.trans he)
  targets := by
    obtain ⟨data, target, _, _, htarget, hblock⟩ := h.block
    intro x data' hdata' s hs
    rw [h.layout.live]
    rw [hblock x] at hdata'
    split at hdata'
    · cases hdata'
      rw [List.mem_singleton.1 hs]
      exact htarget
    · exact hf.targets x data' hdata' s hs

end Straightened

/-! ### Blocks that cannot be reached -/

theorem exists_reachable_list (hentry : f.EntryLive) :
    ∃ rpo, f.reversePostorder = .ok rpo ∧ ∀ b, b ∈ rpo ↔ f.Reachable b := by
  cases he : f.entry with
  | none =>
    refine ⟨[], by unfold reversePostorder; rw [he]; rfl, fun b => ?_⟩
    simp only [List.not_mem_nil, false_iff]
    rintro ⟨p, hp⟩
    exact hp.entry_ne_none he
  | some e =>
    obtain ⟨rpo, hrpo, hordered⟩ := reversePostorder_ordered he (hentry e he)
    exact ⟨rpo, hrpo, hordered.mem_iff⟩

/-- The phis that can be reached forget what comes in from `dead`. -/
def forget (f : Func) (rpo dead : List BlockId) : Checked Func :=
  dead.foldlM (fun f b => do
    let succs ← f.successors b
    (succs.filter (· ∈ rpo)).foldlM (fun f s => f.removePhiIncoming s b) f) f

theorem forget_retold (rpo dead : List BlockId) (hdead : ∀ b ∈ dead, f.containsBlock b = true)
    (hrpo : ∀ s ∈ rpo, f.containsBlock s = true) :
    ∃ told, f.forget rpo dead = .ok told ∧ f.Retold told := by
  refine foldlM_spec _ (I := fun _ g => f.Retold g) (l := dead) ?_ (.refl f)
  intro pre b post g hsplit hg
  have hb : b ∈ dead := hsplit ▸ List.mem_append_right _ List.mem_cons_self
  obtain ⟨data, hdata⟩ := containsBlock_iff.1 (hdead b hb)
  have htell : ∀ (f : Func) s, f.containsBlock s = true →
      ∃ g, f.removePhiIncoming s b = .ok g ∧ f.Retold g :=
    fun _ _ hs => removePhiIncoming_retold hs b
  obtain ⟨h, hh, hgh⟩ := foldlM_retold (f := g) htell (data.term.successors.filter (· ∈ rpo)) (by
    intro s hs
    rw [hg.layout.live]
    exact hrpo s (by simpa using (List.mem_filter.1 hs).2))
  refine ⟨h, ?_, hg.trans hgh⟩
  rw [successors_eq_ok ((hg.block b).trans hdata)]
  exact hh

/-- Phis have been told of the blocks that cannot be reached, and these are gone. -/
structure Pruned (f g : Func) (dead : List BlockId) : Prop where
  steps : ∃ rpo told, (∀ x, x ∈ rpo ↔ f.Reachable x) ∧ f.forget rpo dead = .ok told ∧
    f.Retold told ∧ told.Removed dead g
  mem_dead : ∀ x, x ∈ dead ↔ f.containsBlock x = true ∧ ¬ f.Reachable x
  same : dead = [] → g = f

theorem removeUnreachable_cases (hf : f.Routed) :
    ∃ g dead, f.removeUnreachable = .ok (g, !dead.isEmpty) ∧ f.Pruned g dead := by
  obtain ⟨rpo, hrpo, hmem⟩ := exists_reachable_list hf.entry
  obtain ⟨dead, hdead⟩ : ∃ dead, dead = f.blockIds.filter (· ∉ rpo) := ⟨_, rfl⟩
  have hin : ∀ x, x ∈ dead ↔ f.containsBlock x = true ∧ ¬ f.Reachable x := by
    intro x
    rw [hdead, List.mem_filter, mem_blockIds, decide_eq_true_eq, hmem]
  -- the phis behind dead blocks are told; terminators stay as they are
  obtain ⟨told, htold, hretold⟩ := forget_retold rpo dead (fun b hb => ((hin b).1 hb).1)
    fun s hs => ((hmem s).1 hs).live
  have hentry : ∀ e, told.entry = some e → e ∉ dead := by
    intro e he hed
    rw [hretold.layout.entry] at he
    exact ((hin e).1 hed).2 (.entry he (hf.entry e he))
  have hremoved := removeBlocks_spec (hretold.layout.consistent hf.consistent) hentry
  refine ⟨told.removeBlocks dead, dead, ?_,
    ⟨rpo, told, hmem, htold, hretold, hremoved⟩, hin, ?_⟩
  · unfold forget at htold
    unfold removeUnreachable
    simp only [hrpo, bind, Except.bind] at htold ⊢
    rw [← hdead, htold]
    rfl
  · rintro rfl
    exact (Except.ok.inj htold).symm

namespace Pruned

variable {dead : List BlockId}

theorem block (h : f.Pruned g dead) (x : BlockId) :
    g.block? x = if x ∈ dead then none else f.block? x := by
  obtain ⟨_, told, _, _, htold, hremoved⟩ := h.steps
  rw [hremoved.block?, htold.block]

theorem reachable_of_live (h : f.Pruned g dead) {x : BlockId} (hx : g.block? x = some data) :
    f.block? x = some data ∧ f.Reachable x := by
  rw [h.block x] at hx
  split at hx
  · cases hx
  · rename_i hnot
    refine ⟨hx, ?_⟩
    by_contra hreach
    exact hnot ((h.mem_dead x).2 ⟨containsBlock_iff.2 ⟨data, hx⟩, hreach⟩)

theorem live (h : f.Pruned g dead) {x : BlockId} (hx : g.containsBlock x = true) :
    f.containsBlock x = true := by
  obtain ⟨data, hdata⟩ := containsBlock_iff.1 hx
  exact (h.reachable_of_live hdata).2.live

/-- Where nothing was to be removed, everything that is live can be reached. -/
theorem reachable (h : f.Pruned g dead) (hdead : (!dead.isEmpty) = false) {x : BlockId}
    (hx : f.containsBlock x = true) : f.Reachable x := by
  by_contra hnot
  rw [Bool.not_eq_false', List.isEmpty_iff] at hdead
  exact List.not_mem_nil (hdead ▸ (h.mem_dead x).2 ⟨hx, hnot⟩)

theorem live_of_reachable (h : f.Pruned g dead) {x : BlockId} (hx : f.Reachable x) :
    g.containsBlock x = true := by
  rw [containsBlock, h.block x, if_neg fun hdead => ((h.mem_dead x).1 hdead).2 hx]
  exact hx.live

theorem routed (h : f.Pruned g dead) (hf : f.Routed) : g.Routed where
  consistent := by
    obtain ⟨_, told, _, _, htold, hremoved⟩ := h.steps
    exact hremoved.consistent (htold.layout.consistent hf.consistent)
  entry := by
    obtain ⟨_, told, _, _, htold, hremoved⟩ := h.steps
    intro e he
    rw [hremoved.entry, htold.layout.entry] at he
    exact h.live_of_reachable (.entry he (hf.entry e he))
  targets := by
    intro x data hdata s hs
    obtain ⟨hdata, hreach⟩ := h.reachable_of_live hdata
    exact h.live_of_reachable (hreach.step ⟨data, hdata, hs, hf.targets x data hdata s hs⟩)

end Pruned

/-! ### Chains of blocks -/

/-- The block `pred` jumps to `b`, and nothing else leads there. -/
structure Joins (f : Func) (pred b : BlockId) : Prop where
  ne : pred ≠ b
  ne_entry : f.entry ≠ some b
  live : f.containsBlock b = true
  jumps : ∃ data, f.block? pred = some data ∧ data.term = .jump b
  sole : ∀ x, f.Edge x b → x = pred

theorem soleJumper?_spec (f : Func) (b : BlockId) :
    ∃ o, f.soleJumper? b = .ok o ∧ ∀ pred, o = some pred → f.Joins pred b := by
  unfold soleJumper?
  by_cases hout : (!f.containsBlock b || f.entry == some b) = true
  · rw [if_pos hout]
    exact ⟨none, rfl, fun _ h => nomatch h⟩
  rw [if_neg hout]
  obtain ⟨hlive, hentry⟩ : f.containsBlock b = true ∧ f.entry ≠ some b := by simpa using hout
  split
  · rename_i pred hpreds
    by_cases hself : pred = b
    · exact ⟨none, by simp only [hself, if_true]; rfl, fun _ h => nomatch h⟩
    have hmem : pred ∈ f.predsOf b := by
      rw [hpreds]
      exact List.mem_singleton_self _
    obtain ⟨pdata, hpdata, hsucc⟩ := mem_predsOf.1 hmem
    simp only [hself, if_false, term_eq hpdata, bind, Except.bind, pure, Except.pure]
    by_cases hjump : pdata.term = .jump b
    · refine ⟨some pred, by rw [if_pos hjump], ?_⟩
      rintro _ ⟨rfl⟩
      refine ⟨hself, hentry, hlive, ⟨pdata, hpdata, hjump⟩, fun x hx => ?_⟩
      rw [← mem_predsOf_iff_edge hlive, hpreds] at hx
      exact List.mem_singleton.1 hx
    · exact ⟨none, by rw [if_neg hjump], fun _ h => nomatch h⟩
  · exact ⟨none, rfl, fun _ h => nomatch h⟩

theorem SameGraph.joins (hg : f.SameGraph g) (h : f.Joins pred b) : g.Joins pred b where
  ne := h.ne
  ne_entry := by
    rw [hg.entry]
    exact h.ne_entry
  live := by
    rw [hg.containsBlock]
    exact h.live
  jumps := by
    obtain ⟨data, hdata, hterm⟩ := h.jumps
    obtain ⟨data', hdata', hsucc⟩ := hg.symm.old hdata
    refine ⟨data', hdata', Terminator.eq_jump_of_successors (hsucc.trans ?_)⟩
    rw [hterm]
    rfl
  sole := fun x hx => h.sole x (hg.edge.1 hx)

theorem dissolvePhi_eq {inc : List (BlockId × Value)} {ty : Option Ty}
    (hi : f.inst? id = some ⟨.phi inc, ty⟩) :
    f.dissolvePhi id =
      (f.replaceAllUses (.inst id) ((inc.head?.map (·.2)).getD (.inst id))).removeInst id := by
  have hself : f.replaceAllUses (.inst id) (.inst id) = f := if_pos rfl
  unfold dissolvePhi
  rw [kind_of_inst? hi]
  cases inc with
  | nil =>
    rw [List.head?_nil, Option.map_none, Option.getD_none, hself]
    rfl
  | cons e inc =>
    obtain ⟨q, v⟩ := e
    rw [List.head?_cons, Option.map_some, Option.getD_some]
    by_cases hv : v = .inst id
    · rw [hv, hself]
      simp only [bind, Except.bind, pure, Except.pure, if_true]
    · simp only [bind, Except.bind, pure, Except.pure, hv, if_false]

theorem dissolvePhi_returns (hc : f.Consistent) (hid : id.index < f.arena.size) :
    ∃ g, f.dissolvePhi id = .ok g ∧ g.Consistent ∧ f.SameGraph g ∧ g.arena.size = f.arena.size := by
  obtain ⟨i, hi⟩ := exists_inst?_of_lt hid
  obtain ⟨v, hv⟩ : ∃ v, f.dissolvePhi id = (f.replaceAllUses (.inst id) v).removeInst id := by
    obtain ⟨kind, ty⟩ := i
    have hself : f.replaceAllUses (.inst id) (.inst id) = f := if_pos rfl
    cases kind with
    | phi inc => exact ⟨_, dissolvePhi_eq hi⟩
    | _ => exact ⟨.inst id, by unfold dissolvePhi; rw [kind_of_inst? hi, hself]; rfl⟩
  have hlayout := sameLayout_replaceAllUses f (.inst id) v
  have hc' := hlayout.consistent hc
  obtain ⟨g, hg, hwithout⟩ := removeInst_spec hc'.housed id
  refine ⟨g, hv.trans hg, hwithout.consistent hc', ?_, ?_⟩
  · exact (sameGraph_replaceAllUses f _ v).trans hwithout.sameGraph
  · exact (size_arena_congr hwithout.inst?).trans hlayout.arena

/-- In `g` the block `b` has joined its predecessor; before that, its phis have gone. -/
structure Attached (f g : Func) (pred b : BlockId) : Prop where
  joins : f.Joins pred b
  steps : ∃ mid, f.SameGraph mid ∧ mid.Consistent ∧ mid.Absorbs pred b g

theorem mergeChain_cases (hc : f.Consistent) (b : BlockId) :
    ∃ g changed, f.mergeChain b = .ok (g, changed) ∧
      ((changed = false ∧ g = f) ∨ changed = true ∧ ∃ pred, f.Attached g pred b) := by
  obtain ⟨o, ho, hjoins⟩ := soleJumper?_spec f b
  unfold mergeChain
  rw [ho]
  cases o with
  | none => exact ⟨f, false, rfl, .inl ⟨rfl, rfl⟩⟩
  | some pred =>
    have hj := hjoins pred rfl
    obtain ⟨mid, hmid, hcmid, hgraph, _⟩ := foldlM_spec dissolvePhi
      (I := fun _ g => g.Consistent ∧ f.SameGraph g ∧ g.arena.size = f.arena.size)
      (l := f.phisOf b) (by
        rintro pre id post g hsplit ⟨hcg, hgraph, hsize⟩
        have hid : id ∈ f.phisOf b := hsplit ▸ List.mem_append_right _ List.mem_cons_self
        obtain ⟨data, hdata, hmem⟩ := exists_block_of_mem ((f.phisOf_prefix b).subset hid)
        have hlt : id.index < g.arena.size := hsize ▸ hc.index_lt hdata hmem
        obtain ⟨g', hg', hcg', hgraph', hsize'⟩ := dissolvePhi_returns hcg hlt
        exact ⟨g', hg', hcg', hgraph.trans hgraph', hsize'.trans hsize⟩)
      ⟨hc, .refl f, rfl⟩
    have hjmid := hgraph.joins hj
    obtain ⟨bdata, hbdata⟩ := containsBlock_iff.1 hjmid.live
    obtain ⟨pdata, hpdata, _⟩ := hjmid.jumps
    obtain ⟨g, hg⟩ := mergeBlocks_returns hcmid (containsBlock_iff.2 ⟨pdata, hpdata⟩) b
    refine ⟨g, true, ?_, .inr ⟨rfl, pred, hj, mid, hgraph, hcmid, ?_⟩⟩
    · simp only [bind, Except.bind, phis_eq hj.live, hmid, hg]
      rfl
    · exact absorbs_of_mergeBlocks hcmid hj.ne hjmid.ne_entry hbdata hg

theorem Attached.routed (h : f.Attached g pred b) (hf : f.Routed) : g.Routed := by
  obtain ⟨hj, mid, hgraph, hc, habsorbs⟩ := h
  have hmid := hf.of_sameGraph hgraph hc
  have hjmid := hgraph.joins hj
  obtain ⟨pdata, bdata, hpdata, hbdata, hblock⟩ := habsorbs.block
  have hlive : ∀ x, x ≠ b → mid.containsBlock x = true → g.containsBlock x = true := by
    intro x hx hlive
    rw [containsBlock, hblock x, if_neg hx]
    split
    · rfl
    · exact hlive
  -- only the predecessor has led to the block
  have hstays : ∀ y data, mid.block? y = some data → y ≠ pred → ∀ s ∈ data.term.successors,
      g.containsBlock s = true := by
    intro y data hdata hy s hs
    have hs' := hmid.targets y data hdata s hs
    refine hlive s ?_ hs'
    rintro rfl
    exact hy (hjmid.sole y ⟨data, hdata, hs, hs'⟩)
  refine ⟨habsorbs.consistent hc, ?_, ?_⟩
  · intro e he
    rw [habsorbs.entry] at he
    refine hlive e ?_ (hmid.entry e he)
    rintro rfl
    exact hjmid.ne_entry he
  · intro x data' hdata'
    rw [hblock x] at hdata'
    split at hdata'
    · cases hdata'
    · split at hdata'
      · cases hdata'
        exact hstays b bdata hbdata (Ne.symm hj.ne)
      · exact hstays x data' hdata' ‹_›

end Func

end BinaryLift
