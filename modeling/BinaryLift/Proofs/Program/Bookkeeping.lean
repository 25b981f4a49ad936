import BinaryLift.Program.Func.Editing
import BinaryLift.Proofs.Transform.BlockEdits
import BinaryLift.Proofs.Transform.Chains
import Mathlib.Data.List.Perm.Basic

/-!
# Keeping the arenas in step

The block list and the owner slots of the instructions are written separately. Each change of a
function keeps them in step, whatever the function computes: nothing is asked of its control flow, of
its phis or of its operands.
-/

namespace BinaryLift

theorem Kind.operands_mapIncoming {κ : Incomings → Incomings}
    (hκ : ∀ inc, (κ inc).map (·.2) ⊆ inc.map (·.2)) (kind : Kind) :
    (kind.mapIncoming κ).operands ⊆ kind.operands := by
  cases kind with
  | phi inc => exact hκ inc
  | _ => exact List.Subset.refl _

namespace Func

variable {f g h : Func} {b c into source : BlockId} {id j : InstId} {data : Block}

/-- The entry, if there is one, is live. -/
def EntryLive (f : Func) : Prop := ∀ e, f.entry = some e → f.containsBlock e = true

theorem EntryLive.of_eq (he : g.entry = f.entry)
    (hlive : ∀ b, f.containsBlock b = true → f.entry = some b → g.containsBlock b = true)
    (h : f.EntryLive) : g.EntryLive := by
  intro e heq
  rw [he] at heq
  exact hlive e (h e heq) heq

theorem index_lt_of_isLive (h : f.isLive id = true) : id.index < f.arena.size := by
  by_contra hge
  rw [isLive, instBlock, Array.getElem?_eq_none (Nat.le_of_not_lt hge)] at h
  cases h

theorem index_lt_of_containsBlock (h : f.containsBlock b = true) : b.index < f.blocks.size := by
  obtain ⟨data, hdata⟩ := containsBlock_iff.1 h
  exact index_lt_of_block? hdata

theorem exists_inst?_of_lt (hlt : id.index < f.arena.size) : ∃ i, f.inst? id = some i :=
  ⟨_, by rw [inst?, Array.getElem?_eq_getElem hlt]; rfl⟩

theorem size_arena_congr (h : ∀ id, g.inst? id = f.inst? id) : g.arena.size = f.arena.size := by
  have hle : ∀ {f g : Func}, (∀ id, g.inst? id = f.inst? id) → g.arena.size ≤ f.arena.size := by
    intro f g h
    by_contra hlt
    have hmade : (⟨f.arena.size⟩ : InstId).index < g.arena.size := Nat.lt_of_not_le hlt
    obtain ⟨i, hi⟩ := exists_inst?_of_lt hmade
    exact Nat.lt_irrefl _ (index_lt_of_inst? ((h _).symm.trans hi))
  exact Nat.le_antisymm (hle h) (hle fun id => (h id).symm)

/-! ### Changes that move nothing -/

/-- The same instructions stand in the same blocks, and no handle has been given out. -/
structure SameLayout (f g : Func) : Prop where
  entry : g.entry = f.entry
  arena : g.arena.size = f.arena.size
  blocks : g.blocks.size = f.blocks.size
  live : ∀ b, g.containsBlock b = f.containsBlock b
  instsOf : ∀ b, g.instsOf b = f.instsOf b
  instBlock : ∀ id, g.instBlock id = f.instBlock id

namespace SameLayout

theorem refl (f : Func) : f.SameLayout f := ⟨rfl, rfl, rfl, fun _ => rfl, fun _ => rfl, fun _ => rfl⟩

theorem trans (hfg : f.SameLayout g) (hgh : g.SameLayout h) : f.SameLayout h where
  entry := hgh.entry.trans hfg.entry
  arena := hgh.arena.trans hfg.arena
  blocks := hgh.blocks.trans hfg.blocks
  live := fun b => (hgh.live b).trans (hfg.live b)
  instsOf := fun b => (hgh.instsOf b).trans (hfg.instsOf b)
  instBlock := fun id => (hgh.instBlock id).trans (hfg.instBlock id)

theorem consistent (h : f.SameLayout g) (hc : f.Consistent) : g.Consistent :=
  hc.congr h.instsOf h.instBlock

theorem isLive (h : f.SameLayout g) (id : InstId) : g.isLive id = f.isLive id := by
  rw [Func.isLive, Func.isLive, h.instBlock]

end SameLayout

theorem sameLayout_modifyKind (f : Func) (id : InstId) (k : Kind → Kind) :
    f.SameLayout (f.modifyKind id k) where
  entry := rfl
  arena := by simp [modifyKind]
  blocks := rfl
  live := fun _ => rfl
  instsOf := fun _ => rfl
  instBlock := fun j => instBlock_modifyKind f id j k

theorem sameLayout_foldl_modifyKind {α : Type} (l : List α) (id : α → InstId) (k : α → Kind → Kind)
    (f : Func) : f.SameLayout (l.foldl (fun f x => f.modifyKind (id x) (k x)) f) := by
  induction l generalizing f with
  | nil => exact .refl f
  | cons x l ih => exact (sameLayout_modifyKind f _ _).trans (ih _)

theorem sameLayout_modifyBlock {k : Block → Block} (hk : ∀ data, (k data).insts = data.insts)
    (hg : f.modifyBlock b k = .ok g) : f.SameLayout g := by
  have hblock := block?_of_modifyBlock hg
  obtain ⟨data, hdata, rfl⟩ := modifyBlock_eq_ok.1 hg
  refine ⟨rfl, rfl, size_putBlock _ _ _, fun c => ?_, fun c => ?_, fun _ => rfl⟩
  · simp only [containsBlock, hblock c]
    split
    · rename_i hcb
      rw [hcb, Option.isSome_map]
    · rfl
  · simp only [instsOf, hblock c]
    split
    · rename_i hcb
      rw [hcb, Option.map_map]
      congr 2
      funext data
      exact hk data
    · rfl

theorem setTerm_sameLayout {t : Terminator} (hg : f.setTerm b t = .ok g) : f.SameLayout g :=
  sameLayout_modifyBlock (k := fun data => { data with term := t }) (fun _ => rfl) hg

theorem sameLayout_mapOperands (f : Func) (ρ : Value → Value) : f.SameLayout (f.mapOperands ρ) where
  entry := rfl
  arena := by simp [mapOperands]
  blocks := by simp [mapOperands]
  live := by
    intro b
    rw [containsBlock, block?_mapOperands, Option.isSome_map, containsBlock]
  instsOf := by
    intro b
    rw [instsOf, block?_mapOperands, Option.map_map]
    rfl
  instBlock := instBlock_mapOperands f ρ

theorem sameLayout_replaceAllUses (f : Func) (old new : Value) :
    f.SameLayout (f.replaceAllUses old new) := by
  unfold replaceAllUses
  split
  · exact .refl f
  · exact sameLayout_mapOperands f _

/-- Every instruction has the type it had and reads at most what it read. -/
def Curtails (f g : Func) : Prop :=
  ∀ id i', g.inst? id = some i' →
    ∃ i, f.inst? id = some i ∧ i'.ty = i.ty ∧ i'.kind.operands ⊆ i.kind.operands

theorem Curtails.refl (f : Func) : f.Curtails f :=
  fun _ i hi => ⟨i, hi, rfl, List.Subset.refl _⟩

theorem Curtails.trans (hfg : f.Curtails g) (hgh : g.Curtails h) : f.Curtails h := by
  intro id k hk
  obtain ⟨j, hj, hty, hsub⟩ := hgh id k hk
  obtain ⟨i, hi, hty', hsub'⟩ := hfg id j hj
  exact ⟨i, hi, hty.trans hty', List.Subset.trans hsub hsub'⟩

theorem curtails_of_inst? (h : ∀ id, g.inst? id = f.inst? id) : f.Curtails g :=
  fun id i hi => ⟨i, (h id).symm.trans hi, rfl, List.Subset.refl _⟩

theorem curtails_foldl_modifyKind {k : Kind → Kind} (hk : ∀ kind, (k kind).operands ⊆ kind.operands)
    (ids : List InstId) (f : Func) :
    f.Curtails (ids.foldl (fun f id => f.modifyKind id k) f) := by
  induction ids generalizing f with
  | nil => exact .refl f
  | cons id ids ih =>
    refine Curtails.trans (fun j i' hi' => ?_) (ih _)
    rw [inst?_modifyKind] at hi'
    split at hi'
    · obtain ⟨i, hi, rfl⟩ := Option.map_eq_some_iff.1 hi'
      exact ⟨i, hi, rfl, hk i.kind⟩
    · exact ⟨i', hi', rfl, List.Subset.refl _⟩

/-- Phis have been told of fewer or of other edges. -/
structure Retold (f g : Func) : Prop where
  params : g.params = f.params
  block : ∀ b, g.block? b = f.block? b
  layout : f.SameLayout g
  curtails : f.Curtails g

theorem Retold.refl (f : Func) : f.Retold f := ⟨rfl, fun _ => rfl, .refl f, .refl f⟩

theorem Retold.trans (hfg : f.Retold g) (hgh : g.Retold h) : f.Retold h where
  params := hgh.params.trans hfg.params
  block := fun b => (hgh.block b).trans (hfg.block b)
  layout := hfg.layout.trans hgh.layout
  curtails := hfg.curtails.trans hgh.curtails

theorem retold_foldl {κ : Incomings → Incomings} (hκ : ∀ inc, (κ inc).map (·.2) ⊆ inc.map (·.2))
    (ids : List InstId) (f : Func) :
    f.Retold (ids.foldl (fun f id => f.modifyKind id (Kind.mapIncoming κ)) f) where
  params := by
    induction ids generalizing f with
    | nil => rfl
    | cons id ids ih => exact ih _
  block := by
    intro b
    induction ids generalizing f with
    | nil => rfl
    | cons id ids ih => exact ih _
  layout := sameLayout_foldl_modifyKind ids (fun id => id) (fun _ => Kind.mapIncoming κ) f
  curtails := curtails_foldl_modifyKind (Kind.operands_mapIncoming hκ) ids f

theorem removePhiIncoming_retold (hb : f.containsBlock b = true) (pred : BlockId) :
    ∃ g, f.removePhiIncoming b pred = .ok g ∧ f.Retold g := by
  obtain ⟨data, hdata⟩ := containsBlock_iff.1 hb
  refine ⟨_, by unfold removePhiIncoming; rw [block_eq_ok.2 hdata]; rfl, retold_foldl ?_ data.insts f⟩
  exact fun inc => (List.filter_sublist.map _).subset

theorem renamePhiPred_retold (hb : f.containsBlock b = true) (old new : BlockId) :
    ∃ g, f.renamePhiPred b old new = .ok g ∧ f.Retold g := by
  refine ⟨_, by unfold renamePhiPred; rw [phis_eq hb]; rfl, retold_foldl ?_ (f.phisOf b) f⟩
  intro inc
  simp only [List.map_map, Function.comp_def]
  exact List.Subset.refl _

theorem containsBlock_of_block (hb : f.block b = .ok data) : f.containsBlock b = true :=
  containsBlock_iff.2 ⟨data, block_eq_ok.1 hb⟩

theorem foldlM_retold {α : Type} {step : Func → α → Checked Func} {target : α → BlockId}
    (hstep : ∀ f x, f.containsBlock (target x) = true → ∃ g, step f x = .ok g ∧ f.Retold g)
    (xs : List α) (hxs : ∀ x ∈ xs, f.containsBlock (target x) = true) :
    ∃ g, xs.foldlM step f = .ok g ∧ f.Retold g := by
  induction xs generalizing f with
  | nil => exact ⟨f, rfl, .refl f⟩
  | cons x xs ih =>
    obtain ⟨h, hh, hfh⟩ := hstep f x (hxs x List.mem_cons_self)
    obtain ⟨g, hg, hhg⟩ := ih (f := h) fun y hy => by
      rw [hfh.layout.live]
      exact hxs y (List.mem_cons_of_mem _ hy)
    exact ⟨g, by rw [List.foldlM_cons, hh]; exact hg, hfh.trans hhg⟩

/-! ### Instructions that go and come -/

theorem Without.consistent {ids : List InstId} (h : f.Without ids g) (hc : f.Consistent) :
    g.Consistent := by
  rw [consistent_iff] at hc ⊢
  have hinsts : ∀ b, g.instsOf b = (f.instsOf b).filter (· ∉ ids) := by
    intro b
    rw [instsOf, h.block? b, instsOf]
    cases f.block? b <;> rfl
  refine ⟨fun id b => ?_, fun b => ?_⟩
  · rw [hinsts b, h.instBlock id, List.mem_filter, hc.1 id b]
    by_cases hid : id ∈ ids <;> simp [hid]
  · rw [hinsts b]
    exact (hc.2 b).filter _

/-- The function `g` is `f` with the instruction `i` somewhere in block `b`. -/
structure Gains (f : Func) (b : BlockId) (i : Inst) (g : Func) : Prop where
  entry : g.entry = f.entry
  params : g.params = f.params
  arena : g.arena = f.arena.push ⟨i, some b⟩
  blocks : g.blocks.size = f.blocks.size
  block : ∃ data insts, f.block? b = some data ∧ insts.Perm (⟨f.arena.size⟩ :: data.insts) ∧
    ∀ c, g.block? c = if c = b then some { data with insts := insts } else f.block? c

namespace Gains

variable {i : Inst}

theorem instBlock (h : f.Gains b i g) (id : InstId) :
    g.instBlock id = if id.index = f.arena.size then some b else f.instBlock id := by
  rw [Func.instBlock, Func.instBlock, h.arena, Array.getElem?_push]
  split <;> rfl

theorem live (h : f.Gains b i g) (c : BlockId) : g.containsBlock c = f.containsBlock c := by
  obtain ⟨data, insts, hdata, _, hblock⟩ := h.block
  simp only [containsBlock, hblock c]
  split
  · rename_i hcb
    rw [hcb, hdata]
    rfl
  · rfl

theorem consistent (h : f.Gains b i g) (hc : f.Consistent) : g.Consistent := by
  obtain ⟨data, insts, hdata, hperm, hblock⟩ := h.block
  have hsame : ∀ c, c ≠ b → g.instsOf c = f.instsOf c := by
    intro c hcb
    rw [instsOf, hblock c, if_neg hcb, instsOf]
  have hself : g.instsOf b = insts := instsOf_eq ((hblock b).trans (if_pos rfl))
  have hfresh : ∀ {id : InstId} {c : BlockId}, id ∈ f.instsOf c → id.index ≠ f.arena.size := by
    intro id c hid heq
    obtain ⟨cdata, hcdata, hmem⟩ := exists_block_of_mem hid
    exact Nat.lt_irrefl _ (heq ▸ hc.index_lt hcdata hmem)
  have hnew : (⟨f.arena.size⟩ : InstId) ∉ data.insts := by
    intro hmem
    rw [← instsOf_eq hdata] at hmem
    exact hfresh hmem rfl
  refine consistent_iff.2 ⟨fun id c => ?_, fun c => ?_⟩
  · rw [h.instBlock id]
    by_cases hcb : c = b
    · subst hcb
      rw [hself, hperm.mem_iff, List.mem_cons, ← instsOf_eq hdata, hc.mem_instsOf,
        ← index_inst_inj]
      split
      · rename_i hid
        simp [hid]
      · rename_i hid
        simp [hid]
    · rw [hsame c hcb, hc.mem_instsOf]
      split
      · rename_i hid
        constructor
        · intro hin
          exact absurd hid (hfresh (hc.mem_instsOf.2 hin))
        · intro hin
          exact absurd (Option.some.inj hin).symm hcb
      · rfl
  · by_cases hcb : c = b
    · subst hcb
      rw [hself, hperm.nodup_iff, List.nodup_cons]
      exact ⟨hnew, hc.nodup c data hdata⟩
    · rw [hsame c hcb]
      exact hc.nodup_instsOf c

end Gains

theorem gains_of_modifyBlock {i : Inst} {k : List InstId → List InstId}
    (hk : ∀ l, (k l).Perm (⟨f.arena.size⟩ :: l))
    (hg : (f.allocInst b i).1.modifyBlock b (fun data => { data with insts := k data.insts }) =
      .ok g) : f.Gains b i g := by
  have hblock := block?_of_modifyBlock hg
  obtain ⟨data, hdata, rfl⟩ := modifyBlock_eq_ok.1 hg
  refine ⟨rfl, rfl, rfl, size_putBlock _ _ _, data, k data.insts, hdata, hk data.insts, ?_⟩
  intro c
  rw [hblock c, hdata]
  rfl

theorem appendInst_gains {i : Inst} (hg : f.appendInst b i = .ok (g, id)) :
    id = ⟨f.arena.size⟩ ∧ f.Gains b i g := by
  simp only [appendInst] at hg
  cases hm : (f.allocInst b i).1.modifyBlock b fun data =>
      { data with insts := data.insts ++ [(f.allocInst b i).2] } with
  | error e =>
    rw [hm] at hg
    cases hg
  | ok g' =>
    rw [hm] at hg
    cases hg
    exact ⟨rfl, gains_of_modifyBlock (fun l => List.perm_append_singleton _ l) hm⟩

theorem insertInst_gains {n : Nat} {i : Inst} (hg : f.insertInst b n i = .ok (g, id)) :
    id = ⟨f.arena.size⟩ ∧ f.Gains b i g := by
  simp only [insertInst] at hg
  cases hm : (f.allocInst b i).1.modifyBlock b fun data =>
      { data with insts := data.insts.insertIdx (min n data.insts.length) (f.allocInst b i).2 } with
  | error e =>
    rw [hm] at hg
    cases hg
  | ok g' =>
    rw [hm] at hg
    cases hg
    exact ⟨rfl, gains_of_modifyBlock
      (fun l => List.perm_insertIdx _ l (Nat.min_le_right n l.length)) hm⟩

theorem insertBefore_gains {anchor : InstId} {i : Inst}
    (hg : f.insertBefore anchor i = .ok (g, id)) :
    id = ⟨f.arena.size⟩ ∧ ∃ b, f.instBlock anchor = some b ∧ f.Gains b i g := by
  unfold insertBefore at hg
  cases hb : f.instBlock anchor with
  | none =>
    rw [hb] at hg
    cases hg
  | some b =>
    cases hdata : f.block b with
    | error e =>
      simp only [hb, hdata, bind, Except.bind] at hg
      cases hg
    | ok data =>
      simp only [hb, hdata, bind, Except.bind] at hg
      obtain ⟨hid, hgains⟩ := insertInst_gains hg
      exact ⟨hid, b, rfl, hgains⟩

/-! ### Blocks that are merged -/

/-- In `g` the block `source` has been appended to `into`. -/
structure Absorbs (f : Func) (into source : BlockId) (g : Func) : Prop where
  entry : g.entry = f.entry
  params : g.params = f.params
  arena : g.arena.size = f.arena.size
  blocks : g.blocks.size = f.blocks.size
  ne : into ≠ source
  notEntry : f.entry ≠ some source
  block : ∃ data sdata, f.block? into = some data ∧ f.block? source = some sdata ∧
    ∀ c, g.block? c = if c = source then none else if c = into then
      some { data with insts := data.insts ++ sdata.insts, term := sdata.term } else f.block? c
  instBlock : ∀ id, g.instBlock id =
    if f.instBlock id = some source then some into else f.instBlock id
  curtails : f.Curtails g

theorem size_foldl_place (ids : List InstId) (dest : Option BlockId) (f : Func) :
    (ids.foldl (fun f id => f.place id dest) f).arena.size = f.arena.size := by
  induction ids generalizing f with
  | nil => rfl
  | cons id ids ih => exact (ih _).trans (by simp [place])

/-- Up to the last step of a merge nothing can go wrong. -/
theorem mergeBlocks_told {sdata : Block} (hc : f.Consistent) (hne : into ≠ source)
    (hentry : f.entry ≠ some source) (hsdata : f.block? source = some sdata) :
    ∃ told : Func, f.mergeBlocks into source = (told.modifyBlock into fun target =>
        { target with insts := target.insts ++ sdata.insts, term := sdata.term }) ∧
      told.entry = f.entry ∧ told.params = f.params ∧ told.arena.size = f.arena.size ∧
      told.blocks.size = f.blocks.size ∧
      (∀ c, told.block? c = if c = source then none else f.block? c) ∧
      (∀ id, told.instBlock id =
        if f.instBlock id = some source then some into else f.instBlock id) ∧
      f.Curtails told := by
  -- first the instructions move in the arena
  obtain ⟨moved, hmoved⟩ : ∃ moved, moved =
      sdata.insts.foldl (fun f id => f.place id (some into)) (f.putBlock source none) := ⟨_, rfl⟩
  obtain ⟨hparams, hentry', hblocks, hinst, hinstBlock⟩ :=
    foldl_place sdata.insts (some into) (f.putBlock source none)
  have hsize := size_foldl_place sdata.insts (some into) (f.putBlock source none)
  rw [← hmoved] at hparams hentry' hblocks hinst hinstBlock hsize
  have hblock : ∀ c, moved.block? c = if c = source then none else f.block? c := by
    intro c
    rw [← block?_putBlock f source c none (index_lt_of_block? hsdata), block?, block?, hblocks]
  have hhome : ∀ id, moved.instBlock id =
      if f.instBlock id = some source then some into else f.instBlock id := by
    intro id
    rw [hinstBlock id]
    by_cases hid : id ∈ sdata.insts
    · obtain ⟨i, hi⟩ := hc.inst? hsdata hid
      have hi' : ((f.putBlock source none).inst? id).isSome = true := by
        rw [show (f.putBlock source none).inst? id = f.inst? id from rfl, hi]
        rfl
      rw [if_pos ⟨hid, hi'⟩, if_pos ((hc.mem_iff source sdata hsdata id).1 hid)]
    · rw [if_neg fun h => hid h.1, if_neg fun h => hid ((hc.mem_iff source sdata hsdata id).2 h)]
      rfl
  -- then the phis behind the block are told
  have hrename : ∀ (f : Func) s, f.containsBlock s = true →
      ∃ g, f.renamePhiPred s source into = .ok g ∧ f.Retold g :=
    fun f s hs => renamePhiPred_retold hs source into
  obtain ⟨told, htold, hretold⟩ := foldlM_retold (f := moved) hrename
    (sdata.term.successors.filter moved.containsBlock) (fun s hs => (List.mem_filter.1 hs).2)
  refine ⟨told, ?_, hretold.layout.entry.trans hentry', hretold.params.trans hparams,
    hretold.layout.arena.trans hsize, ?_, fun c => (hretold.block c).trans (hblock c),
    fun id => (hretold.layout.instBlock id).trans (hhome id),
    (curtails_of_inst? hinst).trans hretold.curtails⟩
  · unfold mergeBlocks
    rw [if_neg (by simp [hne, hentry]), hsdata]
    simp only [← hmoved, htold, bind, Except.bind]
  · rw [hretold.layout.blocks, hblocks, size_putBlock]

theorem absorbs_of_mergeBlocks {sdata : Block} (hc : f.Consistent) (hne : into ≠ source)
    (hentry : f.entry ≠ some source) (hsdata : f.block? source = some sdata)
    (hg : f.mergeBlocks into source = .ok g) : f.Absorbs into source g := by
  obtain ⟨told, heq, hentry', hparams, harena, hblocks, hblock, hhome, hcurtails⟩ :=
    mergeBlocks_told hc hne hentry hsdata
  rw [heq] at hg
  have hblock' := block?_of_modifyBlock hg
  obtain ⟨data, hdata, rfl⟩ := modifyBlock_eq_ok.1 hg
  rw [hblock, if_neg hne] at hdata
  refine ⟨hentry', hparams, harena, (size_putBlock _ _ _).trans hblocks, hne, hentry,
    ⟨data, sdata, hdata, hsdata, fun c => ?_⟩, hhome, hcurtails⟩
  rw [hblock' c, hblock, hblock, if_neg hne, hdata]
  by_cases hcs : c = source
  · subst hcs
    rw [if_neg (Ne.symm hne), if_pos rfl, if_pos rfl]
  · rw [if_neg hcs, if_neg hcs]
    rfl

theorem mergeBlocks_eq_ok (hc : f.Consistent) (hg : f.mergeBlocks into source = .ok g) :
    (g = f ∧ ((into = source ∨ f.entry = some source) ∨ f.containsBlock source = false)) ∨
      f.Absorbs into source g := by
  by_cases hskip : into = source ∨ f.entry = some source
  · unfold mergeBlocks at hg
    rw [if_pos hskip] at hg
    exact .inl ⟨(Except.ok.inj hg).symm, .inl hskip⟩
  · obtain ⟨hne, hentry⟩ := not_or.1 hskip
    cases hsdata : f.block? source with
    | none =>
      unfold mergeBlocks at hg
      rw [if_neg hskip, hsdata] at hg
      exact .inl ⟨(Except.ok.inj hg).symm, .inr (by rw [containsBlock, hsdata]; rfl)⟩
    | some sdata => exact .inr (absorbs_of_mergeBlocks hc hne hentry hsdata hg)

theorem mergeBlocks_returns (hc : f.Consistent) (hinto : f.containsBlock into = true)
    (source : BlockId) : ∃ g, f.mergeBlocks into source = .ok g := by
  by_cases hskip : into = source ∨ f.entry = some source
  · exact ⟨f, by unfold mergeBlocks; rw [if_pos hskip]; rfl⟩
  · obtain ⟨hne, hentry⟩ := not_or.1 hskip
    cases hsdata : f.block? source with
    | none => exact ⟨f, by unfold mergeBlocks; rw [if_neg hskip, hsdata]; rfl⟩
    | some sdata =>
      obtain ⟨told, heq, _, _, _, _, hblock, _⟩ := mergeBlocks_told hc hne hentry hsdata
      obtain ⟨data, hdata⟩ := containsBlock_iff.1 hinto
      rw [heq]
      exact ⟨_, modifyBlock_eq_ok.2 ⟨data, by rw [hblock, if_neg hne, hdata], rfl⟩⟩

theorem Absorbs.consistent (h : f.Absorbs into source g) (hc : f.Consistent) : g.Consistent := by
  obtain ⟨data, sdata, hdata, hsdata, hblock⟩ := h.block
  have hinsts : ∀ c, g.instsOf c = if c = source then [] else if c = into then
      data.insts ++ sdata.insts else f.instsOf c := by
    intro c
    rw [instsOf, hblock c]
    split
    · rfl
    · split <;> rfl
  refine consistent_iff.2 ⟨fun id c => ?_, fun c => ?_⟩
  · rw [hinsts c, h.instBlock id]
    by_cases hcs : c = source
    · subst hcs
      simp only [if_pos, List.not_mem_nil, false_iff]
      split
      · simp [h.ne]
      · assumption
    · rw [if_neg hcs]
      by_cases hci : c = into
      · subst hci
        rw [if_pos rfl, List.mem_append, ← instsOf_eq hdata, ← instsOf_eq hsdata, hc.mem_instsOf,
          hc.mem_instsOf]
        split
        · rename_i hid
          simp [hid]
        · rename_i hid
          simp [hid]
      · rw [if_neg hci, hc.mem_instsOf]
        split
        · rename_i hid
          simp [hid, Ne.symm hcs, Ne.symm hci]
        · rfl
  · rw [hinsts c]
    split
    · exact List.nodup_nil
    · split
      · refine List.nodup_append.2 ⟨hc.nodup into data hdata, hc.nodup source sdata hsdata, ?_⟩
        rintro id hid _ hid' rfl
        have hin := (hc.mem_iff into data hdata id).1 hid
        rw [(hc.mem_iff source sdata hsdata id).1 hid'] at hin
        exact h.ne (Option.some.inj hin).symm
      · exact hc.nodup_instsOf c

end Func

end BinaryLift
