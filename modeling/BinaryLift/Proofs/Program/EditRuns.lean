import BinaryLift.Program.Edit
import BinaryLift.Proofs.Program.Bookkeeping
import BinaryLift.Proofs.Program.Checks
import BinaryLift.Proofs.Program.Growth

/-!
# Runs of edits

What every edit keeps, and with it every sequence of edits that starts with a function without a body:
the two arenas agree, the entry is the first block and stays, what has been taken out stays out, and
no handle is given out twice.
-/

namespace BinaryLift

namespace Func

variable {f g h : Func} {b c into source : BlockId} {id j : InstId} {data : Block}

/-- Handles are given out in order, the entry stays, and what is no longer live does not come back. -/
structure Evolves (f g : Func) : Prop where
  arena : f.arena.size ≤ g.arena.size
  blocks : f.blocks.size ≤ g.blocks.size
  entry : ∀ e, f.entry = some e → g.entry = some e
  entryLive : f.EntryLive → g.EntryLive
  dead : ∀ id, id.index < f.arena.size → f.isLive id = false → g.isLive id = false
  gone : ∀ b, b.index < f.blocks.size → f.containsBlock b = false → g.containsBlock b = false

theorem Evolves.refl (f : Func) : f.Evolves f :=
  ⟨Nat.le_refl _, Nat.le_refl _, fun _ h => h, fun h => h, fun _ _ h => h, fun _ _ h => h⟩

theorem Evolves.trans (hfg : f.Evolves g) (hgh : g.Evolves h) : f.Evolves h where
  arena := Nat.le_trans hfg.arena hgh.arena
  blocks := Nat.le_trans hfg.blocks hgh.blocks
  entry := fun e he => hgh.entry e (hfg.entry e he)
  entryLive := fun h => hgh.entryLive (hfg.entryLive h)
  dead := fun id hid hdead =>
    hgh.dead id (Nat.lt_of_lt_of_le hid hfg.arena) (hfg.dead id hid hdead)
  gone := fun b hb hgone => hgh.gone b (Nat.lt_of_lt_of_le hb hfg.blocks) (hfg.gone b hb hgone)

theorem SameLayout.evolves (h : f.SameLayout g) : f.Evolves g where
  arena := Nat.le_of_eq h.arena.symm
  blocks := Nat.le_of_eq h.blocks.symm
  entry := fun _ he => h.entry.trans he
  entryLive := .of_eq h.entry fun b hb _ => (h.live b).trans hb
  dead := fun id _ hdead => (h.isLive id).trans hdead
  gone := fun b _ hgone => (h.live b).trans hgone

theorem Gains.evolves {i : Inst} (h : f.Gains b i g) : f.Evolves g where
  arena := by simp [h.arena]
  blocks := Nat.le_of_eq h.blocks.symm
  entry := fun _ he => h.entry.trans he
  entryLive := .of_eq h.entry fun c hc _ => (h.live c).trans hc
  dead := by
    intro id hid hdead
    rw [isLive, h.instBlock id, if_neg (Nat.ne_of_lt hid)]
    exact hdead
  gone := fun c _ hgone => (h.live c).trans hgone

theorem Absorbs.evolves (h : f.Absorbs into source g) : f.Evolves g where
  arena := Nat.le_of_eq h.arena.symm
  blocks := Nat.le_of_eq h.blocks.symm
  entry := fun _ he => h.entry.trans he
  entryLive := by
    refine .of_eq h.entry fun c hc he => ?_
    obtain ⟨data, sdata, _, _, hblock⟩ := h.block
    have hcs : c ≠ source := by
      rintro rfl
      exact h.notEntry he
    rw [containsBlock, hblock c, if_neg hcs]
    split
    · rfl
    · exact hc
  dead := by
    intro id _ hdead
    have hnone : f.instBlock id = none := by simpa [isLive] using hdead
    rw [isLive, h.instBlock id, hnone]
    rfl
  gone := by
    intro c _ hgone
    obtain ⟨data, sdata, hdata, _, hblock⟩ := h.block
    have hnone : f.block? c = none := by simpa [containsBlock] using hgone
    rw [containsBlock, hblock c]
    split
    · rfl
    · rename_i hcs
      split
      · rename_i hci
        rw [hci, hdata] at hnone
        cases hnone
      · rw [hnone]
        rfl

theorem addBlock_entry (f : Func) (a : Option Word) :
    (f.addBlock a).1.entry = f.entry.or (some ⟨f.blocks.size⟩) := by
  show (f.entry <|> some _) = _
  cases f.entry <;> rfl

theorem containsBlock_addBlock (hb : f.containsBlock b = true) (a : Option Word) :
    (f.addBlock a).1.containsBlock b = true := by
  rw [containsBlock, block?_addBlock]
  split
  · rfl
  · exact hb

theorem addBlock_evolves (f : Func) (a : Option Word) : f.Evolves (f.addBlock a).1 where
  arena := Nat.le_refl _
  blocks := (Grows.addBlock f a).size_le
  entry := by
    intro e he
    simp [addBlock, he]
  entryLive := by
    intro hlive e he
    rw [addBlock_entry, Option.or_eq_some_iff] at he
    rcases he with he | ⟨_, he⟩
    · exact containsBlock_addBlock (hlive e he) a
    · cases he
      rw [containsBlock, block?_addBlock, if_pos rfl]
      rfl
  dead := fun _ _ h => h
  gone := by
    intro b hb hgone
    rw [containsBlock, (Grows.addBlock f a).old b hb]
    exact hgone

theorem addBlock_consistent (hc : f.Consistent) (a : Option Word) : (f.addBlock a).1.Consistent := by
  rw [consistent_iff] at hc ⊢
  have hinsts : ∀ b, (f.addBlock a).1.instsOf b = f.instsOf b := by
    intro b
    rw [instsOf, instsOf, block?_addBlock]
    split
    · rename_i hb
      have hnone : f.block? b = none := by
        rw [block?, Array.getElem?_eq_none (Nat.le_of_eq hb.symm)]
        rfl
      rw [hnone]
      rfl
    · rfl
  exact ⟨fun id b => by rw [hinsts b]; exact hc.1 id b, fun b => by rw [hinsts b]; exact hc.2 b⟩

theorem removeInst_sizes (hg : f.removeInst id = .ok g) :
    g.arena.size = f.arena.size ∧ g.blocks.size = f.blocks.size := by
  unfold removeInst at hg
  split at hg
  · cases hg
    exact ⟨rfl, rfl⟩
  · rename_i b _
    cases hm : f.modifyBlock b fun data => { data with insts := data.insts.filter (· ≠ id) } with
    | error e =>
      simp only [hm, bind, Except.bind] at hg
      cases hg
    | ok k =>
      simp only [hm, bind, Except.bind] at hg
      cases hg
      obtain ⟨data, _, rfl⟩ := modifyBlock_eq_ok.1 hm
      simp [place]

theorem Without.containsBlock {ids : List InstId} (h : f.Without ids g) (b : BlockId) :
    g.containsBlock b = f.containsBlock b := by
  rw [Func.containsBlock, h.block? b, Option.isSome_map, Func.containsBlock]

theorem removeInst_keeps (hc : f.Consistent) (hg : f.removeInst id = .ok g) :
    g.Consistent ∧ f.Evolves g ∧ f.Without [id] g := by
  obtain ⟨k, hk, hwithout⟩ := removeInst_spec hc.housed id
  obtain ⟨harena, hblocks⟩ := removeInst_sizes hg
  rw [hk] at hg
  cases hg
  have hlive := hwithout.containsBlock
  refine ⟨hwithout.consistent hc, ⟨Nat.le_of_eq harena.symm, Nat.le_of_eq hblocks.symm,
    fun e he => hwithout.entry.trans he, .of_eq hwithout.entry fun b hb _ => (hlive b).trans hb,
    fun j _ hdead => ?_, fun b _ hgone => (hlive b).trans hgone⟩, hwithout⟩
  rw [isLive, hwithout.instBlock j]
  split
  · rfl
  · exact hdead

theorem removeBlock_of_entry (h : f.entry = some b) : f.removeBlock b = f := by
  unfold removeBlock
  rw [if_pos h]

theorem removeBlock_keeps (hc : f.Consistent) (he : f.entry ≠ some b) :
    (f.removeBlock b).Consistent ∧ f.Evolves (f.removeBlock b) ∧
      f.Removed [b] (f.removeBlock b) := by
  have hremoved := removeBlock_spec hc he
  have hsizes : (f.removeBlock b).arena.size = f.arena.size ∧
      (f.removeBlock b).blocks.size = f.blocks.size := by
    unfold removeBlock
    rw [if_neg he]
    split
    · exact ⟨rfl, rfl⟩
    · rename_i data _
      obtain ⟨_, _, hblocks, _⟩ := foldl_place data.insts none (f.putBlock b none)
      exact ⟨size_foldl_place data.insts none _, by rw [hblocks, size_putBlock]⟩
  refine ⟨hremoved.consistent hc, ⟨Nat.le_of_eq hsizes.1.symm, Nat.le_of_eq hsizes.2.symm,
    fun e h => hremoved.entry.trans h, .of_eq hremoved.entry fun c hc hce => ?_,
    fun id _ hdead => ?_, fun c _ hgone => ?_⟩, hremoved⟩
  · have hcb : c ∉ [b] := by
      rw [List.mem_singleton]
      rintro rfl
      exact he hce
    rw [containsBlock, hremoved.block? c, if_neg hcb]
    exact hc
  · have hnone : f.instBlock id = none := by simpa [isLive] using hdead
    rw [isLive, hremoved.instBlock id, hnone]
    rfl
  · rw [containsBlock, hremoved.block? c]
    split
    · rfl
    · exact hgone

/-! ### One edit -/

theorem emitInst_gains {kind : Kind} {ty : Option Ty} {v : Option Value}
    (hg : f.emitInst b kind ty = .ok (g, v)) :
    ∃ i, f.Gains b i g ∧ v = some (.inst ⟨f.arena.size⟩) := by
  obtain ⟨⟨g', id⟩, ha, heq⟩ := bind_eq_ok.1 hg
  cases heq
  obtain ⟨rfl, hgains⟩ := appendInst_gains ha
  exact ⟨_, hgains, rfl⟩

/-- Emitting sets a terminator or makes one instruction, whose result may be kept back. -/
theorem emit_cases {e : Emission} {v : Option Value} (hg : f.emit b e = .ok (g, v)) :
    (f.SameLayout g ∧ v = none) ∨
      ∃ i, f.Gains b i g ∧ (v = none ∨ v = some (.inst ⟨f.arena.size⟩)) := by
  have hinst : ∀ {kind : Kind} {ty : Option Ty}, f.emitInst b kind ty = .ok (g, v) →
      ∃ i, f.Gains b i g ∧ (v = none ∨ v = some (.inst ⟨f.arena.size⟩)) := by
    intro kind ty h
    obtain ⟨i, hgains, hv⟩ := emitInst_gains h
    exact ⟨i, hgains, .inr hv⟩
  cases e with
  | alloca n => exact .inr (hinst hg)
  | load p ty => exact .inr (hinst hg)
  | icmp p x y => exact .inr (hinst hg)
  | cast op v ty => exact .inr (hinst hg)
  | ptrAdd x y => exact .inr (hinst hg)
  | binary op x y =>
    obtain ⟨ty, _, h⟩ := bind_eq_ok.1 hg
    exact .inr (hinst h)
  | select c x y =>
    obtain ⟨ty, _, h⟩ := bind_eq_ok.1 hg
    exact .inr (hinst h)
  | store p value =>
    obtain ⟨⟨g', v'⟩, h, heq⟩ := bind_eq_ok.1 hg
    cases heq
    obtain ⟨i, hgains, _⟩ := emitInst_gains h
    exact .inr ⟨i, hgains, .inl rfl⟩
  | call callee args ret =>
    obtain ⟨⟨g', v'⟩, h, heq⟩ := bind_eq_ok.1 hg
    cases heq
    obtain ⟨i, hgains, rfl⟩ := emitInst_gains h
    refine .inr ⟨i, hgains, ?_⟩
    cases ret with
    | none => exact .inl rfl
    | some ty => exact .inr rfl
  | phi ty inc =>
    obtain ⟨ids, _, h⟩ := bind_eq_ok.1 hg
    obtain ⟨⟨g', id⟩, hins, heq⟩ := bind_eq_ok.1 h
    cases heq
    obtain ⟨rfl, hgains⟩ := insertInst_gains hins
    exact .inr ⟨_, hgains, .inr rfl⟩
  | term t =>
    obtain ⟨g', h, heq⟩ := bind_eq_ok.1 hg
    cases heq
    exact .inl ⟨setTerm_sameLayout h, rfl⟩

end Func

namespace Edit

open Func

variable {f g h : Func} {e : Edit} {m : Made}

/-- The instruction that an edit hands out. -/
def Made.inst? : Made → Option InstId
  | .inst id => some id
  | .value (.inst id) => some id
  | _ => none

/-- The block that an edit hands out. -/
def Made.block? : Made → Option BlockId
  | .block b => some b
  | _ => none

/-- The edit takes the instruction `id` out: alone or together with its block. -/
def Takes (f : Func) (id : InstId) : Edit → Prop
  | .removeInst id' => id' = id
  | .removeBlock b => f.entry ≠ some b ∧ id ∈ f.instsOf b
  | _ => False

/-- The edit takes the block `b` out, or lets another one absorb it. -/
def TakesBlock (f : Func) (b : BlockId) : Edit → Prop
  | .removeBlock b' => f.entry ≠ some b ∧ b' = b
  | .mergeBlocks into source => f.entry ≠ some b ∧ source = b ∧ into ≠ source
  | _ => False

/-- Whether the edit is there to take something out. -/
def isRemoval : Edit → Bool
  | .removeInst _ | .removeBlock _ | .mergeBlocks .. => true
  | _ => false

theorem takes_nothing (h : e.isRemoval = false) :
    (∀ id, ¬ e.Takes f id) ∧ ∀ b, ¬ e.TakesBlock f b := by
  cases e with
  | removeInst id => cases h
  | removeBlock b => cases h
  | mergeBlocks into source => cases h
  | _ => exact ⟨fun _ => id, fun _ => id⟩

/-- What one edit does to a function whose arenas agree. -/
structure Keeps (f : Func) (e : Edit) (m : Made) (g : Func) : Prop where
  consistent : g.Consistent
  evolves : f.Evolves g
  entry : g.entry = f.entry.or m.block?
  inst : ∀ id, m.inst? = some id → f.arena.size ≤ id.index ∧ g.isLive id = true
  block : ∀ b, m.block? = some b → f.blocks.size ≤ b.index ∧ g.containsBlock b = true
  takes : ∀ id, f.isLive id = true → (g.isLive id = false ↔ e.Takes f id)
  takesBlock : ∀ b, f.containsBlock b = true → (g.containsBlock b = false ↔ e.TakesBlock f b)

/-- What is live after an edit has not been taken by one that takes nothing. -/
theorem false_iff_of_true {x : Bool} {p : Prop} (hx : x = true) (hp : ¬ p) : x = false ↔ p := by
  simp [hx, hp]

theorem Keeps.nothing (hc : g.Consistent) (he : f.Evolves g) (hentry : g.entry = f.entry)
    (htakes : ∀ id, f.isLive id = true → (g.isLive id = false ↔ e.Takes f id))
    (hblocks : ∀ b, f.containsBlock b = true → (g.containsBlock b = false ↔ e.TakesBlock f b)) :
    Keeps f e .nothing g where
  consistent := hc
  evolves := he
  entry := by
    rw [hentry]
    exact Option.or_none.symm
  inst := nofun
  block := nofun
  takes := htakes
  takesBlock := hblocks

theorem Keeps.layout (hc : f.Consistent) (h : f.SameLayout g) (he : e.isRemoval = false) :
    Keeps f e .nothing g :=
  .nothing (h.consistent hc) h.evolves h.entry
    (fun id hid => false_iff_of_true ((h.isLive id).trans hid) ((takes_nothing he).1 id))
    (fun b hb => false_iff_of_true ((h.live b).trans hb) ((takes_nothing he).2 b))

theorem Keeps.gains {b : BlockId} {i : Inst} (hc : f.Consistent) (h : f.Gains b i g)
    (hblock : m.block? = none) (hinst : m.inst? = none ∨ m.inst? = some ⟨f.arena.size⟩)
    (he : e.isRemoval = false) : Keeps f e m g where
  consistent := h.consistent hc
  evolves := h.evolves
  entry := by rw [h.entry, hblock, Option.or_none]
  inst := by
    intro id hid
    rcases hinst with hnone | hsome
    · rw [hnone] at hid
      cases hid
    · rw [hsome] at hid
      cases hid
      refine ⟨Nat.le_refl _, ?_⟩
      rw [isLive, h.instBlock, if_pos rfl]
      rfl
  block := by
    intro b hb
    rw [hblock] at hb
    cases hb
  takes := by
    intro id hid
    refine false_iff_of_true ?_ ((takes_nothing he).1 id)
    rw [isLive, h.instBlock, if_neg (Nat.ne_of_lt (index_lt_of_isLive hid))]
    exact hid
  takesBlock := fun b hb => false_iff_of_true ((h.live b).trans hb) ((takes_nothing he).2 b)

theorem Keeps.removeInst {id : InstId} (hc : f.Consistent) (hg : f.removeInst id = .ok g) :
    Keeps f (.removeInst id) .nothing g := by
  obtain ⟨hcons, hevolves, hwithout⟩ := removeInst_keeps hc hg
  refine .nothing hcons hevolves hwithout.entry (fun j hj => ?_) fun b hb =>
    false_iff_of_true ((hwithout.containsBlock b).trans hb) fun h => h
  have hlive : (f.instBlock j).isSome = true := hj
  rw [isLive, hwithout.instBlock j]
  by_cases hid : id = j <;> simp [Takes, hid, hlive, eq_comm]

theorem Keeps.removeBlock (hc : f.Consistent) (b : BlockId) :
    Keeps f (.removeBlock b) .nothing (f.removeBlock b) := by
  by_cases he : f.entry = some b
  · rw [removeBlock_of_entry he]
    refine .nothing hc (.refl f) rfl (fun id hid => false_iff_of_true hid fun h => h.1 he)
      fun c hlive => false_iff_of_true hlive ?_
    rintro ⟨hentry, rfl⟩
    exact hentry he
  · obtain ⟨hcons, hevolves, hremoved⟩ := removeBlock_keeps hc he
    refine .nothing hcons hevolves hremoved.entry (fun id hid => ?_) fun c hlive => ?_
    · obtain ⟨home, hhome⟩ := Option.isSome_iff_exists.1 hid
      rw [isLive, hremoved.instBlock id, hhome]
      simp only [Takes, hc.mem_instsOf, hhome]
      by_cases hb : home = b <;> simp [hb, he]
    · rw [containsBlock, hremoved.block? c]
      by_cases hb : c = b
      · simp [TakesBlock, hb, he]
      · have hblock : (f.block? c).isSome = true := hlive
        simp [TakesBlock, hb, hblock, Ne.symm hb]

theorem Keeps.mergeBlocks {into source : BlockId} (hc : f.Consistent)
    (hg : f.mergeBlocks into source = .ok g) : Keeps f (.mergeBlocks into source) .nothing g := by
  rcases mergeBlocks_eq_ok hc hg with ⟨rfl, hskip⟩ | habsorbs
  · refine .nothing hc (.refl g) rfl (fun id hid => false_iff_of_true hid fun h => h)
      fun b hlive => false_iff_of_true hlive ?_
    rintro ⟨hentry, rfl, hne⟩
    rcases hskip with (heq | he) | hgone
    · exact hne heq
    · exact hentry he
    · rw [hgone] at hlive
      cases hlive
  · refine .nothing (habsorbs.consistent hc) habsorbs.evolves habsorbs.entry
      (fun id hid => false_iff_of_true ?_ fun h => h) fun b hlive => ?_
    · have hsome : (f.instBlock id).isSome = true := hid
      rw [isLive, habsorbs.instBlock id]
      split
      · rfl
      · exact hsome
    · obtain ⟨data, sdata, _, _, hblock⟩ := habsorbs.block
      have hsome : (f.block? b).isSome = true := hlive
      rw [containsBlock, hblock b]
      by_cases hb : b = source
      · simp [TakesBlock, hb, habsorbs.ne, habsorbs.notEntry]
      · by_cases hinto : b = into
        · simp [TakesBlock, hinto, habsorbs.ne, Ne.symm habsorbs.ne]
        · simp [TakesBlock, hb, hinto, hsome, Ne.symm hb]

/-- Every edit that can be carried out keeps the arenas in step. -/
theorem apply_keeps (hc : f.Consistent) (hg : e.apply f = .ok (g, m)) : Keeps f e m g := by
  cases e with
  | addBlock a =>
    cases hg
    refine ⟨addBlock_consistent hc a, addBlock_evolves f a, addBlock_entry f a, nofun, ?_,
      fun id hid => false_iff_of_true hid fun h => h,
      fun b hb => false_iff_of_true (containsBlock_addBlock hb a) fun h => h⟩
    intro b hb
    cases hb
    refine ⟨Nat.le_refl _, ?_⟩
    rw [containsBlock]
    exact congrArg Option.isSome ((block?_addBlock f a _).trans (if_pos rfl))
  | append b i =>
    obtain ⟨⟨k, id⟩, hk, heq⟩ := bind_eq_ok.1 hg
    cases heq
    obtain ⟨rfl, hgains⟩ := appendInst_gains hk
    exact .gains hc hgains rfl (.inr rfl) rfl
  | insert b n i =>
    obtain ⟨⟨k, id⟩, hk, heq⟩ := bind_eq_ok.1 hg
    cases heq
    obtain ⟨rfl, hgains⟩ := insertInst_gains hk
    exact .gains hc hgains rfl (.inr rfl) rfl
  | insertBefore a i =>
    obtain ⟨⟨k, id⟩, hk, heq⟩ := bind_eq_ok.1 hg
    cases heq
    obtain ⟨rfl, b, _, hgains⟩ := insertBefore_gains hk
    exact .gains hc hgains rfl (.inr rfl) rfl
  | removeInst id =>
    obtain ⟨k, hk, heq⟩ := bind_eq_ok.1 hg
    cases heq
    exact .removeInst hc hk
  | removeBlock b =>
    cases hg
    exact .removeBlock hc b
  | mergeBlocks into source =>
    obtain ⟨k, hk, heq⟩ := bind_eq_ok.1 hg
    cases heq
    exact .mergeBlocks hc hk
  | setTerm b t =>
    obtain ⟨k, hk, heq⟩ := bind_eq_ok.1 hg
    cases heq
    exact .layout hc (setTerm_sameLayout hk) rfl
  | replaceSuccessor b old new =>
    obtain ⟨k, hk, heq⟩ := bind_eq_ok.1 hg
    cases heq
    exact .layout hc (sameLayout_modifyBlock (k := fun data =>
      { data with term := data.term.replaceSuccessor old new }) (fun _ => rfl) hk) rfl
  | replaceAllUses v w =>
    cases hg
    exact .layout hc (sameLayout_replaceAllUses f v w) rfl
  | removePhiIncoming b p =>
    obtain ⟨k, hk, heq⟩ := bind_eq_ok.1 hg
    cases heq
    obtain ⟨data, hdata, _⟩ := bind_eq_ok.1 hk
    obtain ⟨k', hk', hretold⟩ := removePhiIncoming_retold (containsBlock_of_block hdata) p
    rw [hk'] at hk
    cases hk
    exact .layout hc hretold.layout rfl
  | emit b em =>
    obtain ⟨⟨k, v⟩, hk, heq⟩ := bind_eq_ok.1 hg
    cases heq
    rcases emit_cases hk with ⟨hlayout, rfl⟩ | ⟨i, hgains, rfl | rfl⟩
    · exact .layout hc hlayout rfl
    · exact .gains hc hgains rfl (.inl rfl) rfl
    · exact .gains hc hgains rfl (.inr rfl) rfl

/-! ### Runs -/

/-- A run of edits that can all be carried out, and what each of them made. -/
inductive Runs : Func → List Edit → List Made → Func → Prop
  | nil (f : Func) : Runs f [] [] f
  | cons {f g h : Func} {e : Edit} {m : Made} {es : List Edit} {ms : List Made}
      (hstep : e.apply f = .ok (g, m)) (hrest : Runs g es ms h) : Runs f (e :: es) (m :: ms) h

variable {es : List Edit} {ms : List Made}

theorem runs_iff : (∃ ms, Runs f es ms g) ↔ applyAll f es = .ok g := by
  induction es generalizing f with
  | nil =>
    constructor
    · rintro ⟨ms, hrun⟩
      cases hrun
      rfl
    · intro h
      cases h
      exact ⟨[], .nil _⟩
  | cons e es ih =>
    unfold applyAll at ih ⊢
    rw [List.foldlM_cons]
    constructor
    · rintro ⟨ms, hrun⟩
      cases hrun with
      | cons hstep hrest =>
        rw [hstep]
        exact ih.1 ⟨_, hrest⟩
    · intro h
      obtain ⟨k, hk, hrest⟩ := bind_eq_ok.1 h
      obtain ⟨⟨k', m⟩, hstep, heq⟩ := bind_eq_ok.1 hk
      cases heq
      obtain ⟨ms, hrun⟩ := ih.2 hrest
      exact ⟨m :: ms, .cons hstep hrun⟩

/-- What a run keeps. Everything it hands out is new, and the first block it hands out becomes the
entry if there was none. -/
structure RunKeeps (f : Func) (ms : List Made) (g : Func) : Prop where
  consistent : g.Consistent
  evolves : f.Evolves g
  entry : g.entry = f.entry.or (ms.filterMap Made.block?).head?
  insts : (ms.filterMap Made.inst?).Pairwise fun i j => i.index < j.index
  newInsts : ∀ id ∈ ms.filterMap Made.inst?, f.arena.size ≤ id.index
  blocks : (ms.filterMap Made.block?).Pairwise fun b c => b.index < c.index
  newBlocks : ∀ b ∈ ms.filterMap Made.block?, f.blocks.size ≤ b.index

theorem runs_keep (hc : f.Consistent) (hrun : Runs f es ms g) : RunKeeps f ms g := by
  induction hrun with
  | nil f => exact ⟨hc, .refl f, by simp, by simp, by simp, by simp, by simp⟩
  | @cons f g h e m es ms hstep hrest ih =>
    have hfirst := apply_keeps hc hstep
    have hlater := ih hfirst.consistent
    have hhead : ∀ {α : Type} {o : Option α} {l : List α},
        (o.toList ++ l).head? = o.or l.head? := by
      intro α o l
      cases o <;> rfl
    have hmap : ∀ {α : Type} (k : Made → Option α),
        (m :: ms).filterMap k = (k m).toList ++ ms.filterMap k := by
      intro α k
      rw [List.filterMap_cons]
      cases k m <;> rfl
    refine ⟨hlater.consistent, hfirst.evolves.trans hlater.evolves, ?_, ?_, ?_, ?_, ?_⟩
    · rw [hlater.entry, hfirst.entry, hmap, hhead, Option.or_assoc]
    · rw [hmap, List.pairwise_append]
      refine ⟨by cases m.inst? <;> simp, hlater.insts, fun i hi j hj => ?_⟩
      have hlt := index_lt_of_isLive (hfirst.inst i (Option.mem_toList.1 hi)).2
      exact Nat.lt_of_lt_of_le hlt (hlater.newInsts j hj)
    · intro id hid
      rw [hmap, List.mem_append] at hid
      rcases hid with hid | hid
      · exact (hfirst.inst id (Option.mem_toList.1 hid)).1
      · exact Nat.le_trans hfirst.evolves.arena (hlater.newInsts id hid)
    · rw [hmap, List.pairwise_append]
      refine ⟨by cases m.block? <;> simp, hlater.blocks, fun b hb c hc' => ?_⟩
      have hlt := index_lt_of_containsBlock (hfirst.block b (Option.mem_toList.1 hb)).2
      exact Nat.lt_of_lt_of_le hlt (hlater.newBlocks c hc')
    · intro b hb
      rw [hmap, List.mem_append] at hb
      rcases hb with hb | hb
      · exact (hfirst.block b (Option.mem_toList.1 hb)).1
      · exact Nat.le_trans hfirst.evolves.blocks (hlater.newBlocks b hb)

theorem consistent_of_empty {name : String} {params : List Param} {ret : Option Ty}
    {linkage : Linkage} : ({ name, params, ret, linkage } : Func).Consistent :=
  consistent_iff.2 ⟨by simp [instsOf, block?, instBlock], by simp [instsOf, block?]⟩

theorem length_liveInsts (f : Func) :
    f.liveInsts.length + f.blockCount = f.instructionCount := by
  have hfold : ∀ (l : List (BlockId × Block)) (n : Nat),
      l.foldl (fun n e => n + e.2.insts.length + 1) n =
        n + ((l.flatMap (·.2.insts)).length + l.length) := by
    intro l
    induction l with
    | nil => simp
    | cons e l ih =>
      intro n
      rw [List.foldl_cons, ih]
      simp only [List.flatMap_cons, List.length_append, List.length_cons]
      omega
  rw [instructionCount, hfold, Nat.zero_add, liveInsts, blockCount]

theorem Runs.append {es₁ es₂ : List Edit} {ms₁ ms₂ : List Made} (h₁ : Runs f es₁ ms₁ g)
    (h₂ : Runs g es₂ ms₂ h) : Runs f (es₁ ++ es₂) (ms₁ ++ ms₂) h := by
  induction h₁ with
  | nil f => exact h₂
  | cons hstep _ ih => exact .cons hstep (ih h₂)

/-- What is true after every run of edits that starts with a function without a body: the arenas
agree; the entry is the first block handed out, and it is live and stays; no handle is handed out
twice; nothing that is live is handed out again, an edit ends the life of exactly what it takes out,
and what has been taken out stays out; and the live instructions are listed once each and counted
together with the terminators. -/
theorem runs_keep_arenas {name : String} {params : List Param} {ret : Option Ty}
    {linkage : Linkage} (hrun : Runs { name, params, ret, linkage } es ms f) :
    f.Consistent ∧
      (f.entry = (ms.filterMap Made.block?).head? ∧ f.EntryLive) ∧
      ((ms.filterMap Made.inst?).Nodup ∧ (ms.filterMap Made.block?).Nodup) ∧
      (∀ es₁ ms₁ g es₂ ms₂ h, Runs f es₁ ms₁ g → Runs g es₂ ms₂ h →
        (∀ e, f.entry = some e → h.entry = some e ∧ h.containsBlock e = true) ∧
        (∀ id, f.isLive id = true → id ∉ (ms₁ ++ ms₂).filterMap Made.inst? ∧
          (g.isLive id = false → h.isLive id = false)) ∧
        ∀ b, f.containsBlock b = true → b ∉ (ms₁ ++ ms₂).filterMap Made.block? ∧
          (g.containsBlock b = false → h.containsBlock b = false)) ∧
      (∀ (e : Edit) m g, e.apply f = .ok (g, m) →
        (∀ id, f.isLive id = true → (g.isLive id = false ↔ e.Takes f id)) ∧
        ∀ b, f.containsBlock b = true → (g.containsBlock b = false ↔ e.TakesBlock f b)) ∧
      f.liveInsts.Nodup ∧ (∀ id, id ∈ f.liveInsts ↔ f.isLive id = true) ∧
      f.liveInsts.length + f.blockCount = f.instructionCount := by
  have hkeeps := runs_keep consistent_of_empty hrun
  have hc := hkeeps.consistent
  have hlive : f.EntryLive := hkeeps.evolves.entryLive nofun
  refine ⟨hc, ⟨hkeeps.entry, hlive⟩, ⟨hkeeps.insts.imp ?_, hkeeps.blocks.imp ?_⟩, ?_,
    fun e m g hg => ⟨(apply_keeps hc hg).takes, (apply_keeps hc hg).takesBlock⟩,
    hc.nodup_liveInsts, fun id => ?_, length_liveInsts f⟩
  · rintro i j hlt rfl
    exact Nat.lt_irrefl _ hlt
  · rintro b c hlt rfl
    exact Nat.lt_irrefl _ hlt
  · intro es₁ ms₁ g es₂ ms₂ h h₁ h₂
    have hfirst := runs_keep hc h₁
    have hsecond := runs_keep hfirst.consistent h₂
    have hboth := runs_keep hc (h₁.append h₂)
    refine ⟨fun e he => ⟨hboth.evolves.entry e he, hboth.evolves.entryLive hlive e
      (hboth.evolves.entry e he)⟩, fun id hid => ?_, fun b hb => ?_⟩
    · have hlt := index_lt_of_isLive hid
      refine ⟨fun hmem => ?_, hsecond.evolves.dead id (Nat.lt_of_lt_of_le hlt hfirst.evolves.arena)⟩
      exact absurd hlt (Nat.not_lt_of_le (hboth.newInsts id hmem))
    · have hlt := index_lt_of_containsBlock hb
      refine ⟨fun hmem => ?_, hsecond.evolves.gone b (Nat.lt_of_lt_of_le hlt hfirst.evolves.blocks)⟩
      exact absurd hlt (Nat.not_lt_of_le (hboth.newBlocks b hmem))
  · rw [mem_liveInsts, isLive, Option.isSome_iff_exists]
    simp only [hc.mem_instsOf]

/-- Two blocks are made and filled, the second one joins the first, and an instruction goes. -/
theorem joinedBlocks_keep_arenas :
    let f : Func := {
      name := "sample"
      arena := #[
        ⟨⟨.alloca 8, some .ptr⟩, none⟩,
        ⟨⟨.alloca 4, some .ptr⟩, some ⟨0⟩⟩]
      blocks := #[some { insts := [⟨1⟩] }, none]
      entry := some ⟨0⟩ }
    f.Consistent ∧ f.entry = some ⟨0⟩ ∧ f.liveInsts.length + f.blockCount = 2 := by
  intro f
  have hrun : Runs { name := "sample" }
      [.addBlock none, .addBlock none, .emit ⟨0⟩ (.alloca 8), .append ⟨1⟩ ⟨.alloca 4, some .ptr⟩,
        .mergeBlocks ⟨0⟩ ⟨1⟩, .removeInst ⟨0⟩]
      [.block ⟨0⟩, .block ⟨1⟩, .value (.inst ⟨0⟩), .inst ⟨1⟩, .nothing, .nothing] f :=
    .cons rfl (.cons rfl (.cons rfl (.cons rfl (.cons rfl (.cons rfl (.nil f))))))
  obtain ⟨hc, ⟨hentry, _⟩, _, _, _, _, _, hcount⟩ := runs_keep_arenas hrun
  exact ⟨hc, hentry, hcount⟩

end Edit

end BinaryLift
