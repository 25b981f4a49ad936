import BinaryLift.Proofs.Graph.PhiPlacement
import BinaryLift.Proofs.Program.Bookkeeping
import BinaryLift.Proofs.Program.Heads
import BinaryLift.Proofs.Transform.DeadCode

/-!
# What stays when dead code is dropped

Nothing is asked of the control flow here, only that the arenas are in step and that live code reads what
stands in a block. Then the one way to drop leaves exactly the wanted instructions. The other leaves more
of them: what nobody reads is not wanted, and to take it out changes nothing about what is wanted. So
`adce`, the first way, comes to the same function whether or not `dce`, the second, has gone before.
-/

namespace BinaryLift.Func

variable {f g h k : Func} {p q : InstId → Bool} {b : BlockId} {id j : InstId} {v : Value}
  {keep : List InstId}

theorem mem_liveInsts_iff_isLive (hc : f.Consistent) : id ∈ f.liveInsts ↔ f.isLive id = true := by
  rw [mem_liveInsts, isLive, Option.isSome_iff_exists]
  exact exists_congr fun b => hc.mem_instsOf

/-! ### Functions with fewer instructions -/

/-- The function `g` is `f` with only the instructions left in the blocks that `p` picks out: these
stand in their order, and nothing else differs. -/
structure Retains (f : Func) (p : InstId → Bool) (g : Func) : Prop where
  head : g.head = f.head
  size : g.blocks.size = f.blocks.size
  inst? : ∀ id, g.inst? id = f.inst? id
  instBlock : ∀ id, g.instBlock id = if p id then f.instBlock id else none
  block? : ∀ b, g.block? b =
    (f.block? b).map fun data => { data with insts := data.insts.filter p }

/-- A function is its head and what its handles stand for. -/
theorem eq_of_handles (hhead : g.head = f.head) (hsize : g.blocks.size = f.blocks.size)
    (hinst : ∀ id, g.inst? id = f.inst? id) (hplace : ∀ id, g.instBlock id = f.instBlock id)
    (hblock : ∀ b, g.block? b = f.block? b) : g = f := by
  have harena : g.arena = f.arena := by
    refine Array.ext (size_arena_congr hinst) fun n h₁ h₂ => ?_
    have hi := hinst ⟨n⟩
    have hp := hplace ⟨n⟩
    simp only [Func.inst?, Func.instBlock, Array.getElem?_eq_getElem h₁,
      Array.getElem?_eq_getElem h₂, Option.map_some, Option.bind_some] at hi hp
    cases hg : g.arena[n] with
    | mk i c =>
      cases hf : f.arena[n] with
      | mk i' c' =>
        rw [hg, hf] at hi hp
        cases hi
        cases hp
        rfl
  have hblocks : g.blocks = f.blocks := by
    refine Array.ext hsize fun n h₁ h₂ => ?_
    have hb := hblock ⟨n⟩
    simpa only [Func.block?, Array.getElem?_eq_getElem h₁, Array.getElem?_eq_getElem h₂,
      Option.join_some] using hb
  obtain ⟨name, params, ret, linkage, arena, blocks, entry⟩ := f
  cases g
  cases hhead
  cases harena
  cases hblocks
  rfl

namespace Retains

theorem unique (hg : f.Retains p g) (hh : f.Retains p h) : h = g := by
  refine eq_of_handles (hh.head.trans hg.head.symm) (hh.size.trans hg.size.symm) (fun id => ?_)
    (fun id => ?_) fun b => ?_
  · rw [hh.inst?, hg.inst?]
  · rw [hh.instBlock, hg.instBlock]
  · rw [hh.block?, hg.block?]

theorem trans (hg : f.Retains p g) (hh : g.Retains q h) : f.Retains (fun id => p id && q id) h where
  head := hh.head.trans hg.head
  size := hh.size.trans hg.size
  inst? := fun id => (hh.inst? id).trans (hg.inst? id)
  instBlock := by
    intro id
    rw [hh.instBlock, hg.instBlock]
    cases p id <;> cases q id <;> rfl
  block? := by
    intro b
    rw [hh.block?, hg.block?, Option.map_map]
    congr 1
    funext data
    simp [List.filter_filter, Bool.and_comm]

/-- Only the instructions count that stand in a block. -/
theorem congr (hc : f.Consistent) (hpq : ∀ id, f.isLive id = true → p id = q id)
    (hg : f.Retains p g) : f.Retains q g where
  head := hg.head
  size := hg.size
  inst? := hg.inst?
  instBlock := by
    intro id
    rw [hg.instBlock]
    cases hlive : f.isLive id with
    | true => rw [hpq id hlive]
    | false =>
      have hnone : f.instBlock id = none :=
        Option.not_isSome_iff_eq_none.1 (by rw [← isLive, hlive]; simp)
      rw [hnone]
      cases p id <;> cases q id <;> rfl
  block? := by
    intro b
    rw [hg.block?]
    cases hdata : f.block? b with
    | none => rfl
    | some data =>
      simp only [Option.map_some]
      congr 2
      refine List.filter_congr fun id hid => hpq id ?_
      rw [isLive, (hc.mem_iff b data hdata id).1 hid]
      rfl

theorem self (hc : f.Consistent) (hp : ∀ id, f.isLive id = true → p id = true) :
    f.Retains p f := by
  have hall : f.Retains (fun _ => true) f := by
    refine ⟨rfl, rfl, fun _ => rfl, fun _ => rfl, fun b => ?_⟩
    cases f.block? b with
    | none => rfl
    | some data => simp
  exact hall.congr hc fun id hid => (hp id hid).symm

theorem isLive (hg : f.Retains p g) (id : InstId) : g.isLive id = (p id && f.isLive id) := by
  rw [Func.isLive, Func.isLive, hg.instBlock]
  cases p id <;> rfl

theorem mem_instsOf (hg : f.Retains p g) : id ∈ g.instsOf b ↔ id ∈ f.instsOf b ∧ p id = true := by
  rw [instsOf, instsOf, hg.block?]
  cases f.block? b with
  | none => simp
  | some data => simp

theorem consistent (hg : f.Retains p g) (hc : f.Consistent) : g.Consistent := by
  rw [consistent_iff] at hc ⊢
  refine ⟨fun id b => ?_, fun b => ?_⟩
  · rw [hg.mem_instsOf, hg.instBlock, hc.1]
    cases p id <;> simp
  · have hinsts : g.instsOf b = (f.instsOf b).filter p := by
      rw [instsOf, instsOf, hg.block?]
      cases f.block? b <;> rfl
    rw [hinsts]
    exact (hc.2 b).filter _

theorem liveBlocks (hg : f.Retains p g) : g.liveBlocks =
    f.liveBlocks.map fun e => (e.1, { e.2 with insts := e.2.insts.filter p }) := by
  have hblocks : g.blocks =
      f.blocks.map (·.map fun data => { data with insts := data.insts.filter p }) := by
    refine Array.ext (by rw [hg.size, Array.size_map]) fun n h₁ h₂ => ?_
    have hb := hg.block? ⟨n⟩
    rw [Array.size_map] at h₂
    rw [Array.getElem_map]
    simpa only [Func.block?, Array.getElem?_eq_getElem h₁, Array.getElem?_eq_getElem h₂,
      Option.join_some] using hb
  unfold Func.liveBlocks
  rw [hblocks, Array.toList_map, List.zipIdx_map, List.filterMap_map, List.map_filterMap]
  congr 1
  funext e
  obtain ⟨o, n⟩ := e
  cases o <;> rfl

/-- What is left stands in the order in which it stood. -/
theorem liveInsts (hg : f.Retains p g) : g.liveInsts = f.liveInsts.filter p := by
  unfold Func.liveInsts
  rw [hg.liveBlocks, List.flatMap_map, List.filter_flatMap]

end Retains

theorem blocks_removeInsts (f : Func) (ids : List InstId) :
    Ensures (fun g => g.blocks.size = f.blocks.size) (f.removeInsts ids) := by
  refine Ensures.foldlM (I := fun g : Func => g.blocks.size = f.blocks.size)
    (fun g id hg => ?_) rfl
  unfold removeInst
  split
  · exact .pure hg
  · refine Ensures.bind (P := fun g' : Func => g'.blocks.size = f.blocks.size)
      (.bind_any fun data => .pure ((size_putBlock _ _ _).trans hg)) fun g' hg' => .pure hg'

/-- Taking instructions out retains the others. -/
theorem removeInsts_retains (hc : f.Consistent) (ids : List InstId) :
    ∃ g, f.removeInsts ids = .ok g ∧ f.Retains (fun id => decide (id ∉ ids)) g := by
  obtain ⟨g, hg, hwithout⟩ := removeInsts_spec hc.housed ids
  refine ⟨g, hg, hasHead_removeInsts rfl ids g hg, f.blocks_removeInsts ids g hg, hwithout.inst?,
    fun id => ?_, hwithout.block?⟩
  rw [hwithout.instBlock]
  by_cases hid : id ∈ ids <;> simp [hid]

theorem Retains.mem_usersOf {u : User} (hg : f.Retains p g) (hu : u ∈ g.usersOf v) :
    u ∈ f.usersOf v := by
  obtain ⟨b, data, hdata, huser⟩ := Func.mem_usersOf.1 hu
  rw [hg.block?] at hdata
  obtain ⟨data', hdata', rfl⟩ := Option.map_eq_some_iff.1 hdata
  refine Func.mem_usersOf.2 ⟨b, data', hdata', huser.imp_left ?_⟩
  rintro ⟨id, i, hid, hi, hv, rfl⟩
  exact ⟨id, i, List.mem_of_mem_filter hid, (hg.inst? id).symm.trans hi, hv, rfl⟩

/-! ### What is wanted -/

/-- Whatever live code reads stands in a block. -/
def ReadsLive (f : Func) : Prop := ∀ j u, u ∈ f.usersOf (.inst j) → f.isLive j = true

namespace Wanted

theorem isLive (hc : f.Consistent) (hr : f.ReadsLive) (h : f.Wanted id) : f.isLive id = true := by
  induction h with
  | effects hid _ _ => exact hc.isLive_of_mem hid
  | term hdata hj => exact hr _ _ (usersOf_of_term hdata hj)
  | operand _ hi hj ih =>
    obtain ⟨b, hb⟩ := Option.isSome_iff_exists.1 ih
    exact hr _ _ (usersOf_of_mem (hc.mem_instsOf.2 hb) hi hj)

/-- A wanted instruction without effects has a reader. -/
theorem useCount_ne (hc : f.Consistent) (hr : f.ReadsLive) (h : f.Wanted id)
    (hidle : (f.inst? id).any (fun i => !i.kind.hasSideEffects) = true) : f.useCount id ≠ 0 := by
  have hread : ∀ u, u ∈ f.usersOf (.inst id) → f.useCount id ≠ 0 :=
    fun u hu => Nat.ne_of_gt (List.length_pos_of_mem hu)
  cases h with
  | effects _ hi heff =>
    rw [hi] at hidle
    simp [heff] at hidle
  | term hdata hj => exact hread _ (usersOf_of_term hdata hj)
  | operand hid hi hj =>
    obtain ⟨b, hb⟩ := Option.isSome_iff_exists.1 (hid.isLive hc hr)
    exact hread _ (usersOf_of_mem (hc.mem_instsOf.2 hb) hi hj)

end Wanted

theorem ReadsLive.exists_inst? (hc : f.Consistent) (hr : f.ReadsLive) :
    ∀ id, f.Wanted id → (f.inst? id).isSome = true := by
  intro id hid
  obtain ⟨b, hb⟩ := Option.isSome_iff_exists.1 (hid.isLive hc hr)
  obtain ⟨i, hi⟩ := hc.inst?_of_mem (hc.mem_instsOf.2 hb)
  rw [hi]
  rfl

/-- Nothing becomes wanted or unwanted as long as what is wanted is retained. -/
theorem Retains.wanted_iff (hg : f.Retains p g) (hp : ∀ id, f.Wanted id → p id = true) :
    g.Wanted id ↔ f.Wanted id := by
  constructor
  · intro h
    induction h with
    | effects hid hi heff =>
      exact .effects (hg.mem_instsOf.1 hid).1 ((hg.inst? _).symm.trans hi) heff
    | term hdata hj =>
      rw [hg.block?] at hdata
      obtain ⟨_, hdata', rfl⟩ := Option.map_eq_some_iff.1 hdata
      exact .term hdata' hj
    | operand _ hi hj ih => exact .operand ih ((hg.inst? _).symm.trans hi) hj
  · intro h
    induction h with
    | effects hid hi heff =>
      have hkept := hp _ (.effects hid hi heff)
      exact .effects (hg.mem_instsOf.2 ⟨hid, hkept⟩) ((hg.inst? _).trans hi) heff
    | @term b data j hdata hj =>
      have hdata' : g.block? b = some { data with insts := data.insts.filter p } := by
        rw [hg.block?, hdata]
        rfl
      exact .term hdata' hj
    | operand _ hi hj ih => exact .operand ih ((hg.inst? _).trans hi) hj

/-- Live code still reads what stands in a block, if nothing that is read has gone. -/
theorem Retains.readsLive (hg : f.Retains p g) (hr : f.ReadsLive)
    (hp : ∀ j u, u ∈ g.usersOf (.inst j) → p j = true) : g.ReadsLive := by
  intro j u hu
  rw [hg.isLive, hp j u hu, hr j u (hg.mem_usersOf hu)]
  rfl

/-! ### Dropping what is not needed -/

theorem mem_needed (hc : f.Consistent) (h : f.needed = .ok keep) : id ∈ keep ↔ f.Wanted id := by
  refine ⟨?_, (covers_of_needed hc h).wanted id⟩
  obtain ⟨roots, hroots, hmem⟩ := neededRoots_spec hc
  unfold needed at h
  rw [hroots] at h
  refine closure_subset (T := {id | f.Wanted id}) (fun x hx ys hys y hy => ?_)
    (fun x hx => .of_root ((hmem x).1 hx)) h id
  obtain ⟨k, hk, hys⟩ := bind_eq_ok.1 hys
  cases hys
  obtain ⟨i, hi, rfl⟩ := kind_eq_ok hk
  exact .operand hx hi (Value.mem_filterMap_inst?.1 hy)

theorem dropUnneeded_retains (hc : f.Consistent) (hr : f.ReadsLive)
    (hp : ∀ id, p id = true ↔ f.Wanted id) :
    ∃ g changed, f.dropUnneeded = .ok (g, changed) ∧ f.Retains p g ∧
      (changed = true ↔ ∃ id, f.isLive id = true ∧ ¬ f.Wanted id) := by
  obtain ⟨keep, hkeep⟩ := needed_of_wanted hc (hr.exists_inst? hc)
  have hdead : ∀ id, id ∈ f.liveInsts.filter (· ∉ keep) ↔ f.isLive id = true ∧ ¬ f.Wanted id := by
    intro id
    rw [List.mem_filter, decide_eq_true_eq, mem_needed hc hkeep, mem_liveInsts_iff_isLive hc]
  obtain ⟨g, hg, hretains⟩ := removeInsts_retains hc (f.liveInsts.filter (· ∉ keep))
  refine ⟨g, !(f.liveInsts.filter (· ∉ keep)).isEmpty, ?_, hretains.congr hc fun id hid => ?_, ?_⟩
  · unfold dropUnneeded
    simp only [hkeep, bind, Except.bind, hg]
    rfl
  · rw [Bool.eq_iff_iff, decide_eq_true_eq, hdead, hp]
    simp [hid]
  · rw [Bool.not_eq_true', Bool.eq_false_iff, Ne, List.isEmpty_iff, List.eq_nil_iff_forall_not_mem]
    simp only [not_forall, not_not, hdead]

/-- Where everything that stands in a block is wanted, nothing is dropped. -/
theorem dropUnneeded_idle (hc : f.Consistent) (hr : f.ReadsLive)
    (hall : ∀ id, f.isLive id = true → f.Wanted id) : f.dropUnneeded = .ok (f, false) := by
  classical
  obtain ⟨g, changed, hg, hretains, hchanged⟩ :=
    dropUnneeded_retains hc hr (p := fun id => decide (f.Wanted id)) fun id => decide_eq_true_iff
  have hidle : changed = false := by
    refine Bool.eq_false_iff.2 fun hc => ?_
    obtain ⟨id, hlive, hnot⟩ := hchanged.1 hc
    exact hnot (hall id hlive)
  have hsame : g = f := (Retains.self hc fun id hid => decide_eq_true (hall id hid)).unique hretains
  rw [hg, hidle, hsame]

/-! ### Dropping what nobody reads -/

theorem dropUnusedOnce_retains (hc : f.Consistent) (hr : f.ReadsLive) :
    ∃ g changed p, f.dropUnusedOnce = .ok (g, changed) ∧ f.Retains p g ∧
      (∀ id, f.Wanted id → p id = true) ∧ g.ReadsLive ∧
      Advances (fun g => g.liveInsts.length) f g changed := by
  obtain ⟨dead, hdead, hmem⟩ := unused_spec hc
  unfold dropUnusedOnce
  rw [hdead]
  cases dead with
  | nil =>
    exact ⟨f, false, fun _ => true, rfl, .self hc fun _ _ => rfl, fun _ _ => rfl, hr, .refl _ f⟩
  | cons id rest =>
    obtain ⟨g, hg, hretains⟩ := removeInsts_retains hc (id :: rest)
    refine ⟨g, true, _, ?_, hretains, fun j hj => ?_, hretains.readsLive hr fun j u hu => ?_,
      .of_lt ?_⟩
    · simp only [bind, Except.bind, List.isEmpty_cons, Bool.false_eq_true, if_false, hg]
      rfl
    · refine decide_eq_true fun hin => ?_
      obtain ⟨_, hidle, hcount⟩ := (hmem j).1 hin
      exact hj.useCount_ne hc hr hidle hcount
    · refine decide_eq_true fun hin => ?_
      exact Nat.ne_of_gt (List.length_pos_of_mem (hretains.mem_usersOf hu)) ((hmem j).1 hin).2.2
    · rw [hretains.liveInsts]
      refine List.length_filter_lt_length_iff_exists.2 ⟨id, ((hmem id).1 List.mem_cons_self).1, ?_⟩
      simp

/-- Reached from `f` by taking out what nobody read. -/
structure Stripped (f g : Func) : Prop where
  consistent : g.Consistent
  readsLive : g.ReadsLive
  retains : ∃ p, f.Retains p g ∧ ∀ id, f.Wanted id → p id = true

theorem dropUnused_retains (hc : f.Consistent) (hr : f.ReadsLive) :
    ∃ g changed, f.dropUnused = .ok (g, changed) ∧ f.Stripped g ∧
      g.dropUnusedOnce = .ok (g, false) := by
  refine untilStable_advances (I := f.Stripped) (μ := fun g => g.liveInsts.length) (fun g hg => ?_)
    ⟨hc, hr, fun _ => true, .self hc fun _ _ => rfl, fun _ _ => rfl⟩ (Nat.lt_succ_self _)
  obtain ⟨p, hp, hwanted⟩ := hg.retains
  obtain ⟨g', changed, q, hg', hq, hkept, hr', hadvances⟩ :=
    dropUnusedOnce_retains hg.consistent hg.readsLive
  refine ⟨g', changed, hg', ⟨hq.consistent hg.consistent, hr', _, hp.trans hq, fun id hid => ?_⟩,
    hadvances⟩
  rw [hwanted id hid, hkept id ((hp.wanted_iff hwanted).2 hid)]
  rfl

theorem dropUnused_idle (h : f.dropUnusedOnce = .ok (f, false)) : f.dropUnused = .ok (f, false) := by
  unfold dropUnused untilStable
  rw [h]
  rfl

theorem dropUnused_of_wanted (hc : f.Consistent) (hr : f.ReadsLive)
    (hall : ∀ id, f.isLive id = true → f.Wanted id) : f.dropUnused = .ok (f, false) := by
  obtain ⟨dead, hdead, hmem⟩ := unused_spec hc
  refine dropUnused_idle ?_
  unfold dropUnusedOnce
  rw [hdead]
  cases dead with
  | nil => rfl
  | cons id rest =>
    obtain ⟨hlive, hidle, hcount⟩ := (hmem id).1 List.mem_cons_self
    have hwanted := hall id ((mem_liveInsts_iff_isLive hc).1 hlive)
    exact absurd hcount (hwanted.useCount_ne hc hr hidle)

/-! ### Both ways to drop -/

/-- What a function of wanted instructions reads is wanted. -/
theorem Retains.wanted_of_user {u : User} (hg : f.Retains p g) (hp : ∀ id, p id = true → f.Wanted id)
    (hu : u ∈ g.usersOf (.inst j)) : f.Wanted j := by
  obtain ⟨b, data, hdata, huser⟩ := Func.mem_usersOf.1 hu
  rw [hg.block?] at hdata
  obtain ⟨data', hdata', rfl⟩ := Option.map_eq_some_iff.1 hdata
  rcases huser with ⟨id, i, hid, hi, hv, _⟩ | ⟨hv, _⟩
  · exact .operand (hp id (List.mem_filter.1 hid).2) ((hg.inst? id).symm.trans hi) hv
  · exact .term hdata' hv

/-- After the one pass exactly the wanted ones of the live instructions are left. The other pass takes
out none of these, whichever goes first the function is the same in the end, and neither pass finds
anything more to do. -/
theorem dropDead_exact (hc : f.Consistent) (hr : f.ReadsLive) :
    ∃ (wanted used : InstId → Bool) (g h : Func) (c₁ c₂ c₃ : Bool),
      (∀ id, wanted id = true ↔ f.Wanted id) ∧
      f.dropUnneeded = .ok (g, c₁) ∧ f.Retains wanted g ∧
      g.liveInsts = f.liveInsts.filter wanted ∧
      (c₁ = true ↔ ∃ id, f.isLive id = true ∧ ¬ f.Wanted id) ∧
      f.dropUnused = .ok (h, c₂) ∧ f.Retains used h ∧ (∀ id, wanted id = true → used id = true) ∧
      h.dropUnneeded = .ok (g, c₃) ∧
      g.dropUnneeded = .ok (g, false) ∧ g.dropUnused = .ok (g, false) ∧
      h.dropUnused = .ok (h, false) := by
  classical
  obtain ⟨wanted, hwanted⟩ : ∃ p : InstId → Bool, ∀ id, p id = true ↔ f.Wanted id :=
    ⟨fun id => decide (f.Wanted id), fun id => decide_eq_true_iff⟩
  obtain ⟨g, c₁, hg, hretains, hc₁⟩ := dropUnneeded_retains hc hr hwanted
  obtain ⟨h, c₂, hh, hstripped, hrest⟩ := dropUnused_retains hc hr
  obtain ⟨used, hused, hkept⟩ := hstripped.retains
  -- what is wanted of the stripped function is what was wanted
  obtain ⟨g', c₃, hg', hretains', _⟩ := dropUnneeded_retains hstripped.consistent
    hstripped.readsLive fun id => (hwanted id).trans (hused.wanted_iff hkept).symm
  have hsame : g' = g := by
    refine hretains.unique ((hused.trans hretains').congr hc fun id _ => ?_)
    cases hid : wanted id with
    | true => rw [hkept id ((hwanted id).1 hid)]; rfl
    | false => exact Bool.and_false _
  have hgc := hretains.consistent hc
  have hgr : g.ReadsLive := hretains.readsLive hr fun j u hu =>
    (hwanted j).2 (hretains.wanted_of_user (fun id => (hwanted id).1) hu)
  have hall : ∀ id, g.isLive id = true → g.Wanted id := by
    intro id hid
    rw [hretains.isLive, Bool.and_eq_true] at hid
    exact (hretains.wanted_iff fun j => (hwanted j).2).2 ((hwanted id).1 hid.1)
  exact ⟨wanted, used, g, h, c₁, c₂, c₃, hwanted, hg, hretains, hretains.liveInsts, hc₁, hh, hused,
    fun id hid => hkept id ((hwanted id).1 hid), hsame ▸ hg', dropUnneeded_idle hgc hgr hall,
    dropUnused_of_wanted hgc hgr hall, dropUnused_idle hrest⟩

/-- The unread load of the sample loop goes either way, the phi that only its own successor reads and
that successor as not wanted only. -/
theorem idleLoop_left :
    ∃ g h, idleLoop.dropUnneeded = .ok (g, true) ∧ g.liveInsts = [⟨0⟩, ⟨2⟩, ⟨5⟩, ⟨6⟩] ∧
      idleLoop.dropUnused = .ok (h, true) ∧ h.liveInsts = [⟨0⟩, ⟨1⟩, ⟨2⟩, ⟨3⟩, ⟨5⟩, ⟨6⟩] ∧
      h.dropUnneeded = .ok (g, true) ∧ g.dropUnneeded = .ok (g, false) := by
  have hreads : idleLoop.ReadsLive := fun _ _ => of_uses (by decide)
  obtain ⟨_, _, g, h, c₁, c₂, c₃, _, hg, _, _, _, hh, _, _, hboth, hagain, _, _⟩ :=
    dropDead_exact idleLoop_wellFormed.consistent hreads
  have hresult : ∀ {t : Transformed} {x : Func} {c : Bool} {insts : List InstId},
      t = .ok (x, c) → (t.toOption.map fun r => (r.2, r.1.liveInsts)) = some (true, insts) →
      c = true ∧ x.liveInsts = insts := by
    intro t x c insts ht heq
    rw [ht] at heq
    cases heq
    exact ⟨rfl, rfl⟩
  obtain ⟨rfl, hginsts⟩ := hresult hg
    (show _ = some (true, [⟨0⟩, ⟨2⟩, ⟨5⟩, ⟨6⟩]) by cbv)
  obtain ⟨rfl, hhinsts⟩ := hresult hh
    (show _ = some (true, [⟨0⟩, ⟨1⟩, ⟨2⟩, ⟨3⟩, ⟨5⟩, ⟨6⟩]) by cbv)
  have hthen : ((idleLoop.dropUnused.toOption.bind fun r => r.1.dropUnneeded.toOption).map
      fun r => r.2) = some true := by cbv
  rw [hh] at hthen
  simp only [Except.toOption, Option.bind_some, hboth, Option.map_some, Option.some.injEq] at hthen
  subst hthen
  exact ⟨g, h, hg, hginsts, hh, hhinsts, hboth, hagain⟩

end BinaryLift.Func
