import BinaryLift.Proofs.Program.Typing
import BinaryLift.Program.Func.Editing

/-!
# Reads after writes

What a block or an instruction is after each primitive change of the two arenas.
-/

namespace BinaryLift

theorem zipIdx_pairwise {α : Type} (l : List α) : l.zipIdx.Pairwise fun x y => x.2 ≠ y.2 := by
  have hnodup : (l.zipIdx.map (·.2)).Nodup := by
    rw [List.zipIdx_map_snd]
    exact List.nodup_range'
  exact List.pairwise_map.1 hnodup

namespace Func

/-! ### Blocks -/

theorem index_lt_of_block? {f : Func} {b : BlockId} {data : Block} (h : f.block? b = some data) :
    b.index < f.blocks.size := by
  by_contra hge
  rw [block?, Array.getElem?_eq_none (Nat.le_of_not_lt hge)] at h
  cases h

theorem block_eq_ok {f : Func} {b : BlockId} {data : Block} :
    f.block b = .ok data ↔ f.block? b = some data := by
  unfold block
  cases h : f.block? b with
  | none => simp
  | some d => simp

theorem containsBlock_iff {f : Func} {b : BlockId} :
    f.containsBlock b = true ↔ ∃ data, f.block? b = some data := by
  rw [containsBlock, Option.isSome_iff_exists]

theorem mem_liveBlocks {f : Func} {b : BlockId} {data : Block} :
    (b, data) ∈ f.liveBlocks ↔ f.block? b = some data := by
  unfold liveBlocks block?
  rw [List.mem_filterMap]
  constructor
  · rintro ⟨⟨o, n⟩, hmem, hmap⟩
    obtain ⟨d, hd, he⟩ := Option.map_eq_some_iff.1 hmap
    cases he
    have hget : f.blocks.toList[n]? = some o := List.mem_zipIdx_iff_getElem?.1 hmem
    rw [Array.getElem?_toList] at hget
    simp only at hd
    rw [hget, hd]
    rfl
  · intro h
    cases ho : f.blocks[b.index]? with
    | none =>
      rw [ho] at h
      cases h
    | some o =>
      rw [ho] at h
      refine ⟨(o, b.index), ?_, ?_⟩
      · rw [List.mem_zipIdx_iff_getElem?, Array.getElem?_toList]
        exact ho
      · have hd : o = some data := h
        rw [hd]
        rfl

theorem block?_addBlock (f : Func) (a : Option Word) (b : BlockId) :
    (f.addBlock a).1.block? b =
      if b.index = f.blocks.size then some { address := a } else f.block? b := by
  simp only [addBlock, block?, Array.getElem?_push]
  split <;> rfl

theorem block?_putBlock (f : Func) (b c : BlockId) (data : Option Block)
    (h : b.index < f.blocks.size) :
    (f.putBlock b data).block? c = if c = b then data else f.block? c := by
  simp only [putBlock, block?, Array.getElem?_setIfInBounds]
  by_cases hcb : c = b
  · subst hcb
    simp [h]
  · have hne : ¬ b.index = c.index := by
      intro he
      apply hcb
      cases b
      cases c
      simp only at he
      rw [he]
    simp [hcb, hne]

theorem modifyBlock_eq_ok {f g : Func} {b : BlockId} {k : Block → Block} :
    f.modifyBlock b k = .ok g ↔
      ∃ data, f.block? b = some data ∧ g = f.putBlock b (some (k data)) := by
  unfold modifyBlock
  cases hb : f.block b with
  | error e =>
    have hnone : ¬ ∃ data, f.block? b = some data := by
      rintro ⟨data, hd⟩
      rw [block_eq_ok.2 hd] at hb
      cases hb
    constructor
    · intro h
      cases h
    · rintro ⟨data, hd, _⟩
      exact absurd ⟨data, hd⟩ hnone
  | ok data =>
    have hd := block_eq_ok.1 hb
    constructor
    · intro h
      exact ⟨data, hd, (Except.ok.inj h).symm⟩
    · rintro ⟨d, hd', rfl⟩
      rw [hd] at hd'
      cases hd'
      rfl

theorem block?_of_modifyBlock {f g : Func} {b : BlockId} {k : Block → Block}
    (h : f.modifyBlock b k = .ok g) (c : BlockId) :
    g.block? c = if c = b then (f.block? b).map k else f.block? c := by
  obtain ⟨data, hd, rfl⟩ := modifyBlock_eq_ok.1 h
  rw [block?_putBlock f b c _ (index_lt_of_block? hd), hd]
  rfl

@[simp] theorem arena_putBlock (f : Func) (b : BlockId) (data : Option Block) :
    (f.putBlock b data).arena = f.arena := rfl

@[simp] theorem entry_putBlock (f : Func) (b : BlockId) (data : Option Block) :
    (f.putBlock b data).entry = f.entry := rfl

@[simp] theorem params_putBlock (f : Func) (b : BlockId) (data : Option Block) :
    (f.putBlock b data).params = f.params := rfl

@[simp] theorem size_putBlock (f : Func) (b : BlockId) (data : Option Block) :
    (f.putBlock b data).blocks.size = f.blocks.size := by
  simp [putBlock]

/-! ### Instructions -/

theorem inst?_eq_of_arena {f g : Func} (h : g.arena = f.arena) (id : InstId) :
    g.inst? id = f.inst? id := by
  rw [inst?, inst?, h]

theorem index_lt_of_inst? {f : Func} {id : InstId} {i : Inst} (h : f.inst? id = some i) :
    id.index < f.arena.size := by
  by_contra hge
  rw [inst?, Array.getElem?_eq_none (Nat.le_of_not_lt hge)] at h
  cases h

theorem appendInst_eq_ok {f g : Func} {b : BlockId} {i : Inst} {id : InstId}
    (h : f.appendInst b i = .ok (g, id)) :
    id = ⟨f.arena.size⟩ ∧ g.arena = f.arena.push ⟨i, some b⟩ ∧
      g.blocks.size = f.blocks.size ∧ g.params = f.params ∧
      ∃ data, f.block? b = some data ∧
        ∀ c, g.block? c = if c = b then some { data with insts := data.insts ++ [id] }
          else f.block? c := by
  simp only [appendInst, allocInst] at h
  cases hm : modifyBlock { f with arena := f.arena.push ⟨i, some b⟩ } b fun data =>
      { data with insts := data.insts ++ [⟨f.arena.size⟩] } with
  | error e =>
    rw [hm] at h
    cases h
  | ok g' =>
    rw [hm] at h
    cases h
    have hblock := block?_of_modifyBlock hm
    obtain ⟨data, hd, rfl⟩ := modifyBlock_eq_ok.1 hm
    refine ⟨rfl, rfl, size_putBlock _ _ _, rfl, data, hd, ?_⟩
    intro c
    rw [hblock c, hd]
    rfl

theorem insertIdx_append {α : Type} (l r : List α) (a : α) :
    (l ++ r).insertIdx l.length a = l ++ [a] ++ r := by
  induction l with
  | nil => rfl
  | cons x l ih => simpa using ih

theorem insertInst_of_block {f : Func} {b : BlockId} {data : Block} (n : Nat) (i : Inst)
    (hb : f.block? b = some data) :
    ∃ g, f.insertInst b n i = .ok (g, ⟨f.arena.size⟩) ∧ g.arena = f.arena.push ⟨i, some b⟩ ∧
      g.params = f.params ∧ g.entry = f.entry ∧
      ∀ c, g.block? c = if c = b then some { data with
        insts := data.insts.insertIdx (min n data.insts.length) ⟨f.arena.size⟩ } else f.block? c := by
  let pushed : Func := { f with arena := f.arena.push ⟨i, some b⟩ }
  let data' : Block :=
    { data with insts := data.insts.insertIdx (min n data.insts.length) ⟨f.arena.size⟩ }
  have hm : (pushed.modifyBlock b fun data =>
      { data with insts := data.insts.insertIdx (min n data.insts.length) ⟨f.arena.size⟩ }) =
      .ok (pushed.putBlock b (some data')) := modifyBlock_eq_ok.2 ⟨data, hb, rfl⟩
  refine ⟨pushed.putBlock b (some data'), ?_, rfl, rfl, rfl, ?_⟩
  · simp only [insertInst, allocInst]
    rw [hm]
    rfl
  · intro c
    exact block?_putBlock pushed b c (some data') (index_lt_of_block? hb)

theorem inst?_push {f g : Func} {s : Slot} (h : g.arena = f.arena.push s) (id : InstId) :
    g.inst? id = if id.index = f.arena.size then some s.inst else f.inst? id := by
  rw [inst?, inst?, h, Array.getElem?_push]
  split <;> rfl

theorem index_inst_inj {i j : InstId} : i.index = j.index ↔ i = j := by
  cases i
  cases j
  simp

theorem inst?_modifyKind (f : Func) (id j : InstId) (k : Kind → Kind) :
    (f.modifyKind id k).inst? j =
      if id = j then (f.inst? j).map fun i => ⟨k i.kind, i.ty⟩ else f.inst? j := by
  simp only [modifyKind, inst?, Array.getElem?_modify, index_inst_inj]
  split
  · rw [Option.map_map, Option.map_map]
    rfl
  · rfl

theorem instBlock_modifyKind (f : Func) (id j : InstId) (k : Kind → Kind) :
    (f.modifyKind id k).instBlock j = f.instBlock j := by
  simp only [modifyKind, instBlock, Array.getElem?_modify]
  split
  · cases f.arena[j.index]? <;> rfl
  · rfl

/-! ### Removal -/

/-- Every instruction that a live block lists says so, and instructions stand in live blocks. -/
structure Housed (f : Func) : Prop where
  live : ∀ id b, f.instBlock id = some b → f.containsBlock b = true
  mem : ∀ b data, f.block? b = some data → ∀ id ∈ data.insts, f.instBlock id = some b

theorem inst?_place (f : Func) (id j : InstId) (b : Option BlockId) :
    (f.place id b).inst? j = f.inst? j := by
  simp only [place, inst?, Array.getElem?_modify]
  split
  · cases f.arena[j.index]? <;> rfl
  · rfl

theorem instBlock_place_none (f : Func) (id j : InstId) :
    (f.place id none).instBlock j = if j = id then none else f.instBlock j := by
  simp only [place, instBlock, Array.getElem?_modify, index_inst_inj, eq_comm (a := j)]
  split
  · cases f.arena[j.index]? <;> rfl
  · rfl

/-- The function `g` is `f` without some instructions. -/
structure Without (f : Func) (ids : List InstId) (g : Func) : Prop where
  params : g.params = f.params
  entry : g.entry = f.entry
  inst? : ∀ j, g.inst? j = f.inst? j
  instBlock : ∀ j, g.instBlock j = if j ∈ ids then none else f.instBlock j
  block? : ∀ b, g.block? b = (f.block? b).map fun data =>
    { data with insts := data.insts.filter (· ∉ ids) }

theorem Without.housed {f g : Func} {ids : List InstId} (h : f.Without ids g) (hf : f.Housed) :
    g.Housed where
  live := by
    intro id b hb
    rw [h.instBlock id] at hb
    split at hb
    · cases hb
    · obtain ⟨data, hdata⟩ := containsBlock_iff.1 (hf.live id b hb)
      rw [containsBlock, h.block? b, hdata]
      rfl
  mem := by
    intro b data hdata id hid
    rw [h.block? b] at hdata
    obtain ⟨data₀, hdata₀, rfl⟩ := Option.map_eq_some_iff.1 hdata
    obtain ⟨hmem, hnot⟩ := List.mem_filter.1 hid
    rw [h.instBlock id, if_neg (by simpa using hnot)]
    exact hf.mem b data₀ hdata₀ id hmem

theorem removeInst_spec {f : Func} (hf : f.Housed) (id : InstId) :
    ∃ g, f.removeInst id = .ok g ∧ f.Without [id] g := by
  unfold removeInst
  cases hb : f.instBlock id with
  | none =>
    refine ⟨f, rfl, rfl, rfl, fun _ => rfl, ?_, ?_⟩
    · intro j
      split
      · rename_i hj
        rw [List.mem_singleton.1 hj, hb]
      · rfl
    · intro b
      cases hdata : f.block? b with
      | none => rfl
      | some data =>
        have hnot : data.insts.filter (· ∉ [id]) = data.insts := by
          refine List.filter_eq_self.2 fun j hj => ?_
          have hjb := hf.mem b data hdata j hj
          simp only [List.mem_singleton, decide_not, Bool.not_eq_eq_eq_not, Bool.not_true,
            decide_eq_false_iff_not]
          rintro rfl
          rw [hb] at hjb
          cases hjb
        rw [Option.map_some, hnot]
  | some b =>
    obtain ⟨data, hdata⟩ := containsBlock_iff.1 (hf.live id b hb)
    have hm : (f.modifyBlock b fun data => { data with insts := data.insts.filter (· ≠ id) }) =
        .ok (f.putBlock b (some { data with insts := data.insts.filter (· ≠ id) })) :=
      modifyBlock_eq_ok.2 ⟨data, hdata, rfl⟩
    refine ⟨(f.putBlock b (some { data with insts := data.insts.filter (· ≠ id) })).place id none,
      ?_, rfl, rfl, ?_, ?_, ?_⟩
    · simp only [hm]
      rfl
    · intro j
      exact inst?_place _ id j none
    · intro j
      rw [instBlock_place_none]
      simp only [List.mem_singleton]
      rfl
    · intro c
      refine (block?_of_modifyBlock hm c).trans ?_
      simp only [List.mem_singleton]
      split
      · rename_i hcb
        rw [hcb]
      · rename_i hcb
        cases hc : f.block? c with
        | none => rfl
        | some d =>
          -- the instruction stands in another block
          have hnot : d.insts.filter (· ≠ id) = d.insts := by
            refine List.filter_eq_self.2 fun j hj => ?_
            have hjc := hf.mem c d hc j hj
            rw [decide_eq_true_eq]
            rintro rfl
            rw [hb] at hjc
            exact hcb (Option.some.inj hjc).symm
          rw [Option.map_some, hnot]

theorem Without.trans {f g k : Func} {ids : List InstId} {id : InstId} (hfg : f.Without [id] g)
    (hgk : g.Without ids k) : f.Without (id :: ids) k where
  params := hgk.params.trans hfg.params
  entry := hgk.entry.trans hfg.entry
  inst? := fun j => (hgk.inst? j).trans (hfg.inst? j)
  instBlock := by
    intro j
    rw [hgk.instBlock j, hfg.instBlock j]
    simp only [List.mem_cons]
    by_cases h₁ : j = id <;> by_cases h₂ : j ∈ ids <;> simp [h₁, h₂]
  block? := by
    intro b
    rw [hgk.block? b, hfg.block? b, Option.map_map]
    congr 1
    funext data
    simp [List.filter_filter, Bool.and_comm]

theorem removeInsts_spec {f : Func} (hf : f.Housed) (ids : List InstId) :
    ∃ g, f.removeInsts ids = .ok g ∧ f.Without ids g := by
  induction ids generalizing f with
  | nil =>
    refine ⟨f, rfl, rfl, rfl, fun _ => rfl, fun j => by simp, fun b => ?_⟩
    cases f.block? b with
    | none => rfl
    | some data => simp [List.filter_eq_self.2]
  | cons id ids ih =>
    obtain ⟨g, hg, hfg⟩ := removeInst_spec hf id
    obtain ⟨k, hk, hgk⟩ := ih (hfg.housed hf)
    refine ⟨k, ?_, hfg.trans hgk⟩
    unfold removeInsts at hk ⊢
    rw [List.foldlM_cons, hg]
    exact hk

end Func

end BinaryLift
