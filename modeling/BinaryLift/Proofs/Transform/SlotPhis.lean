import BinaryLift.Proofs.Graph.Frontiers
import BinaryLift.Proofs.Transform.Slots

/-!
# Placing the phis of slots

The new phis stand between the old ones and the rest of their block, one for each slot that has the
block in its iterated frontier. Nothing else changes.
-/

namespace BinaryLift.Func

theorem ofBlock_update (t : SlotPhis) (b c : BlockId) (k : List (Nat × InstId) → List (Nat × InstId)) :
    SlotPhis.ofBlock (t.update b [] k) c = if b = c then k (t.ofBlock b) else t.ofBlock c := by
  unfold SlotPhis.ofBlock Table.update
  rw [Table.get?_insert]
  split <;> rfl

/-- The function `g` is `f` with empty phis, listed in `t`, for those slots and blocks that satisfy
`has`. -/
structure Placed (f : Func) (slots : List (InstId × Ty)) (has : Nat → BlockId → Prop) (g : Func)
    (t : SlotPhis) : Prop where
  params : g.params = f.params
  entry : g.entry = f.entry
  block : ∀ b, g.block? b = (f.block? b).map fun d => { d with
    insts := d.insts.takeWhile f.isPhi ++ (t.ofBlock b).map (·.2) ++ d.insts.dropWhile f.isPhi }
  size : f.arena.size ≤ g.arena.size
  old : ∀ n, n < f.arena.size → g.arena[n]? = f.arena[n]?
  new : ∀ b n p, (n, p) ∈ t.ofBlock b → f.arena.size ≤ p.index ∧
    ∃ s ty, slots[n]? = some (s, ty) ∧ g.arena[p.index]? = some ⟨⟨.phi [], some ty⟩, some b⟩
  numbers : ∀ b, ((t.ofBlock b).map (·.1)).Nodup
  phis : ∀ b, ((t.ofBlock b).map (·.2)).Nodup
  mem_iff : ∀ n b, (∃ p, (n, p) ∈ t.ofBlock b) ↔ has n b
  fresh : ∀ p : InstId, f.arena.size ≤ p.index → p.index < g.arena.size →
    ∃ b n, (n, p) ∈ t.ofBlock b

theorem Placed.refl (f : Func) (slots : List (InstId × Ty)) :
    Placed f slots (fun _ _ => False) f [] where
  params := rfl
  entry := rfl
  block := by
    intro b
    cases f.block? b with
    | none => rfl
    | some d => simp [SlotPhis.ofBlock, Table.get?]
  size := Nat.le_refl _
  old := fun _ _ => rfl
  new := by
    intro b n p h
    cases h
  numbers := fun _ => List.nodup_nil
  phis := fun _ => List.nodup_nil
  mem_iff := by
    intro n b
    simp [SlotPhis.ofBlock, Table.get?]
  fresh := by
    intro p hle hlt
    omega

variable {f g : Func} {slots : List (InstId × Ty)} {has : Nat → BlockId → Prop} {t : SlotPhis}

theorem Placed.inst?_old (h : Placed f slots has g t) {id : InstId}
    (hid : id.index < f.arena.size) : g.inst? id = f.inst? id := by
  rw [Func.inst?, Func.inst?, h.old id.index hid]

theorem Placed.isPhi_old (h : Placed f slots has g t) {id : InstId}
    (hid : id.index < f.arena.size) : g.isPhi id = f.isPhi id := by
  rw [isPhi, isPhi, h.inst?_old hid]

theorem Placed.isPhi_new (h : Placed f slots has g t) {b : BlockId} {n : Nat} {p : InstId}
    (hp : (n, p) ∈ t.ofBlock b) : g.isPhi p = true := by
  obtain ⟨_, _, _, _, hslot⟩ := h.new b n p hp
  rw [isPhi, Func.inst?, hslot]
  rfl

theorem Placed.phis_eq (h : Placed f slots has g t) (hc : f.Consistent) {b : BlockId} {d : Block}
    (hd : f.block? b = some d) :
    g.phis b = .ok (d.insts.takeWhile f.isPhi ++ (t.ofBlock b).map (·.2)) := by
  have hblock : g.block? b = some { d with
      insts := d.insts.takeWhile f.isPhi ++ (t.ofBlock b).map (·.2) ++ d.insts.dropWhile f.isPhi } := by
    rw [h.block b, hd]
    rfl
  unfold Func.phis
  rw [block_eq_ok.2 hblock]
  show Except.ok _ = _
  congr 1
  refine takeWhile_append_of_all (p := g.isPhi) ?_ ?_
  · intro id hid
    rcases List.mem_append.1 hid with hid | hid
    · have hmem := (List.takeWhile_prefix f.isPhi).subset hid
      rw [h.isPhi_old (hc.index_lt hd hmem)]
      exact of_mem_takeWhile hid
    · obtain ⟨⟨n, p⟩, hp, rfl⟩ := List.mem_map.1 hid
      exact h.isPhi_new hp
  · intro id hid
    have hmem : id ∈ d.insts := (List.dropWhile_suffix f.isPhi).subset (List.mem_of_head? hid)
    rw [h.isPhi_old (hc.index_lt hd hmem)]
    exact head_dropWhile hid

theorem mem_ofBlock_update {t : SlotPhis} {b c : BlockId} {x y : Nat × InstId} :
    y ∈ SlotPhis.ofBlock (t.update b [] (· ++ [x])) c ↔ y ∈ t.ofBlock c ∨ (b = c ∧ y = x) := by
  rw [ofBlock_update]
  split
  · rename_i hbc
    subst hbc
    simp
  · rename_i hbc
    simp [hbc]

theorem Placed.lt (h : Placed f slots has g t) {b : BlockId} {n : Nat} {p : InstId}
    (hp : (n, p) ∈ t.ofBlock b) : p.index < g.arena.size := by
  obtain ⟨_, _, _, _, hget⟩ := h.new b n p hp
  exact (Array.getElem?_eq_some_iff.1 hget).1

theorem nodup_ofBlock_update {β : Type} {φ : Nat × InstId → β} {t : SlotPhis}
    (hnodup : ∀ c, ((t.ofBlock c).map φ).Nodup) {b : BlockId} {x : Nat × InstId}
    (hx : ∀ y ∈ t.ofBlock b, φ y ≠ φ x) (c : BlockId) :
    ((SlotPhis.ofBlock (t.update b [] (· ++ [x])) c).map φ).Nodup := by
  rw [ofBlock_update]
  split
  · rw [List.map_append, List.nodup_append]
    refine ⟨hnodup b, by simp, ?_⟩
    rintro u hu v hv rfl
    obtain ⟨y, hy, rfl⟩ := List.mem_map.1 hu
    rw [List.map_singleton, List.mem_singleton] at hv
    exact hx y hy hv
  · exact hnodup c

/-- One more phi, behind those that the block has got. -/
theorem Placed.push (h : Placed f slots has g t) {n : Nat} {s : InstId} {ty : Ty}
    (hslot : slots[n]? = some (s, ty)) {b : BlockId} {d : Block} (hd : f.block? b = some d)
    (hnew : ¬ has n b) {g' : Func} (hparams : g'.params = g.params) (hentry : g'.entry = g.entry)
    (harena : g'.arena = g.arena.push ⟨⟨.phi [], some ty⟩, some b⟩)
    (hblocks : ∀ c, g'.block? c = if c = b then some { d with
      insts := d.insts.takeWhile f.isPhi ++ (t.ofBlock b).map (·.2) ++ [⟨g.arena.size⟩] ++
        d.insts.dropWhile f.isPhi } else g.block? c) :
    Placed f slots (fun m c => has m c ∨ (m = n ∧ c = b)) g'
      (t.update b [] (· ++ [(n, ⟨g.arena.size⟩)])) where
  params := hparams.trans h.params
  entry := hentry.trans h.entry
  block := by
    intro c
    rw [hblocks c, ofBlock_update]
    by_cases hcb : c = b
    · subst hcb
      rw [if_pos rfl, if_pos rfl, hd]
      simp only [Option.map_some, List.map_append, List.map_cons, List.map_nil, List.append_assoc]
    · rw [if_neg hcb, if_neg (Ne.symm hcb)]
      exact h.block c
  size := by
    rw [harena, Array.size_push]
    exact Nat.le_succ_of_le h.size
  old := by
    intro k hk
    have hkg : k < g.arena.size := Nat.lt_of_lt_of_le hk h.size
    rw [harena, Array.getElem?_push, if_neg (Nat.ne_of_lt hkg)]
    exact h.old k hk
  new := by
    intro c m p hp
    rcases mem_ofBlock_update.1 hp with hp | ⟨rfl, heq⟩
    · obtain ⟨hle, s', ty', hs', hget⟩ := h.new c m p hp
      refine ⟨hle, s', ty', hs', ?_⟩
      rw [harena, Array.getElem?_push, if_neg (Nat.ne_of_lt (h.lt hp))]
      exact hget
    · cases heq
      refine ⟨h.size, s, ty, hslot, ?_⟩
      rw [harena]
      exact Array.getElem?_push_size
  numbers := by
    refine nodup_ofBlock_update h.numbers ?_
    rintro ⟨m, p⟩ hp heq
    obtain rfl : m = n := heq
    exact hnew ((h.mem_iff m b).1 ⟨p, hp⟩)
  phis := by
    refine nodup_ofBlock_update h.phis ?_
    rintro ⟨m, p⟩ hp heq
    have hlt : p.index < g.arena.size := h.lt hp
    rw [show p = ⟨g.arena.size⟩ from heq] at hlt
    exact Nat.lt_irrefl _ hlt
  mem_iff := by
    intro m c
    simp only [mem_ofBlock_update, Prod.mk.injEq, ← h.mem_iff]
    constructor
    · rintro ⟨p, hp | ⟨rfl, rfl, _⟩⟩
      · exact .inl ⟨p, hp⟩
      · exact .inr ⟨rfl, rfl⟩
    · rintro (⟨p, hp⟩ | ⟨rfl, rfl⟩)
      · exact ⟨p, .inl hp⟩
      · exact ⟨_, .inr ⟨rfl, rfl, rfl⟩⟩
  fresh := by
    intro p hle hp
    rw [harena, Array.size_push] at hp
    by_cases hps : p.index < g.arena.size
    · obtain ⟨c, m, hmem⟩ := h.fresh p hle hps
      exact ⟨c, m, mem_ofBlock_update.2 (.inl hmem)⟩
    · refine ⟨b, n, mem_ofBlock_update.2 (.inr ⟨rfl, ?_⟩)⟩
      obtain ⟨k⟩ := p
      have hk : k = g.arena.size := by
        simp only at hp hps
        omega
      rw [hk]

theorem Placed.insert (h : Placed f slots has g t) (hc : f.Consistent) {n : Nat} {s : InstId}
    {ty : Ty} (hslot : slots[n]? = some (s, ty)) {b : BlockId} {d : Block}
    (hd : f.block? b = some d) (hnew : ¬ has n b) :
    ∃ g' t', (do
        let (g', phi) ← g.insertInst b (← g.phis b).length ⟨.phi [], some ty⟩
        return (g', t.update b [] (· ++ [(n, phi)])) : Checked (Func × SlotPhis)) = .ok (g', t') ∧
      Placed f slots (fun m c => has m c ∨ (m = n ∧ c = b)) g' t' := by
  have hblock : g.block? b = some { d with
      insts := d.insts.takeWhile f.isPhi ++ (t.ofBlock b).map (·.2) ++ d.insts.dropWhile f.isPhi } := by
    rw [h.block b, hd]
    rfl
  obtain ⟨g', hg', harena, hparams, hentry, hblocks⟩ := insertInst_of_block
    (d.insts.takeWhile f.isPhi ++ (t.ofBlock b).map (·.2)).length ⟨.phi [], some ty⟩ hblock
  refine ⟨g', _, ?_, h.push hslot hd hnew hparams hentry harena fun c => ?_⟩
  · rw [h.phis_eq hc hd]
    simp only [bind, Except.bind]
    rw [hg']
    rfl
  · rw [hblocks c]
    simp only
    rw [Nat.min_eq_left (by simp), insertIdx_append]

theorem Placed.congr {has' : Nat → BlockId → Prop} (h : Placed f slots has g t)
    (hiff : ∀ n b, has n b ↔ has' n b) : Placed f slots has' g t := by
  have heq : has = has' := by
    funext n b
    exact propext (hiff n b)
  rwa [← heq]

theorem Placed.placeSlotPhis (hc : f.Consistent) {n : Nat} {s : InstId} {ty : Ty}
    (hslot : slots[n]? = some (s, ty)) {bs : List BlockId} (hnodup : bs.Nodup)
    (hlive : ∀ b ∈ bs, f.containsBlock b = true) :
    ∀ {has g t}, Placed f slots has g t → (∀ b ∈ bs, ¬ has n b) →
      ∃ g' t', placeSlotPhis n ty (g, t) bs = .ok (g', t') ∧
        Placed f slots (fun m c => has m c ∨ (m = n ∧ c ∈ bs)) g' t' := by
  unfold Func.placeSlotPhis
  induction bs with
  | nil =>
    intro has g t h _
    refine ⟨g, t, rfl, h.congr ?_⟩
    simp
  | cons b bs ih =>
    intro has g t h hnew
    obtain ⟨d, hd⟩ := containsBlock_iff.1 (hlive b List.mem_cons_self)
    obtain ⟨g₁, t₁, hstep, h₁⟩ := h.insert hc hslot hd (hnew b List.mem_cons_self)
    rw [List.nodup_cons] at hnodup
    obtain ⟨g₂, t₂, hrest, h₂⟩ := ih hnodup.2 (fun c hcb => hlive c (List.mem_cons_of_mem _ hcb)) h₁ (by
      rintro c hcb (hhas | ⟨_, rfl⟩)
      · exact hnew c (List.mem_cons_of_mem _ hcb) hhas
      · exact hnodup.1 hcb)
    refine ⟨g₂, t₂, ?_, h₂.congr ?_⟩
    · rw [List.foldlM_cons]
      simp only at hstep ⊢
      rw [hstep]
      exact hrest
    · intro m c
      rw [List.mem_cons, and_or_left, or_assoc]

theorem Placed.placeAll (hc : f.Consistent) {d : DomTree} {front : InstId → List BlockId}
    (hfront : ∀ s, d.iteratedFrontier (f.storeBlocks s) = .ok (front s))
    (hnodup : ∀ s, (front s).Nodup) (hlive : ∀ s, ∀ b ∈ front s, f.containsBlock b = true)
    (l : List ((InstId × Ty) × Nat)) :
    ∀ {has g t}, Placed f slots has g t → (∀ x ∈ l, slots[x.2]? = some x.1) →
      (l.map (·.2)).Nodup → (∀ x ∈ l, ∀ b, ¬ has x.2 b) →
      ∃ g' t', l.foldlM (fun acc e => do
          Func.placeSlotPhis e.2 e.1.2 acc (← d.iteratedFrontier (f.storeBlocks e.1.1))) (g, t) =
        .ok (g', t') ∧
        Placed f slots (fun m c => has m c ∨ ∃ x ∈ l, x.2 = m ∧ c ∈ front x.1.1) g' t' := by
  induction l with
  | nil =>
    intro has g t h _ _ _
    refine ⟨g, t, rfl, h.congr ?_⟩
    simp
  | cons x l ih =>
    intro has g t h hslots hnumbers hnew
    rw [List.map_cons, List.nodup_cons] at hnumbers
    obtain ⟨g₁, t₁, hstep, h₁⟩ := Placed.placeSlotPhis hc (hslots x List.mem_cons_self)
      (hnodup x.1.1) (hlive x.1.1) h fun b _ => hnew x List.mem_cons_self b
    obtain ⟨g₂, t₂, hrest, h₂⟩ := ih h₁ (fun y hy => hslots y (List.mem_cons_of_mem _ hy)) hnumbers.2
      (by
        rintro y hy b (hhas | ⟨heq, _⟩)
        · exact hnew y (List.mem_cons_of_mem _ hy) b hhas
        · exact hnumbers.1 (heq ▸ List.mem_map.2 ⟨y, hy, rfl⟩))
    refine ⟨g₂, t₂, ?_, h₂.congr fun m c => ?_⟩
    · rw [List.foldlM_cons, hfront]
      show (Func.placeSlotPhis x.2 x.1.2 (g, t) (front x.1.1)).bind _ = _
      rw [hstep]
      exact hrest
    · simp only [List.mem_cons, exists_eq_or_imp]
      rw [or_assoc, eq_comm]

/-- Each slot gets a phi in the blocks of its iterated frontier and nowhere else. -/
theorem placePhis_spec (hc : f.Consistent) {d : DomTree} {front : InstId → List BlockId}
    (hfront : ∀ s, d.iteratedFrontier (f.storeBlocks s) = .ok (front s))
    (hnodup : ∀ s, (front s).Nodup) (hlive : ∀ s, ∀ b ∈ front s, f.containsBlock b = true)
    (slots : List (InstId × Ty)) :
    ∃ g t, f.placePhis d slots = .ok (g, t) ∧
      Placed f slots (fun n b => ∃ x, slots[n]? = some x ∧ b ∈ front x.1) g t := by
  obtain ⟨g, t, hplace, h⟩ := Placed.placeAll hc hfront hnodup hlive slots.zipIdx (Placed.refl f slots)
    (fun x hx => List.mem_zipIdx_iff_getElem?.1 hx) (by
      rw [List.zipIdx_map_snd]
      exact List.nodup_range')
    fun _ _ _ hfalse => hfalse
  refine ⟨g, t, hplace, h.congr fun n b => ?_⟩
  simp only [false_or, List.mem_zipIdx_iff_getElem?, Prod.exists]
  constructor
  · rintro ⟨s, ty, m, hget, rfl, hb⟩
    exact ⟨s, ty, hget, hb⟩
  · rintro ⟨s, ty, hget, hb⟩
    exact ⟨s, ty, n, hget, rfl, hb⟩

end BinaryLift.Func
