import BinaryLift.Proofs.Transform.Chains
import BinaryLift.Proofs.Transform.Renaming

/-!
# The promoted function

What the function is after the walk: the slots and their accesses are gone, every operand is the end
of its chain, and each placed phi knows the value that leaves every reachable predecessor.
-/

namespace BinaryLift.Promotion

open Func

variable {f : Func} {P : Promotion f}

/-- Slots and their accesses. -/
def drops (P : Promotion f) (id : InstId) : Bool :=
  P.isAccess id || decide (id ∈ P.slots.map (·.1))

/-- The function `g` is `f` with the slots of `P` promoted and operands renamed by `ρ`. -/
structure Promoted (P : Promotion f) (g : Func) (ρ : Value → Value) : Prop where
  params : g.params = f.params
  entry : g.entry = f.entry
  block : ∀ b, g.block? b = (f.block? b).map fun data => { data with
    insts := data.insts.takeWhile f.isPhi ++ (P.phis.ofBlock b).map (·.2) ++
      (data.insts.dropWhile f.isPhi).filter fun id => !P.drops id
    term := data.term.mapOperands ρ }
  instBlock : ∀ id, g.instBlock id = if P.drops id then none else P.placed.instBlock id
  ty : ∀ id i, f.inst? id = some i → ∃ k, g.inst? id = some ⟨k, i.ty⟩
  inst : ∀ b id i, id ∈ f.instsOf b → P.drops id = false → f.inst? id = some i →
    g.inst? id = some ⟨i.kind.mapOperands ρ, i.ty⟩
  phi : ∀ b n p, (n, p) ∈ P.phis.ofBlock b → ∃ s ty inc, P.slots[n]? = some (s, ty) ∧
    g.inst? p = some ⟨.phi inc, some ty⟩ ∧ (inc.map (·.1)).Nodup ∧
      ∀ q v, (q, v) ∈ inc ↔ f.Reachable q ∧ f.Edge q b ∧ v = ρ (valueOf (P.out q) n)
  loads : ∀ id v, P.Loads id v → ρ (.inst id) = ρ v
  others : ∀ v, (∀ id u, v = .inst id → ¬ P.Loads id u) → ρ v = v

theorem mem_of_loads {id : InstId} {v : Value} (hl : P.Loads id v) :
    ∃ b, f.Reachable b ∧ id ∈ f.instsOf b := by
  obtain ⟨b, before, after, _, _, _, _, hb, hsplit, _⟩ := hl
  exact ⟨b, hb, mem_of_split hsplit⟩

theorem Sound.alloca_of_mem (h : P.Sound) {s : InstId} (hs : s ∈ P.slots.map (·.1)) :
    ∃ size o, f.inst? s = some ⟨.alloca size, o⟩ := by
  obtain ⟨n, ty, hn⟩ := mem_slots.1 hs
  exact h.alloca n s ty hn

theorem Sound.drops_phi (h : P.Sound) {b : BlockId} {n : Nat} {p : InstId}
    (hp : (n, p) ∈ P.phis.ofBlock b) : P.drops p = false := by
  have hnone := h.inst?_phi hp
  have hslot : p ∉ P.slots.map (·.1) := by
    intro hmem
    obtain ⟨_, _, hi⟩ := h.alloca_of_mem hmem
    rw [hnone] at hi
    cases hi
  simp only [drops, isAccess, hnone, hslot, decide_false, Bool.or_self]

theorem Sound.drops_isPhi (h : P.Sound) {id : InstId} (hid : f.isPhi id = true) :
    P.drops id = false := by
  obtain ⟨inc, o, hi⟩ := isPhi_eq_true hid
  have hslot : id ∉ P.slots.map (·.1) := by
    intro hmem
    obtain ⟨_, _, hi'⟩ := h.alloca_of_mem hmem
    rw [hi] at hi'
    cases hi'
  simp only [drops, isAccess, hi, hslot, decide_false, Bool.or_self]

variable {done : List BlockId} {g : Func} {t : Replacements}

theorem Renamed.get?_iff (hr : P.Renamed (done.flatMap f.instsOf) (P.Fed done) g t)
    (hdone : ∀ b, b ∈ done ↔ f.Reachable b) {id : InstId} {v : Value} :
    t.get? id = some v ↔ P.Loads id v := by
  rw [hr.replaced id v, and_iff_right_iff_imp]
  intro hl
  obtain ⟨b, hb, hid⟩ := mem_of_loads hl
  exact List.mem_flatMap.2 ⟨b, (hdone b).2 hb, hid⟩

theorem Renamed.chase_loads (h : P.Sound)
    (hr : P.Renamed (done.flatMap f.instsOf) (P.Fed done) g t)
    (hdone : ∀ b, b ∈ done ↔ f.Reachable b) {id : InstId} {v : Value} (hl : P.Loads id v) :
    t.chase (.inst id) = t.chase v := by
  have hrank : ∀ i j, t.get? i = some (.inst j) → t.has j = true →
      P.order.idxOf j < P.order.idxOf i := by
    intro i j hi hj
    obtain ⟨w, hw⟩ := Option.isSome_iff_exists.1 hj
    exact h.order_lt_of_loads ((hr.get?_iff hdone).1 hi) ((hr.get?_iff hdone).1 hw)
  exact Replacements.chase_of_get? hrank ((hr.get?_iff hdone).2 hl)

theorem Renamed.chase_others (hr : P.Renamed (done.flatMap f.instsOf) (P.Fed done) g t)
    (hdone : ∀ b, b ∈ done ↔ f.Reachable b) {v : Value}
    (hv : ∀ id u, v = .inst id → ¬ P.Loads id u) : t.chase v = v := by
  refine Replacements.chase_of_covers ?_
  cases v with
  | const c => rfl
  | arg k => rfl
  | inst id =>
    show Table.has t id = false
    rw [Table.has, Option.isSome_eq_false_iff, Option.isNone_iff_eq_none,
      Option.eq_none_iff_forall_ne_some]
    intro u hu
    exact hv id u rfl ((hr.get?_iff hdone).1 hu)

theorem find?_of_unique {inc : List (BlockId × Value)} {q : BlockId} {v : Value}
    (hmem : (q, v) ∈ inc) (huniq : ∀ w, (q, w) ∈ inc → w = v) :
    inc.find? (fun e => some e.1 = some q) = some (q, v) := by
  cases hfind : inc.find? (fun e => some e.1 = some q) with
  | none =>
    have hnot := List.find?_eq_none.1 hfind (q, v) hmem
    simp at hnot
  | some x =>
    obtain ⟨q', w⟩ := x
    have hq' : q' = q := by simpa using List.find?_some hfind
    subst hq'
    rw [huniq w (List.mem_of_find?_eq_some hfind)]

/-- Accesses stand in reachable blocks, so the walk has seen them all. -/
theorem Sound.access_seen (h : P.Sound) (hdone : ∀ b, b ∈ done ↔ f.Reachable b) {b : BlockId}
    {id : InstId} (hid : id ∈ f.instsOf b) (hacc : P.isAccess id = true) :
    id ∈ done.flatMap f.instsOf := by
  obtain ⟨n, s, ty, o, hs, hi⟩ := h.isAccess_cases hacc
  have hb : f.Reachable b := by
    rcases hi with hi | ⟨v, hi⟩
    · exact (h.users hid hi hs List.mem_cons_self).1
    · exact (h.users hid hi hs List.mem_cons_self).1
  exact List.mem_flatMap.2 ⟨b, (hdone b).2 hb, hid⟩

theorem Renamed.block_kept (h : P.Sound)
    (hr : P.Renamed (done.flatMap f.instsOf) (P.Fed done) g t)
    (hdone : ∀ b, b ∈ done ↔ f.Reachable b) {g' : Func}
    (hwo : g.Without (P.slots.map (·.1)) g') {b : BlockId} {data : Block}
    (hdata : f.block? b = some data) :
    g'.block? b = some { data with
      insts := data.insts.takeWhile f.isPhi ++ (P.phis.ofBlock b).map (·.2) ++
        (data.insts.dropWhile f.isPhi).filter fun id => !P.drops id } := by
  have hkeep : ∀ id ∈ data.insts, (decide (id ∉ P.slots.map (·.1)) &&
      !(P.isAccess id && decide (id ∈ done.flatMap f.instsOf))) = !P.drops id := by
    intro id hid
    rw [← instsOf_eq hdata] at hid
    have hseen : (P.isAccess id && decide (id ∈ done.flatMap f.instsOf)) = P.isAccess id := by
      cases hacc : P.isAccess id with
      | false => rfl
      | true => simpa using h.access_seen hdone hid hacc
    rw [drops, hseen, Bool.not_or, decide_not, Bool.and_comm]
  have hphis : ∀ id ∈ data.insts.takeWhile f.isPhi, (decide (id ∉ P.slots.map (·.1)) &&
      !(P.isAccess id && decide (id ∈ done.flatMap f.instsOf))) = true := by
    intro id hid
    rw [hkeep id ((List.takeWhile_prefix f.isPhi).subset hid), h.drops_isPhi (of_mem_takeWhile hid)]
    rfl
  have hnew : ∀ id ∈ (P.phis.ofBlock b).map (·.2), (decide (id ∉ P.slots.map (·.1)) &&
      !(P.isAccess id && decide (id ∈ done.flatMap f.instsOf))) = true := by
    intro id hid
    obtain ⟨⟨n, p⟩, hp, rfl⟩ := List.mem_map.1 hid
    have hdrop := h.drops_phi hp
    simp only [drops, Bool.or_eq_false_iff, decide_eq_false_iff_not] at hdrop
    simp only [hdrop.1, hdrop.2]
    rfl
  rw [hwo.block? b, hr.block b, h.block_placed hdata]
  simp only [Option.map_some, List.filter_append, List.filter_filter]
  rw [List.filter_eq_self.2 hphis, List.filter_eq_self.2 hnew, List.filter_congr fun id hid =>
    hkeep id ((List.dropWhile_suffix f.isPhi).subset hid)]

theorem Renamed.instBlock_kept (h : P.Sound)
    (hr : P.Renamed (done.flatMap f.instsOf) (P.Fed done) g t)
    (hdone : ∀ b, b ∈ done ↔ f.Reachable b) {g' : Func}
    (hwo : g.Without (P.slots.map (·.1)) g') (id : InstId) :
    g'.instBlock id = if P.drops id then none else P.placed.instBlock id := by
  rw [hwo.instBlock id, hr.instBlock id]
  by_cases hslot : id ∈ P.slots.map (·.1)
  · have hdrop : P.drops id = true := by simp only [drops, hslot, decide_true, Bool.or_true]
    rw [if_pos hslot, if_pos hdrop]
  rw [if_neg hslot]
  have hdrop : P.drops id = P.isAccess id := by
    simp only [drops, hslot, decide_false, Bool.or_false]
  rw [hdrop]
  by_cases hseen : P.isAccess id = true ∧ id ∈ done.flatMap f.instsOf
  · rw [if_pos hseen, if_pos hseen.1]
  rw [if_neg hseen]
  by_cases hacc : P.isAccess id = true
  · -- an access that has not been seen stands nowhere
    rw [if_pos hacc]
    obtain ⟨n, s, ty, o, _, hi⟩ := h.isAccess_cases hacc
    have hlt : id.index < f.arena.size := by
      rcases hi with hi | ⟨v, hi⟩
      · exact index_lt_of_inst? hi
      · exact index_lt_of_inst? hi
    rw [h.instBlock_old hlt, Option.eq_none_iff_forall_ne_some]
    intro b hb
    exact hseen ⟨hacc, h.access_seen hdone (h.wellFormed.consistent.mem_instsOf.2 hb) hacc⟩
  · rw [if_neg hacc]

/-- The slots go, and the chains are followed. -/
theorem Renamed.promoted (h : P.Sound)
    (hr : P.Renamed (done.flatMap f.instsOf) (P.Fed done) g t)
    (hdone : ∀ b, b ∈ done ↔ f.Reachable b) :
    ∃ g', g.removeInsts (P.slots.map (·.1)) = .ok g' ∧
      P.Promoted (g'.applyReplacements t) t.chase := by
  obtain ⟨g', hg', hwo⟩ := removeInsts_spec hr.housed (P.slots.map (·.1))
  refine ⟨g', hg', ?_⟩
  rw [applyReplacements_eq]
  have hold : ∀ id i, f.inst? id = some i → g'.inst? id = some i := by
    intro id i hi
    rw [hwo.inst? id, hr.old id (index_lt_of_inst? hi)]
    exact hi
  have hkept : ∀ id, g'.instBlock id = if P.drops id then none else P.placed.instBlock id :=
    hr.instBlock_kept h hdone hwo
  -- what is not dropped still stands in its block
  have hlive : ∀ id b, P.placed.instBlock id = some b → P.drops id = false → g'.isLive id = true := by
    intro id b hb hdrop
    rw [isLive, hkept id, hdrop, if_neg Bool.false_ne_true, hb]
    rfl
  refine ⟨hwo.params.trans hr.params, hwo.entry.trans hr.entry, ?_, ?_, ?_, ?_, ?_,
    fun id v => hr.chase_loads h hdone, fun v => hr.chase_others hdone⟩
  · intro b
    rw [block?_mapOperands]
    cases hdata : f.block? b with
    | none => rw [hwo.block? b, hr.block b, h.placed.block b, hdata]; rfl
    | some data =>
      rw [hr.block_kept h hdone hwo hdata]
      rfl
  · intro id
    rw [instBlock_mapOperands]
    exact hkept id
  · intro id i hi
    exact ⟨_, inst?_mapOperands t.chase (hold id i hi)⟩
  · intro b id i hid hdrop hi
    have hb : P.placed.instBlock id = some b := by
      rw [h.instBlock_old (h.index_lt hid)]
      exact h.wellFormed.consistent.mem_instsOf.1 hid
    rw [inst?_mapOperands t.chase (hold id i hi), if_pos (hlive id b hb hdrop)]
  · intro b n p hp
    obtain ⟨s, ty, inc, hs, hi, hnodup, hinc⟩ := hr.phi b n p hp
    have hg : g'.inst? p = some ⟨.phi inc, some ty⟩ := (hwo.inst? p).trans hi
    refine ⟨s, ty, inc.map fun e => (e.1, t.chase e.2), hs, ?_, ?_, fun q v => ?_⟩
    · rw [inst?_mapOperands t.chase hg, if_pos (hlive p b (h.instBlock_phi hp) (h.drops_phi hp))]
      rfl
    · rw [List.map_map]
      exact hnodup
    · have hfed : ∀ q, P.Fed done q p ↔ f.Reachable q ∧ f.Edge q b := by
        intro q
        refine and_congr (hdone q) ⟨?_, fun hedge => ⟨b, n, hedge, hp⟩⟩
        rintro ⟨c, m, hedge, hp'⟩
        rwa [(h.phi_unique hp hp').1]
      simp only [List.mem_map, Prod.exists, Prod.mk.injEq, hinc, hfed]
      constructor
      · rintro ⟨_, _, ⟨⟨hq, hedge⟩, rfl⟩, rfl, rfl⟩
        exact ⟨hq, hedge, rfl⟩
      · rintro ⟨hq, hedge, rfl⟩
        exact ⟨q, _, ⟨⟨hq, hedge⟩, rfl⟩, rfl, rfl⟩

/-- No slot is left. -/
theorem Promoted.live {ρ : Value → Value} (hp : P.Promoted g ρ) {s : InstId}
    (hs : g.isLive s = true) : s ∉ P.slots.map (·.1) := by
  intro hmem
  have hdrop : P.drops s = true := by simp only [drops, hmem, decide_true, Bool.or_true]
  rw [isLive, hp.instBlock s, if_pos hdrop] at hs
  cases hs

end BinaryLift.Promotion
