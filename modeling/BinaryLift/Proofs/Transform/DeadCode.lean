import BinaryLift.Proofs.Graph.Frontiers
import BinaryLift.Proofs.Run.Surveys
import BinaryLift.Proofs.Transform.Rounds
import BinaryLift.Proofs.Transform.StandIns
import BinaryLift.Transform.DeadCode
import Mathlib

/-!
# Dropping dead code preserves executions

What `dce` and `adce` drop has no effects, and nothing that stays reads it: then the two executions agree
on all that stays. Nobody reads what is unused. What is not needed is read by what is not needed at most,
so even phis that read each other around a loop can go.
-/

namespace BinaryLift

theorem Value.mem_filterMap_inst? {vs : List Value} {j : InstId} :
    j ∈ vs.filterMap Value.inst? ↔ .inst j ∈ vs := by
  rw [List.mem_filterMap]
  constructor
  · rintro ⟨v, hv, hj⟩
    cases v with
    | inst k =>
      cases hj
      exact hv
    | const c => cases hj
    | arg n => cases hj
  · exact fun h => ⟨.inst j, h, rfl⟩

namespace Func

variable {f g : Func} {drop : InstId → Bool} {b : BlockId} {pre : List InstId} {id j : InstId}
  {v : Value} {changed : Bool} {ids keep : List InstId}

/-! ### What can be dropped -/

/-- What is dropped has no effects, and nothing that stays reads it. -/
structure Dispensable (f : Func) (drop : InstId → Bool) : Prop where
  idle : ∀ b id i, f.Reachable b → id ∈ f.instsOf b → drop id = true → f.inst? id = some i →
    i.kind.hasSideEffects = false
  unread : ∀ b pre j, f.Reads drop b pre (.inst j) → drop j = false

namespace Dispensable

theorem supplied (h : f.Dispensable drop) (hwf : f.WellFormed) : f.Supplied drop fun v => v := by
  refine fun b pre v hread => ⟨hread.atHand hwf, ?_⟩
  rintro j rfl
  exact h.unread b pre j hread

theorem suited (h : f.Dispensable drop) (hwf : f.WellFormed) (own : InstId → Bool) :
    f.Suited own drop fun v => v where
  supplied := h.supplied hwf
  idle := h.idle
  ty := fun _ _ _ _ => rfl
  own := fun _ _ _ _ _ _ => Iff.rfl

theorem keeps (h : f.Dispensable (fun id => decide (id ∈ ids))) (hwf : f.WellFormed)
    (hg : f.Without ids g) : f.Keeps g := by
  have hsub : f.Substituted (fun id => decide (id ∈ ids)) (fun v => v) g := by
    refine substituted_of_without hwf.consistent ?_
    rwa [mapOperands_of_id fun _ => rfl]
  exact hsub.keeps_of_suited hwf (h.supplied hwf) (fun own _ => h.suited hwf own)
    fun _ _ _ _ _ _ _ _ _ _ _ hw => hw

end Dispensable

/-! ### What nobody reads -/

theorem usersOf_of_term {data : Block} (hdata : f.block? b = some data)
    (hv : v ∈ data.term.operands) : User.term b ∈ f.usersOf v := by
  have huse : (v, User.term b) ∈ f.uses :=
    List.mem_flatMap.2 ⟨(b, data), mem_liveBlocks.2 hdata,
      List.mem_append_right _ (List.mem_map.2 ⟨v, hv, rfl⟩)⟩
  exact List.mem_map.2 ⟨(v, User.term b), List.mem_filter.2 ⟨huse, by simp⟩, rfl⟩

/-- Whoever reads counts. -/
theorem Reads.useCount_ne (h : f.Reads drop b pre (.inst j)) : f.useCount j ≠ 0 := by
  have hpos : ∀ u, u ∈ f.usersOf (.inst j) → f.useCount j ≠ 0 :=
    fun u hu => Nat.ne_of_gt (List.length_pos_of_mem hu)
  cases h with
  | inst _ hsplit _ hi _ hv => exact hpos _ (usersOf_of_mem (mem_of_split hsplit) hi hv)
  | phi _ hid _ hi he =>
    exact hpos _ (usersOf_of_mem hid hi (List.mem_map.2 ⟨_, he, rfl⟩))
  | term _ hdata hv => exact hpos _ (usersOf_of_term hdata hv)

theorem unused_spec (hc : f.Consistent) :
    ∃ dead, f.unused = .ok dead ∧ ∀ id, id ∈ dead ↔ id ∈ f.liveInsts ∧
      (f.inst? id).any (fun i => !i.kind.hasSideEffects) = true ∧ f.useCount id = 0 := by
  refine ⟨_, filterM_eq_ok (q := fun id => (f.inst? id).any (fun i => !i.kind.hasSideEffects) &&
    f.useCount id == 0) _ fun id hid => ?_, fun id => ?_⟩
  · obtain ⟨b, hid⟩ := mem_liveInsts.1 hid
    obtain ⟨i, hi⟩ := hc.inst?_of_mem hid
    rw [kind_of_inst? hi, hi]
    rfl
  · rw [List.mem_filter, Bool.and_eq_true, beq_iff_eq]

theorem dispensable_of_unused (hdead : ∀ id ∈ ids,
      (f.inst? id).any (fun i => !i.kind.hasSideEffects) = true ∧ f.useCount id = 0) :
    f.Dispensable fun id => decide (id ∈ ids) where
  idle := by
    intro b id i _ _ hdrop hi
    have hidle := (hdead id (of_decide_eq_true hdrop)).1
    rw [hi] at hidle
    simpa using hidle
  unread := fun b pre j hread =>
    decide_eq_false fun hj => hread.useCount_ne (hdead j hj).2

/-- Without an instruction that was there, fewer are left. -/
theorem Without.length_lt (h : f.Without ids g) (hf : f.Consistent) (hg : g.Consistent)
    (hid : id ∈ f.liveInsts) (hmem : id ∈ ids) : g.liveInsts.length < f.liveInsts.length := by
  have hinsts : ∀ b j, j ∈ g.instsOf b ↔ j ∈ f.instsOf b ∧ j ∉ ids := by
    intro b j
    rw [hg.mem_instsOf, h.instBlock j, hf.mem_instsOf]
    by_cases hj : j ∈ ids <;> simp [hj]
  have hnot : id ∉ g.liveInsts := by
    intro hin
    obtain ⟨b, hb⟩ := mem_liveInsts.1 hin
    exact ((hinsts b id).1 hb).2 hmem
  have hsub : id :: g.liveInsts ⊆ f.liveInsts := by
    intro j hj
    rcases List.mem_cons.1 hj with rfl | hj
    · exact hid
    · obtain ⟨b, hb⟩ := mem_liveInsts.1 hj
      exact mem_liveInsts.2 ⟨b, ((hinsts b j).1 hb).1⟩
  exact (List.subperm_of_subset (List.nodup_cons.2 ⟨hnot, hg.nodup_liveInsts⟩) hsub).length_le

theorem dropUnusedOnce_keeps (hwf : f.WellFormed) :
    ∃ g changed, f.dropUnusedOnce = .ok (g, changed) ∧ f.Keeps g ∧
      (changed = true → g.liveInsts.length < f.liveInsts.length) := by
  obtain ⟨dead, hdead, hmem⟩ := unused_spec hwf.consistent
  unfold dropUnusedOnce
  rw [hdead]
  cases dead with
  | nil => exact ⟨f, false, rfl, .refl hwf, fun h => nomatch h⟩
  | cons id rest =>
    obtain ⟨g, hg, hwithout⟩ := removeInsts_spec hwf.consistent.housed (id :: rest)
    have hkeeps := (dispensable_of_unused fun j hj => ((hmem j).1 hj).2).keeps hwf hwithout
    refine ⟨g, true, ?_, hkeeps, fun _ => ?_⟩
    · simp only [bind, Except.bind, List.isEmpty_cons, Bool.false_eq_true, if_false, hg]
      rfl
    · exact hwithout.length_lt hwf.consistent hkeeps.wellFormed.consistent
        ((hmem id).1 List.mem_cons_self).1 List.mem_cons_self

theorem dropUnused_keeps (hwf : f.WellFormed) :
    ∃ g changed, f.dropUnused = .ok (g, changed) ∧ f.Keeps g := by
  refine untilStable_spec (I := f.Keeps) (μ := fun g => g.liveInsts.length) (fun g hg => ?_) _
    (.refl hwf) (Nat.lt_succ_self _)
  obtain ⟨g', c, hg', hkeeps, hless⟩ := dropUnusedOnce_keeps hg.wellFormed
  exact ⟨g', c, hg', hg.trans hkeeps, hless⟩

/-! ### What is not needed -/

theorem reads_of_inst? {i : Inst} (hi : f.inst? id = some i) :
    f.reads id = .ok (i.kind.operands.filterMap Value.inst?) := by
  rw [reads, kind_of_inst? hi]
  rfl

theorem neededRoots_spec (hc : f.Consistent) :
    ∃ roots, f.neededRoots = .ok roots ∧ ∀ id, id ∈ roots ↔ ∃ b data, f.block? b = some data ∧
      (id ∈ data.insts ∧ (f.inst? id).any (·.kind.hasSideEffects) = true ∨
        .inst id ∈ data.term.operands) := by
  have hblock : ∀ x ∈ f.liveBlocks, (do
      let effects ← x.2.insts.filterM fun id => return (← f.kind id).hasSideEffects
      return effects ++ x.2.term.operands.filterMap Value.inst? : Checked (List InstId)) =
      .ok (x.2.insts.filter (fun id => (f.inst? id).any (·.kind.hasSideEffects)) ++
        x.2.term.operands.filterMap Value.inst?) := by
    intro x hx
    rw [filterM_eq_ok (q := fun id => (f.inst? id).any (·.kind.hasSideEffects)) _ fun id hid => ?_]
    · rfl
    · obtain ⟨i, hi⟩ := hc.inst? (mem_liveBlocks.1 hx) hid
      rw [kind_of_inst? hi, hi]
      rfl
  refine ⟨_, by unfold neededRoots; rw [mapM_eq_ok _ hblock]; rfl, fun id => ?_⟩
  rw [← List.flatMap_def, List.mem_flatMap]
  simp only [List.mem_append, List.mem_filter, Value.mem_filterMap_inst?, Prod.exists,
    mem_liveBlocks]

/-- Live code wants an instruction for its effects or in a terminator, and what a wanted instruction
reads, whether that one is live or not. -/
inductive Wanted (f : Func) : InstId → Prop
  | effects {b : BlockId} {id : InstId} {i : Inst} (hid : id ∈ f.instsOf b)
      (hi : f.inst? id = some i) (heff : i.kind.hasSideEffects = true) : Wanted f id
  | term {b : BlockId} {data : Block} {j : InstId} (hdata : f.block? b = some data)
      (hj : .inst j ∈ data.term.operands) : Wanted f j
  | operand {id j : InstId} {i : Inst} (hid : Wanted f id) (hi : f.inst? id = some i)
      (hj : .inst j ∈ i.kind.operands) : Wanted f j

theorem Wanted.of_root (h : ∃ b data, f.block? b = some data ∧
    (id ∈ data.insts ∧ (f.inst? id).any (·.kind.hasSideEffects) = true ∨
      .inst id ∈ data.term.operands)) : f.Wanted id := by
  obtain ⟨b, data, hdata, ⟨hid, heff⟩ | hj⟩ := h
  · cases hi : f.inst? id with
    | none =>
      rw [hi] at heff
      cases heff
    | some i =>
      rw [hi] at heff
      exact .effects (instsOf_eq hdata ▸ hid) hi heff
  · exact .term hdata hj

/-- The wanted instructions are found if all of them exist. -/
theorem needed_of_wanted (hc : f.Consistent)
    (hexists : ∀ id, f.Wanted id → (f.inst? id).isSome = true) : ∃ keep, f.needed = .ok keep := by
  classical
  obtain ⟨roots, hroots, hmem⟩ := neededRoots_spec hc
  let all := ((List.range f.arena.size).map InstId.mk).filter fun id => decide (f.Wanted id)
  have hall : ∀ id, f.Wanted id → id ∈ all := by
    intro id hid
    obtain ⟨i, hi⟩ := Option.isSome_iff_exists.1 (hexists id hid)
    refine List.mem_filter.2 ⟨List.mem_map.2 ⟨id.index, ?_, rfl⟩, decide_eq_true hid⟩
    exact List.mem_range.2 (index_lt_of_inst? hi)
  have hstep : ∀ id ∈ all, ∃ ys, f.reads id = .ok ys ∧ ys ⊆ all := by
    intro id hid
    have hwanted := of_decide_eq_true (List.mem_filter.1 hid).2
    obtain ⟨i, hi⟩ := Option.isSome_iff_exists.1 (hexists id hwanted)
    refine ⟨_, reads_of_inst? hi, fun j hj => hall j ?_⟩
    exact .operand hwanted hi (Value.mem_filterMap_inst?.1 hj)
  have hbound : all.length ≤ f.arena.size + 1 := by
    refine Nat.le_succ_of_le ((List.length_filter_le _ _).trans ?_)
    rw [List.length_map, List.length_range]
  obtain ⟨keep, hkeep, _⟩ :=
    closure_spec hstep (fun id hid => hall id (.of_root ((hmem id).1 hid))) hbound
  exact ⟨keep, by unfold needed; rw [hroots]; exact hkeep⟩

/-- The instructions `keep` exist, wanted ones are among them, and with an instruction what it
reads. -/
structure Covers (f : Func) (keep : List InstId) : Prop where
  wanted : ∀ id, f.Wanted id → id ∈ keep
  exists_inst : ∀ id ∈ keep, (f.inst? id).isSome = true
  operands : ∀ id i j, id ∈ keep → f.inst? id = some i → .inst j ∈ i.kind.operands → j ∈ keep

theorem covers_of_needed (hc : f.Consistent) (h : f.needed = .ok keep) : f.Covers keep := by
  obtain ⟨roots, hroots, hmem⟩ := neededRoots_spec hc
  unfold needed at h
  rw [hroots] at h
  obtain ⟨hsub, hclosed⟩ := closed_of_closure h
  have hexists : ∀ id ∈ keep, (f.inst? id).isSome = true := by
    intro id hid
    obtain ⟨ys, hys, _⟩ := hclosed id hid
    cases hi : f.inst? id with
    | some i => rfl
    | none =>
      simp only [reads, kind, inst, hi, bind, Except.bind] at hys
      cases hys
  have hoperands : ∀ id i j, id ∈ keep → f.inst? id = some i → .inst j ∈ i.kind.operands →
      j ∈ keep := by
    intro id i j hid hi hj
    obtain ⟨ys, hys, hin⟩ := hclosed id hid
    rw [reads_of_inst? hi] at hys
    cases hys
    exact hin (Value.mem_filterMap_inst?.2 hj)
  refine ⟨fun id hid => ?_, hexists, hoperands⟩
  induction hid with
  | effects hid hi heff =>
    obtain ⟨data, hdata, hid⟩ := exists_block_of_mem hid
    exact hsub ((hmem _).2 ⟨_, data, hdata, .inl ⟨hid, by rw [hi]; exact heff⟩⟩)
  | term hdata hj => exact hsub ((hmem _).2 ⟨_, _, hdata, .inr hj⟩)
  | operand _ hi hj ih => exact hoperands _ _ _ ih hi hj

theorem Covers.dispensable (h : f.Covers keep) :
    f.Dispensable fun id => decide (id ∈ f.liveInsts.filter (· ∉ keep)) where
  idle := by
    intro b id i _ hid hdrop hi
    have hnot := (List.mem_filter.1 (of_decide_eq_true hdrop)).2
    cases heff : i.kind.hasSideEffects with
    | false => rfl
    | true =>
      have hin := h.wanted id (.effects hid hi heff)
      simp [hin] at hnot
  unread := by
    have hkept : ∀ {b id}, id ∈ f.instsOf b →
        decide (id ∈ f.liveInsts.filter (· ∉ keep)) = false → id ∈ keep := by
      intro b id hid hkeep
      by_contra hnot
      refine of_decide_eq_false hkeep (List.mem_filter.2 ⟨mem_liveInsts.2 ⟨b, hid⟩, ?_⟩)
      exact decide_eq_true hnot
    have hstays : ∀ {j}, j ∈ keep → decide (j ∈ f.liveInsts.filter (· ∉ keep)) = false := by
      intro j hj
      refine decide_eq_false fun hdead => ?_
      have hnot := (List.mem_filter.1 hdead).2
      simp [hj] at hnot
    intro b pre j hread
    cases hread with
    | inst _ hsplit hkeep hi _ hv =>
      exact hstays (h.operands _ _ j (hkept (mem_of_split hsplit) hkeep) hi hv)
    | phi _ hid hkeep hi he =>
      exact hstays (h.operands _ _ j (hkept hid hkeep) hi (List.mem_map.2 ⟨_, he, rfl⟩))
    | term _ hdata hv => exact hstays (h.wanted j (.term hdata hv))

theorem dropUnneeded_of_needed (hwf : f.WellFormed) (h : f.needed = .ok keep) :
    ∃ g changed, f.dropUnneeded = .ok (g, changed) ∧ f.Keeps g := by
  obtain ⟨g, hg, hwithout⟩ :=
    removeInsts_spec hwf.consistent.housed (f.liveInsts.filter (· ∉ keep))
  refine ⟨g, !(f.liveInsts.filter (· ∉ keep)).isEmpty, ?_,
    (covers_of_needed hwf.consistent h).dispensable.keeps hwf hwithout⟩
  unfold dropUnneeded
  simp only [h, bind, Except.bind, hg]
  rfl

theorem dropUnneeded_keeps (hwf : f.WellFormed) (h : f.dropUnneeded = .ok (g, changed)) :
    f.Keeps g := by
  cases hkeep : f.needed with
  | error e =>
    unfold dropUnneeded at h
    rw [hkeep] at h
    cases h
  | ok keep =>
    obtain ⟨g', c, hg', hkeeps⟩ := dropUnneeded_of_needed hwf hkeep
    rw [h] at hg'
    cases hg'
    exact hkeeps

/-- It stops short exactly if live code leads to an instruction that was never made. -/
theorem dropUnneeded_returns_iff (hwf : f.WellFormed) :
    (∃ g changed, f.dropUnneeded = .ok (g, changed)) ↔
      ∀ id, f.Wanted id → (f.inst? id).isSome = true := by
  constructor
  · rintro ⟨g, changed, h⟩ id hid
    cases hkeep : f.needed with
    | error e =>
      unfold dropUnneeded at h
      rw [hkeep] at h
      cases h
    | ok keep =>
      have hcovers := covers_of_needed hwf.consistent hkeep
      exact hcovers.exists_inst id (hcovers.wanted id hid)
  · intro hexists
    obtain ⟨keep, hkeep⟩ := needed_of_wanted hwf.consistent hexists
    obtain ⟨g, c, hg, _⟩ := dropUnneeded_of_needed hwf hkeep
    exact ⟨g, c, hg⟩

/-! ### Both ways to drop -/

/-- Indirect jumps leave the function. What is unused can always be dropped; what is not needed, unless
live code leads to an instruction that was never made. Then every execution that ends without an
undefined operation ends in the same way afterwards, with the same calls and the same memory. -/
theorem dropDead_preserves (hwf : f.WellFormed) (hty : f.WellTyped) :
    (∃ g changed, f.dropUnused = .ok (g, changed)) ∧
    ((∃ g changed, f.dropUnneeded = .ok (g, changed)) ↔
      ∀ id, f.Wanted id → (f.inst? id).isSome = true) ∧
    ∀ g changed, f.dropUnused = .ok (g, changed) ∨ f.dropUnneeded = .ok (g, changed) →
      ∀ (act : Activation) (memory : Memory), act.linked = false →
        (∀ s, act.own s = true → f.confines s = true) →
        ∀ n e m, f.run act memory n = some (e, m) →
          ∃ k m', g.run act memory k = some (e, m') ∧ m'.calls = m.calls ∧
            m'.memory = m.memory ∧ m'.slots = m.slots := by
  obtain ⟨g₁, c₁, hg₁, hkeeps₁⟩ := dropUnused_keeps hwf
  refine ⟨⟨g₁, c₁, hg₁⟩, dropUnneeded_returns_iff hwf, ?_⟩
  intro g changed hg act memory hlinked hown
  have hkeeps : f.Keeps g := by
    rcases hg with hg | hg
    · rw [hg₁] at hg
      cases hg
      exact hkeeps₁
    · exact dropUnneeded_keeps hwf hg
  exact hkeeps.preserves hwf hty hlinked hown memory

/-- A loop that counts in memory. It also loads a word that nobody reads, and next to the counter runs
a phi that only its own successor reads. -/
def idleLoop : Func where
  name := "sample"
  params := [⟨"n", .i64⟩, ⟨"p", .ptr⟩]
  ret := some .i64
  arena := #[
    ⟨⟨.phi [(⟨0⟩, .int 0 .i64), (⟨1⟩, .inst ⟨2⟩)], some .i64⟩, some ⟨1⟩⟩,
    ⟨⟨.phi [(⟨0⟩, .arg 0), (⟨1⟩, .inst ⟨3⟩)], some .i64⟩, some ⟨1⟩⟩,
    ⟨⟨.binary .add (.inst ⟨0⟩) (.int 1 .i64), some .i64⟩, some ⟨1⟩⟩,
    ⟨⟨.binary .xor (.inst ⟨1⟩) (.inst ⟨2⟩), some .i64⟩, some ⟨1⟩⟩,
    ⟨⟨.load (.arg 1), some .i64⟩, some ⟨1⟩⟩,
    ⟨⟨.store (.arg 1) (.inst ⟨2⟩), none⟩, some ⟨1⟩⟩,
    ⟨⟨.icmp .ult (.inst ⟨2⟩) (.arg 0), some .i1⟩, some ⟨1⟩⟩]
  blocks := #[
    some { insts := [], term := .jump ⟨1⟩ },
    some { insts := [⟨0⟩, ⟨1⟩, ⟨2⟩, ⟨3⟩, ⟨4⟩, ⟨5⟩, ⟨6⟩], term := .branch (.inst ⟨6⟩) ⟨1⟩ ⟨2⟩ },
    some { insts := [], term := .ret (some (.inst ⟨2⟩)) }]
  entry := some ⟨0⟩

theorem idleLoop_wellFormed : idleLoop.WellFormed := by
  have haccepts : Survey.accepts [(⟨0⟩, []), (⟨1⟩, [⟨0⟩]), (⟨2⟩, [⟨0⟩, ⟨1⟩])] idleLoop = true := by
    decide
  exact Survey.wellFormed_of_accepts haccepts

/-- The load goes as unused, the idle phi and its successor only as not needed. The loop counts to
three as before. -/
theorem idleLoop_dropped :
    ∃ g h, idleLoop.dropUnused = .ok (g, true) ∧ idleLoop.dropUnneeded = .ok (h, true) ∧
      g.instsOf ⟨1⟩ = [⟨0⟩, ⟨1⟩, ⟨2⟩, ⟨3⟩, ⟨5⟩, ⟨6⟩] ∧ h.instsOf ⟨1⟩ = [⟨0⟩, ⟨2⟩, ⟨5⟩, ⟨6⟩] ∧
      ∀ x ∈ [g, h], ∃ k m, x.run (.plain 3) (fun _ => 0) k = some (.ret (some 3), m) ∧
        m.memory 3 = 3 := by
  obtain ⟨_, _, hruns⟩ :=
    dropDead_preserves idleLoop_wellFormed (by decide : idleLoop.WellTyped)
  have hunused : (idleLoop.dropUnused.toOption.map fun r => (r.2, r.1.instsOf ⟨1⟩)) =
      some (true, [⟨0⟩, ⟨1⟩, ⟨2⟩, ⟨3⟩, ⟨5⟩, ⟨6⟩]) := by cbv
  have hunneeded : (idleLoop.dropUnneeded.toOption.map fun r => (r.2, r.1.instsOf ⟨1⟩)) =
      some (true, [⟨0⟩, ⟨2⟩, ⟨5⟩, ⟨6⟩]) := by cbv
  have hexit : (idleLoop.run (.plain 3) (fun _ => 0) 5).map (fun r => (r.1, r.2.memory 3)) =
      some (.ret (some 3), 3) := by cbv
  have hresult : ∀ {t : Transformed} {insts : List InstId},
      (t.toOption.map fun r => (r.2, r.1.instsOf ⟨1⟩)) = some (true, insts) →
      ∃ x, t = .ok (x, true) ∧ x.instsOf ⟨1⟩ = insts := by
    intro t insts ht
    obtain ⟨⟨x, changed⟩, hx, heq⟩ := Option.map_eq_some_iff.1 ht
    obtain ⟨rfl, hinsts⟩ := Prod.mk.inj heq
    exact ⟨x, ok_of_toOption hx, hinsts⟩
  obtain ⟨g, hg, hginsts⟩ := hresult hunused
  obtain ⟨h, hh, hhinsts⟩ := hresult hunneeded
  obtain ⟨⟨e, m⟩, hrun, heq⟩ := Option.map_eq_some_iff.1 hexit
  obtain ⟨rfl, hmemory⟩ := Prod.mk.inj heq
  refine ⟨g, h, hg, hh, hginsts, hhinsts, fun x hx => ?_⟩
  have hdropped : idleLoop.dropUnused = .ok (x, true) ∨ idleLoop.dropUnneeded = .ok (x, true) := by
    rcases List.mem_cons.1 hx with rfl | hx
    · exact .inl hg
    · exact .inr (List.mem_singleton.1 hx ▸ hh)
  obtain ⟨k, m', hrun', _, hmemory', _⟩ :=
    hruns x true hdropped (.plain 3) _ rfl (fun _ hown => absurd hown Bool.false_ne_true) 5 _ m hrun
  exact ⟨k, m', hrun', by rw [hmemory', hmemory]⟩

/-- A block that control does not come to returns what was never made. -/
def strayReturn : Func where
  name := "sample"
  params := []
  ret := none
  arena := #[]
  blocks := #[
    some { insts := [], term := .ret none },
    some { insts := [], term := .ret (some (.inst ⟨99⟩)) }]
  entry := some ⟨0⟩

/-- The function returns at once, and still what is not needed cannot be dropped. -/
theorem not_dropUnneeded_returns :
    strayReturn.WellFormed ∧ strayReturn.WellTyped ∧
      (∃ m, strayReturn.run (.plain 0) (fun _ => 0) 1 = some (.ret none, m)) ∧
      strayReturn.dropUnneeded = .error (.noSuchInst ⟨99⟩) := by
  have haccepts : Survey.accepts [(⟨0⟩, [])] strayReturn = true := by decide
  exact ⟨Survey.wellFormed_of_accepts haccepts, by decide, ⟨_, rfl⟩, by cbv⟩

end Func

end BinaryLift
