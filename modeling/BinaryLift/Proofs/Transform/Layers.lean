import BinaryLift.Proofs.Closed.Functions
import BinaryLift.Proofs.Transform.Combination

/-!
# Layers of instructions

An instruction is computed from its operands, and those from theirs. A phi reads what earlier turns
of a loop have left, so nothing is computed from its operands. In code that control can reach no
instruction is computed from itself; elsewhere a function may promise it. Combination keeps the
promise: what it puts in the place of a result has been below it, or has been computed where control
comes to.
-/

namespace BinaryLift.Func

open Relation

variable {f g : Func} {d : DomTree} {id j a b : InstId} {i : Inst} {k : Kind} {v : Value}
  {home : BlockId}

/-- The instruction `a` is live, is no phi and reads the result of `b`. -/
def ComputedFrom (f : Func) (a b : InstId) : Prop :=
  ∃ i, f.isLive a = true ∧ f.inst? a = some i ∧ i.kind.isPhi = false ∧ .inst b ∈ i.kind.operands

/-- Operands are live instructions, and no instruction is computed from itself. -/
structure Layered (f : Func) : Prop where
  operands : ∀ id i, f.isLive id = true → f.inst? id = some i →
    ∀ j, .inst j ∈ i.kind.operands → f.isLive j = true
  termOperands : ∀ b data, f.block? b = some data →
    ∀ j, .inst j ∈ data.term.operands → f.isLive j = true
  acyclic : ∀ id, ¬ TransGen f.ComputedFrom id id

theorem exists_mem_of_isLive (hc : f.Consistent) (h : f.isLive id = true) :
    ∃ b, id ∈ f.instsOf b := by
  obtain ⟨b, hb⟩ := Option.isSome_iff_exists.1 h
  exact ⟨b, hc.mem_instsOf.2 hb⟩

namespace Layered

theorem live_below (h : f.Layered) (hab : TransGen f.ComputedFrom a b) : f.isLive b = true := by
  cases hab with
  | single hread =>
    obtain ⟨i, hlive, hi, _, hb⟩ := hread
    exact h.operands _ i hlive hi b hb
  | tail _ hread =>
    obtain ⟨i, hlive, hi, _, hb⟩ := hread
    exact h.operands _ i hlive hi b hb

theorem ne_below (h : f.Layered) (hab : TransGen f.ComputedFrom a b) : b ≠ a := by
  rintro rfl
  exact h.acyclic b hab

theorem enclosed (h : f.Layered) (hwf : f.WellFormed) :
    f.Enclosed fun id => f.isLive id = true ∨ f.arena.size ≤ id.index where
  consistent := hwf.consistent
  entry := hwf.entry
  targets := hwf.targets
  live := fun _ hid => .inl hid
  fresh := fun _ hid => .inr hid
  insts := by
    rintro id i (hid | hid) hi v hv j rfl
    · have hj := h.operands id i hid hi j hv
      exact ⟨.inl hj, index_lt_of_isLive hj⟩
    · exact absurd (index_lt_of_inst? hi) (Nat.not_lt_of_le hid)
  terms := by
    rintro b data hb v hv j rfl
    have hj := h.termOperands b data hb j hv
    exact ⟨.inl hj, index_lt_of_isLive hj⟩

/-- What derives from an instruction is below it. -/
theorem below_of_derives (h : f.Layered) (hlive : f.isLive id = true) (hi : f.inst? id = some i)
    (hphi : i.kind.isPhi = false) (hj : f.Derives i.kind (.inst j)) :
    TransGen f.ComputedFrom id j := by
  rcases hj with ⟨c, hc⟩ | hj | ⟨m, i', hm, hi', hpure, hj⟩
  · cases hc
  · exact .single ⟨i, hlive, hi, hphi, hj⟩
  · have hmlive := h.operands id i hlive hi m hm
    exact .tail (.single ⟨i, hlive, hi, hphi, hm⟩)
      ⟨i', hmlive, hi', Kind.isPhi_of_pure hpure, hj⟩

end Layered

/-- Every operand is live, and has been made before what reads it unless that is a phi. -/
def madeInOrder (f : Func) : Bool :=
  f.arena.toList.zipIdx.all (fun e => e.1.inst.kind.operands.all fun v =>
    v.inst?.all fun j => f.isLive j && (e.1.inst.kind.isPhi || decide (j.index < e.2))) &&
  f.liveBlocks.all fun e => e.2.term.operands.all fun v => v.inst?.all f.isLive

theorem layered_of_madeInOrder (h : f.madeInOrder = true) : f.Layered := by
  rw [madeInOrder, Bool.and_eq_true] at h
  have hinsts : ∀ id i, f.inst? id = some i → ∀ j, .inst j ∈ i.kind.operands →
      f.isLive j = true ∧ (i.kind.isPhi = false → j.index < id.index) := by
    intro id i hi j hj
    obtain ⟨slot, hslot, rfl⟩ := Option.map_eq_some_iff.1 hi
    have hmem : (slot, id.index) ∈ f.arena.toList.zipIdx := by
      rw [List.mem_zipIdx_iff_getElem?]
      simpa using hslot
    have hall := List.all_eq_true.1 (List.all_eq_true.1 h.1 _ hmem) _ hj
    simp only [Value.inst?, Option.all_some, Bool.and_eq_true, Bool.or_eq_true,
      decide_eq_true_eq] at hall
    refine ⟨hall.1, fun hphi => hall.2.resolve_left fun hphi' => ?_⟩
    rw [hphi] at hphi'
    cases hphi'
  refine ⟨fun id i _ hi j hj => (hinsts id i hi j hj).1, fun b data hdata j hj => ?_, ?_⟩
  · have hall := List.all_eq_true.1 (List.all_eq_true.1 h.2 _ (mem_liveBlocks.2 hdata)) _ hj
    simpa [Value.inst?] using hall
  · intro id hcycle
    have hless : ∀ j, TransGen f.ComputedFrom id j → j.index < id.index := by
      intro j hj
      induction hj with
      | single hread =>
        obtain ⟨i, _, hi, hphi, hmem⟩ := hread
        exact (hinsts _ i hi _ hmem).2 hphi
      | tail _ hread ih =>
        obtain ⟨i, _, hi, hphi, hmem⟩ := hread
        exact Nat.lt_trans ((hinsts _ i hi _ hmem).2 hphi) ih
    exact Nat.lt_irrefl _ (hless id hcycle)

/-- Where control comes to, everything below an instruction has been computed before it. -/
theorem WellFormed.not_computed_from_self (hwf : f.WellFormed) (hb : f.Reachable home)
    (hid : id ∈ f.instsOf home) : ¬ TransGen f.ComputedFrom id id := by
  intro hcycle
  obtain ⟨before, after, hsplit⟩ := List.append_of_mem hid
  have havailable : ∀ j, TransGen f.ComputedFrom id j → f.Available home before j := by
    intro j hj
    induction hj with
    | single hread =>
      obtain ⟨i, _, hi, hphi, hmem⟩ := hread
      exact hwf.use hb hsplit hi hphi hmem
    | tail _ hread ih =>
      obtain ⟨i, _, hi, hphi, hmem⟩ := hread
      exact hwf.operand_atHand hb (prefix_of_split hsplit) ih hi hphi hmem
  exact hwf.consistent.ne_of_available hsplit (havailable id hcycle) rfl

/-! ### Canonical forms -/

namespace Recast

theorem isLive (h : f.Recast g id i k) (a : InstId) : g.isLive a = f.isLive a := by
  rw [Func.isLive, Func.isLive, h.instBlock]

/-- A new operand that derives from the old ones has been below the instruction. -/
theorem below (h : f.Recast g id i k) (hl : f.Layered) (hlive : f.isLive id = true)
    (hderives : ∀ v ∈ k.operands, f.Derives i.kind v) (hab : g.ComputedFrom a b) :
    TransGen f.ComputedFrom a b := by
  obtain ⟨i', ha, hi', hphi, hb⟩ := hab
  rw [h.isLive] at ha
  by_cases hne : a = id
  · subst hne
    rw [h.new] at hi'
    cases hi'
    exact hl.below_of_derives hlive h.old h.isPhi_old (hderives _ hb)
  · rw [h.others a hne] at hi'
    exact .single ⟨i', ha, hi', hphi, hb⟩

theorem layered (h : f.Recast g id i k) (hl : f.Layered) (hlive : f.isLive id = true)
    (hderives : ∀ v ∈ k.operands, f.Derives i.kind v) : g.Layered where
  operands := by
    intro a i' ha hi' j hj
    rw [h.isLive] at ha ⊢
    by_cases hne : a = id
    · subst hne
      rw [h.new] at hi'
      cases hi'
      exact hl.live_below (hl.below_of_derives hlive h.old h.isPhi_old (hderives _ hj))
    · rw [h.others a hne] at hi'
      exact hl.operands a i' ha hi' j hj
  termOperands := by
    intro b data hdata j hj
    rw [h.block] at hdata
    rw [h.isLive]
    exact hl.termOperands b data hdata j hj
  acyclic := fun a ha =>
    hl.acyclic a (TransGen.closed (fun _ _ hab => h.below hl hlive hderives hab) a a ha)

end Recast

/-! ### Replacements -/

/-- A way through a relation with new steps to one place: it does without them, or passes there. -/
theorem transGen_or_through {α : Type} {r s : α → α → Prop} {p x y : α}
    (hnew : ∀ a b, s a b → r a b ∨ b = p) (h : TransGen s x y) :
    TransGen r x y ∨ (TransGen s x p ∧ ReflTransGen s p y) := by
  induction h with
  | single hstep =>
    rcases hnew _ _ hstep with hold | rfl
    · exact .inl (.single hold)
    · exact .inr ⟨.single hstep, .refl⟩
  | tail hway hstep ih =>
    rcases hnew _ _ hstep with hold | rfl
    · rcases ih with hold' | ⟨hto, hfrom⟩
      · exact .inl (hold'.tail hold)
      · exact .inr ⟨hto, hfrom.tail hstep⟩
    · exact .inr ⟨hway.tail hstep, .refl⟩

namespace Substituted

variable (h : f.Substituted (fun j => decide (j = id)) (replaceResult id v) g)

include h

theorem isLive_iff : g.isLive a = true ↔ a ≠ id ∧ f.isLive a = true := by
  rw [Func.isLive, Func.isLive, h.instBlock]
  by_cases hne : a = id <;> simp [hne]

/-- What an instruction reads it has read before, or it has read the result that is replaced. -/
theorem operand_cases (hc : f.Consistent) (ha : f.isLive a = true) (hi : g.inst? a = some i)
    {j : InstId} (hj : .inst j ∈ i.kind.operands) :
    ∃ i', f.inst? a = some i' ∧ i'.kind.isPhi = i.kind.isPhi ∧
      ((.inst j ∈ i'.kind.operands ∧ j ≠ id) ∨ (.inst id ∈ i'.kind.operands ∧ v = .inst j)) := by
  obtain ⟨b, hb⟩ := exists_mem_of_isLive hc ha
  obtain ⟨i', hi'⟩ := hc.inst?_of_mem hb
  rw [h.inst b a i' hb hi'] at hi
  cases hi
  refine ⟨i', hi', (Kind.isPhi_mapOperands _ _).symm, ?_⟩
  rw [Kind.operands_mapOperands] at hj
  obtain ⟨u, hu, heq⟩ := List.mem_map.1 hj
  unfold replaceResult at heq
  split at heq
  · rename_i hid
    exact .inr ⟨hid ▸ hu, heq⟩
  · rename_i hid
    subst heq
    exact .inl ⟨hu, fun hji => hid (hji ▸ rfl)⟩

theorem computed_cases (hc : f.Consistent) (hab : g.ComputedFrom a b) :
    f.ComputedFrom a b ∨ (f.ComputedFrom a id ∧ v = .inst b) := by
  obtain ⟨i, ha, hi, hphi, hb⟩ := hab
  have ha' := (h.isLive_iff.1 ha).2
  obtain ⟨i', hi', hphi', hold | hnew⟩ := h.operand_cases hc ha' hi hb
  · exact .inl ⟨i', ha', hi', hphi'.trans hphi, hold.1⟩
  · exact .inr ⟨⟨i', ha', hi', hphi'.trans hphi, hnew.1⟩, hnew.2⟩

theorem layered (hc : f.Consistent) (hl : f.Layered)
    (hv : ∀ j, v = .inst j → f.isLive j = true ∧ j ≠ id)
    (hacyclic : ∀ a, ¬ TransGen g.ComputedFrom a a) : g.Layered where
  operands := by
    intro a i ha hi j hj
    have ha' := (h.isLive_iff.1 ha).2
    obtain ⟨i', hi', _, ⟨hold, hne⟩ | ⟨_, hnew⟩⟩ := h.operand_cases hc ha' hi hj
    · exact h.isLive_iff.2 ⟨hne, hl.operands a i' ha' hi' j hold⟩
    · exact h.isLive_iff.2 (hv j hnew).symm
  termOperands := by
    intro b data hdata j hj
    rw [h.block] at hdata
    obtain ⟨data', hdata', rfl⟩ := Option.map_eq_some_iff.1 hdata
    rw [Terminator.operands_mapOperands] at hj
    obtain ⟨u, hu, heq⟩ := List.mem_map.1 hj
    unfold replaceResult at heq
    split at heq
    · exact h.isLive_iff.2 (hv j heq).symm
    · rename_i hid
      subst heq
      exact h.isLive_iff.2 ⟨fun hji => hid (hji ▸ rfl), hl.termOperands b data' hdata' j hu⟩
  acyclic := hacyclic

/-- A value from below the result that it replaces. -/
theorem layered_of_below (hc : f.Consistent) (hl : f.Layered)
    (hv : ∀ j, v = .inst j → TransGen f.ComputedFrom id j) : g.Layered := by
  refine h.layered hc hl (fun j hj => ⟨hl.live_below (hv j hj), hl.ne_below (hv j hj)⟩) ?_
  have hbelow : ∀ a b, g.ComputedFrom a b → TransGen f.ComputedFrom a b := by
    intro a b hab
    rcases h.computed_cases hc hab with hold | ⟨hread, hnew⟩
    · exact .single hold
    · exact .head hread (hv b hnew)
  exact fun a ha => hl.acyclic a (TransGen.closed hbelow a a ha)

/-- A value that has been computed where control comes to. -/
theorem layered_of_reachable (hc : f.Consistent) (hl : f.Layered) (hwf : g.WellFormed)
    (hv : ∀ j, v = .inst j → j ≠ id ∧ ∃ b, f.Reachable b ∧ f.instBlock j = some b) : g.Layered := by
  refine h.layered hc hl (fun j hj => ?_) fun a ha => ?_
  · obtain ⟨hne, b, _, hb⟩ := hv j hj
    refine ⟨?_, hne⟩
    rw [Func.isLive, hb]
    rfl
  · by_cases hinst : ∃ j, v = .inst j
    · obtain ⟨j, rfl⟩ := hinst
      obtain ⟨hne, b, hb, hj⟩ := hv j rfl
      have hnew : ∀ x y, g.ComputedFrom x y → f.ComputedFrom x y ∨ y = j := by
        intro x y hxy
        exact (h.computed_cases hc hxy).imp_right fun hread => (Value.inst.inj hread.2).symm
      rcases transGen_or_through hnew ha with hold | ⟨hto, hfrom⟩
      · exact hl.acyclic a hold
      · have hjb : j ∈ g.instsOf b := by
          rw [h.instsOf, List.mem_filter]
          exact ⟨hc.mem_instsOf.2 hj, by simpa using hne⟩
        exact hwf.not_computed_from_self (h.reachable.2 hb) hjb (TransGen.trans_right hfrom hto)
    · have hold : ∀ x y, g.ComputedFrom x y → f.ComputedFrom x y := by
        intro x y hxy
        exact (h.computed_cases hc hxy).resolve_right fun hread => hinst ⟨y, hread.2⟩
      exact hl.acyclic a (TransGen.mono hold a a ha)

end Substituted

end BinaryLift.Func
