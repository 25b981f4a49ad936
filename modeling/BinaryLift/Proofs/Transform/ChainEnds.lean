import BinaryLift.Proofs.Closed.Endings
import BinaryLift.Proofs.Run.Surveys
import BinaryLift.Proofs.Transform.NeededCode
import Mathlib.Logic.Relation

/-!
# Ends of chains

A table links a value to the one that stands in for it. If no value stands in for itself, over however
many links, every chain of links has an end, and as many hops as the table has entries are enough to
come to it. Hopping stops in any case: one hop beyond that number is the last.
-/

namespace BinaryLift

open Relation

namespace Replacements

variable {t : Replacements} {v u w : Value} {n : Nat}

/-- The value `u` stands in for `v`. -/
def Link (t : Replacements) (v u : Value) : Prop := t.link? v = some u

/-- No value stands in for itself, over however many links. -/
def Acyclic (t : Replacements) : Prop := ∀ v, ¬ TransGen t.Link v v

/-- The chain from `v` ends at `u`, for which nothing stands in. -/
def EndsAt (t : Replacements) (v u : Value) : Prop := ReflTransGen t.Link v u ∧ t.covers u = false

theorem Link.covers (h : t.Link v u) : t.covers v = true := by
  rw [covers_eq, show t.link? v = some u from h]
  rfl

theorem Link.eq (h : t.Link v u) (h' : t.Link v w) : u = w :=
  Option.some.inj ((show t.link? v = some u from h).symm.trans h')

theorem EndsAt.unique (h : t.EndsAt v u) (h' : t.EndsAt v w) : u = w := by
  obtain ⟨hchain, hu⟩ := h
  obtain ⟨hchain', hw⟩ := h'
  induction hchain using ReflTransGen.head_induction_on with
  | refl =>
    rcases hchain'.cases_head with heq | ⟨x, hlink, _⟩
    · exact heq
    · rw [hlink.covers] at hu
      cases hu
  | head hlink _ ih =>
    rcases hchain'.cases_head with rfl | ⟨x, hlink', hrest⟩
    · rw [hlink.covers] at hw
      cases hw
    · exact ih (hlink.eq hlink' ▸ hrest)

theorem Leads.endsAt (h : t.Leads n v u) : t.EndsAt v u := by
  induction h with
  | stop hv => exact ⟨.refl, hv⟩
  | link hget _ ih => exact ⟨.head hget ih.1, ih.2⟩

/-! ### Tables without cycles -/

/-- The instructions that a chain leads to become fewer with every link. -/
theorem Acyclic.exists_rank (h : t.Acyclic) : ∃ rank : InstId → Nat,
    ∀ i j, t.get? i = some (.inst j) → t.has j = true → rank j < rank i := by
  classical
  refine ⟨fun i => t.keys.countP fun k => decide (TransGen t.Link (.inst i) (.inst k)),
    fun i j hij hj => ?_⟩
  have hlink : t.Link (.inst i) (.inst j) := hij
  have hmem : j ∈ t.keys := by
    by_contra hnot
    rw [Table.has, (Table.get?_eq_none_iff t j).2 hnot] at hj
    cases hj
  refine countP_lt_countP (fun k hk => ?_) hmem (decide_eq_false (h _))
    (decide_eq_true (.single hlink))
  rw [decide_eq_true_eq] at hk ⊢
  exact .head hlink hk

/-- Nothing comes back to itself if every link goes down. -/
theorem acyclic_of_rank (rank : InstId → Nat)
    (hrank : ∀ i j, t.get? i = some (.inst j) → rank j < rank i) : t.Acyclic := by
  let height : Value → Nat := fun v => v.inst?.elim 0 fun i => rank i + 1
  have hlink : ∀ v u, t.Link v u → height u < height v := by
    intro v u h
    cases v with
    | inst i =>
      cases u with
      | inst j => exact Nat.succ_lt_succ (hrank i j h)
      | const c => exact Nat.succ_pos _
      | arg k => exact Nat.succ_pos _
    | const c => cases h
    | arg k => cases h
  intro v h
  have hless : ∀ u, TransGen t.Link v u → height u < height v := by
    intro u hu
    induction hu with
    | single hu => exact hlink v _ hu
    | tail _ hu ih => exact (hlink _ _ hu).trans ih
  exact Nat.lt_irrefl _ (hless v h)

theorem Acyclic.endsAt_iff (h : t.Acyclic) : t.EndsAt v u ↔ t.chase v = u := by
  obtain ⟨rank, hrank⟩ := h.exists_rank
  have hchase : t.EndsAt v (t.chase v) := (leads_chase hrank v).endsAt
  exact ⟨fun hu => hchase.unique hu, fun hu => hu ▸ hchase⟩

/-! ### Any table -/

/-- One hop of the loop at an operand, which counts its hops: as long as the count is not above the
number of entries, a value makes way for the one that stands in for it. -/
def Hop (t : Replacements) (s s' : Nat × Value) : Prop :=
  s.1 ≤ t.length ∧ s'.1 = s.1 + 1 ∧ t.Link s.2 s'.2

theorem hops_follow (k n : Nat) (v : Value) (hn : n + k = t.length + 1) :
    ∃ m ≤ t.length + 1, ReflTransGen t.Hop (n, v) (m, t.follow k v) ∧
      ∀ s, ¬ t.Hop (m, t.follow k v) s := by
  induction k generalizing n v with
  | zero => exact ⟨n, by omega, .refl, fun s hs => by have hle : n ≤ t.length := hs.1; omega⟩
  | succ k ih =>
    cases hv : t.link? v with
    | none =>
      have hcovers : t.covers v = false := by rw [covers_eq, hv]; rfl
      rw [follow_of_covers hcovers]
      refine ⟨n, by omega, .refl, fun s hs => ?_⟩
      rw [hs.2.2.covers] at hcovers
      cases hcovers
    | some next =>
      obtain ⟨m, hm, hhops, hrest⟩ := ih (n + 1) next (by omega)
      have hfollow : t.follow (k + 1) v = t.follow k next := by
        cases v with
        | inst id => rw [follow, show t.get? id = some next from hv]
        | const c => cases hv
        | arg j => cases hv
      have hhop : t.Hop (n, v) (n + 1, next) := ⟨Nat.le_of_lt_succ (by omega), rfl, hv⟩
      rw [hfollow]
      exact ⟨m, hm, .head hhop hhops, hrest⟩

/-- Two entries that lead to each other: after three hops the loop stops. -/
example : chase [(⟨0⟩, .inst ⟨1⟩), (⟨1⟩, .inst ⟨0⟩)] (.inst ⟨0⟩) = .inst ⟨1⟩ := rfl

end Replacements

namespace Func

variable {f g : Func} {ρ : Value → Value} {v : Value} {t : Replacements}

/-- The function `g` is `f` with every operand of its live instructions and of its terminators replaced
by `ρ`. Nothing else differs. -/
structure Rewritten (f : Func) (ρ : Value → Value) (g : Func) : Prop where
  head : g.head = f.head
  slot : ∀ id : InstId, g.arena[id.index]? = f.arena[id.index]?.map fun s =>
    if id ∈ f.liveInsts then { s with inst.kind := s.inst.kind.mapOperands ρ } else s
  block : ∀ b : BlockId, g.blocks[b.index]? = f.blocks[b.index]?.map
    (·.map fun data => { data with term := data.term.mapOperands ρ })

theorem rewritten_mapOperands (hc : f.Consistent) (ρ : Value → Value) :
    f.Rewritten ρ (f.mapOperands ρ) where
  head := rfl
  slot := by
    intro id
    simp only [mapOperands, Array.getElem?_map, mem_liveInsts_iff_isLive hc, isLive, instBlock]
    cases f.arena[id.index]? <;> rfl
  block := fun b => Array.getElem?_map

theorem usersOf_mapOperands (hv : ∀ w, ρ w ≠ v) (hc : f.Consistent) :
    (f.mapOperands ρ).usersOf v = [] := by
  refine List.eq_nil_iff_forall_not_mem.2 fun u hu => ?_
  obtain ⟨b, data', hdata', hu⟩ := mem_usersOf.1 hu
  rw [block?_mapOperands] at hdata'
  obtain ⟨data, hdata, rfl⟩ := Option.map_eq_some_iff.1 hdata'
  rcases hu with ⟨id, i', hid, hi', hmem, _⟩ | ⟨hmem, _⟩
  · obtain ⟨i, hi⟩ := hc.inst? hdata hid
    have hlive : f.isLive id = true := hc.isLive_of_mem (instsOf_eq hdata ▸ hid)
    rw [inst?_mapOperands ρ hi, if_pos hlive] at hi'
    cases hi'
    rw [Kind.operands_mapOperands] at hmem
    obtain ⟨w, _, hw⟩ := List.mem_map.1 hmem
    exact hv w hw
  · rw [Terminator.operands_mapOperands] at hmem
    obtain ⟨w, _, hw⟩ := List.mem_map.1 hmem
    exact hv w hw

/-- Every operand of live code hops along its chain. In a table without cycles it comes to the one end
of the chain, so nobody reads what has been replaced; nothing but operands changes; and in any table the
hops come to a stop. -/
theorem applyReplacements_reaches_ends (hc : f.Consistent) (t : Replacements) :
    f.Rewritten t.chase (f.applyReplacements t) ∧
      (t.Acyclic → (∀ v u, t.EndsAt v u ↔ t.chase v = u) ∧
        ∀ v, t.covers v = true → (f.applyReplacements t).usersOf v = []) ∧
      ∀ v, ∃ n ≤ t.length + 1, ReflTransGen t.Hop (0, v) (n, t.chase v) ∧
        ∀ s, ¬ t.Hop (n, t.chase v) s := by
  rw [applyReplacements_eq]
  refine ⟨rewritten_mapOperands hc _, fun hacyclic => ⟨fun v u => hacyclic.endsAt_iff, ?_⟩, ?_⟩
  · intro v hv
    refine usersOf_mapOperands (fun w hw => ?_) hc
    have hend : t.EndsAt w v := hacyclic.endsAt_iff.2 hw
    rw [hend.2] at hv
    cases hv
  · exact fun v => Replacements.hops_follow (t.length + 1) 0 v (Nat.zero_add _)

/-- Zero is added twice, and the cast of a sum has been taken out of its block. -/
def idleSums : Func where
  name := "sample"
  params := [⟨"x", .i64⟩]
  ret := some .i64
  arena := #[
    ⟨⟨.binary .add (.arg 0) (.int 0 .i64), some .i64⟩, some ⟨0⟩⟩,
    ⟨⟨.binary .add (.inst ⟨0⟩) (.int 0 .i64), some .i64⟩, some ⟨0⟩⟩,
    ⟨⟨.binary .add (.inst ⟨1⟩) (.int 1 .i64), some .i64⟩, some ⟨0⟩⟩,
    ⟨⟨.cast .trunc (.inst ⟨1⟩), some .i32⟩, none⟩]
  blocks := #[some { insts := [⟨0⟩, ⟨1⟩, ⟨2⟩], term := .ret (some (.inst ⟨2⟩)) }]
  entry := some ⟨0⟩

/-- Each sum makes way for its operand. -/
def idleChain : Replacements := [(⟨1⟩, .inst ⟨0⟩), (⟨0⟩, .arg 0)]

/-- The chain from the second sum is as long as the table. Its only reader adds to the parameter now; the
cast, which is not live, is as it was. -/
theorem idleSums_rewritten :
    idleSums.Consistent ∧ idleChain.Acyclic ∧ idleChain.EndsAt (.inst ⟨1⟩) (.arg 0) ∧
      (idleSums.applyReplacements idleChain).usersOf (.inst ⟨1⟩) = [] ∧
      (idleSums.applyReplacements idleChain).arena.toList.map (·.inst) = [
        ⟨.binary .add (.arg 0) (.int 0 .i64), some .i64⟩,
        ⟨.binary .add (.arg 0) (.int 0 .i64), some .i64⟩,
        ⟨.binary .add (.arg 0) (.int 1 .i64), some .i64⟩,
        ⟨.cast .trunc (.inst ⟨1⟩), some .i32⟩] := by
  have haccepts : Survey.accepts [(⟨0⟩, [])] idleSums = true := by decide
  have hc := (Survey.wellFormed_of_accepts haccepts).consistent
  have hacyclic : idleChain.Acyclic := by
    refine Replacements.acyclic_of_rank InstId.index fun i j hij => ?_
    simp only [idleChain, Table.get?] at hij
    split at hij
    · rename_i hi
      cases hi
      cases hij
      decide
    · split at hij <;> cases hij
  obtain ⟨_, hends, _⟩ := applyReplacements_reaches_ends hc idleChain
  obtain ⟨hend, hunread⟩ := hends hacyclic
  exact ⟨hc, hacyclic, (hend _ _).2 rfl, hunread _ rfl, by cbv⟩

end Func

end BinaryLift
