import BinaryLift.Program.Func.Editing
import BinaryLift.Proofs.Graph.Paths
import BinaryLift.Proofs.Run.Machine
import Mathlib.Data.List.Basic
import Mathlib.Data.List.Nodup

/-!
# What is at hand

A function is well formed if its two arenas agree, control stays within live blocks, phis stand at
the heads of blocks with one value for each reachable predecessor, and every value that reachable
code uses is defined on every way to the use.

The instructions of a block split at a place, and the values that every execution has computed when
it comes there. Whatever is at hand at a place is at hand further down the block and in every block
that is dominated, and with an instruction so are its operands.
-/

namespace BinaryLift.Func

/-! ### SSA form -/

/-- An instruction says that it stands in a block exactly if the block lists it, once. -/
structure Consistent (f : Func) : Prop where
  mem_iff : ∀ b data, f.block? b = some data → ∀ id, id ∈ data.insts ↔ f.instBlock id = some b
  live : ∀ id b, f.instBlock id = some b → f.containsBlock b = true
  nodup : ∀ b data, f.block? b = some data → data.insts.Nodup

/-- The instruction `id` has been executed whenever control is in block `b` behind `before`. -/
def Available (f : Func) (b : BlockId) (before : List InstId) (id : InstId) : Prop :=
  id ∈ before ∨ ∃ c data, f.StrictlyDominates c b ∧ f.block? c = some data ∧ id ∈ data.insts

structure WellFormed (f : Func) : Prop where
  consistent : f.Consistent
  entry : ∀ e, f.entry = some e → f.containsBlock e = true
  targets : ∀ b data, f.block? b = some data → ∀ s ∈ data.term.successors,
    f.containsBlock s = true
  heads : ∀ b data, f.block? b = some data → ∀ id ∈ data.insts.dropWhile f.isPhi,
    f.isPhi id = false
  incoming : ∀ b data id inc ty, f.block? b = some data → id ∈ data.insts →
    f.inst? id = some ⟨.phi inc, ty⟩ →
      (∀ q, f.Reachable q → f.Edge q b → (inc.map (·.1)).count q = 1) ∧ ∀ e ∈ inc, f.Edge e.1 b
  phiUses : ∀ b data id inc ty, f.Reachable b → f.block? b = some data → id ∈ data.insts →
    f.inst? id = some ⟨.phi inc, ty⟩ → ∀ q j, (q, .inst j) ∈ inc → f.Reachable q →
      ∀ qdata, f.block? q = some qdata → f.Available q qdata.insts j
  uses : ∀ b data before id after i, f.Reachable b → f.block? b = some data →
    data.insts = before ++ id :: after → f.inst? id = some i → i.kind.isPhi = false →
      ∀ j, .inst j ∈ i.kind.operands → f.Available b before j
  termUses : ∀ b data, f.Reachable b → f.block? b = some data →
    ∀ j, .inst j ∈ data.term.operands → f.Available b data.insts j

/-- Whether a reader of a slot loads from it or stores to it. -/
def accesses (f : Func) (s : InstId) : User → Bool
  | .inst id =>
    match f.inst? id with
    | some ⟨.load _, _⟩ => true
    | some ⟨.store _ v, _⟩ => v ≠ .inst s
    | _ => false
  | .term _ => false

/-- A live slot that is only loaded from and stored to: nothing else can know where it is. -/
def confines (f : Func) (s : InstId) : Bool :=
  f.isLive s && (f.inst? s).any (·.kind.isAlloca) && (f.usersOf (.inst s)).all (f.accesses s)

/-! ### Phis at the head of a list -/

theorem of_mem_takeWhile {α : Type} {p : α → Bool} {l : List α} {a : α} (h : a ∈ l.takeWhile p) :
    p a = true := by
  induction l with
  | nil => cases h
  | cons x l ih =>
    rw [List.takeWhile_cons] at h
    split at h
    · rename_i hx
      rcases List.mem_cons.1 h with rfl | h
      · exact hx
      · exact ih h
    · cases h

theorem takeWhile_append_of_all {α : Type} {p : α → Bool} {l r : List α} (hl : ∀ a ∈ l, p a = true)
    (hr : ∀ a, r.head? = some a → p a = false) : (l ++ r).takeWhile p = l := by
  rw [List.takeWhile_append_of_pos hl]
  cases r with
  | nil => simp
  | cons a r =>
    rw [List.takeWhile_cons, hr a rfl]
    simp

theorem dropWhile_append_of_all {α : Type} {p : α → Bool} {l r : List α} (hl : ∀ a ∈ l, p a = true)
    (hr : ∀ a, r.head? = some a → p a = false) : (l ++ r).dropWhile p = r := by
  rw [List.dropWhile_append_of_pos hl]
  cases r with
  | nil => rfl
  | cons a r => rw [List.dropWhile_cons_of_neg (by simp [hr a rfl])]

theorem dropWhile_congr {α : Type} {p q : α → Bool} {l : List α} (h : ∀ a ∈ l, p a = q a) :
    l.dropWhile p = l.dropWhile q := by
  induction l with
  | nil => rfl
  | cons x l ih =>
    rw [List.dropWhile_cons, List.dropWhile_cons, h x List.mem_cons_self,
      ih fun a ha => h a (List.mem_cons_of_mem _ ha)]

theorem head_dropWhile {α : Type} {p : α → Bool} {l : List α} {a : α}
    (h : (l.dropWhile p).head? = some a) : p a = false := by
  induction l with
  | nil => cases h
  | cons x l ih =>
    rw [List.dropWhile_cons] at h
    split at h
    · exact ih h
    · rename_i hx
      cases h
      simpa using hx

/-! ### Instructions of a block -/

/-- The instructions of a block, none if it is not live. -/
def instsOf (f : Func) (b : BlockId) : List InstId := ((f.block? b).map (·.insts)).getD []

variable {f : Func} {a b c q : BlockId} {pre post before after : List InstId} {id j : InstId}
  {data : Block} {i : Inst} {v : Value}

theorem instsOf_eq (h : f.block? b = some data) : f.instsOf b = data.insts := by
  rw [instsOf, h]
  rfl

theorem exists_block_of_mem (h : id ∈ f.instsOf b) :
    ∃ data, f.block? b = some data ∧ id ∈ data.insts := by
  cases hdata : f.block? b with
  | none =>
    rw [instsOf, hdata] at h
    cases h
  | some data =>
    rw [instsOf_eq hdata] at h
    exact ⟨data, rfl, h⟩

theorem mem_of_split (h : f.instsOf b = before ++ id :: after) : id ∈ f.instsOf b := by
  rw [h]
  exact List.mem_append_right _ List.mem_cons_self

theorem exists_block_of_insts (h : f.instsOf b = before ++ id :: after) :
    ∃ data, f.block? b = some data ∧ data.insts = before ++ id :: after := by
  obtain ⟨data, hdata, _⟩ := exists_block_of_mem (mem_of_split h)
  exact ⟨data, hdata, by rw [← instsOf_eq hdata, h]⟩

theorem prefix_of_split (hsplit : f.instsOf b = pre ++ id :: post) : pre <+: f.instsOf b := by
  rw [hsplit]
  exact List.prefix_append _ _

theorem isPhi_eq_true (h : f.isPhi id = true) : ∃ inc o, f.inst? id = some ⟨.phi inc, o⟩ := by
  unfold isPhi at h
  cases hi : f.inst? id with
  | none =>
    rw [hi] at h
    cases h
  | some i =>
    rw [hi] at h
    obtain ⟨kind, o⟩ := i
    cases kind with
    | phi inc => exact ⟨inc, o, rfl⟩
    | _ => cases h

theorem isPhi_inst (hi : f.inst? id = some i) : f.isPhi id = i.kind.isPhi := by
  rw [isPhi, hi]
  rfl

namespace Consistent

theorem housed (h : f.Consistent) : f.Housed where
  live := h.live
  mem := fun b data hdata id hid => (h.mem_iff b data hdata id).1 hid

theorem inst? (h : f.Consistent) (hdata : f.block? b = some data) (hid : id ∈ data.insts) :
    ∃ i, f.inst? id = some i := by
  have hb := (h.mem_iff b data hdata id).1 hid
  unfold instBlock at hb
  obtain ⟨s, hs, _⟩ := Option.bind_eq_some_iff.1 hb
  exact ⟨s.inst, by rw [Func.inst?, hs]; rfl⟩

theorem index_lt (h : f.Consistent) (hdata : f.block? b = some data) (hid : id ∈ data.insts) :
    id.index < f.arena.size := by
  obtain ⟨i, hi⟩ := h.inst? hdata hid
  exact index_lt_of_inst? hi

theorem inst?_of_mem (h : f.Consistent) (hid : id ∈ f.instsOf b) : ∃ i, f.inst? id = some i := by
  obtain ⟨data, hdata, hmem⟩ := exists_block_of_mem hid
  exact h.inst? hdata hmem

theorem mem_instsOf (h : f.Consistent) : id ∈ f.instsOf b ↔ f.instBlock id = some b := by
  cases hdata : f.block? b with
  | none =>
    rw [instsOf, hdata]
    refine ⟨fun hid => absurd hid List.not_mem_nil, fun hb => ?_⟩
    obtain ⟨data, hd⟩ := containsBlock_iff.1 (h.live id b hb)
    rw [hdata] at hd
    cases hd
  | some data =>
    rw [instsOf_eq hdata]
    exact h.mem_iff b data hdata id

theorem isLive_of_mem (h : f.Consistent) (hid : id ∈ f.instsOf b) : f.isLive id = true := by
  rw [isLive, h.mem_instsOf.1 hid]
  rfl

theorem nodup_instsOf (h : f.Consistent) (b : BlockId) : (f.instsOf b).Nodup := by
  cases hdata : f.block? b with
  | none =>
    rw [instsOf, hdata]
    exact List.nodup_nil
  | some data =>
    rw [instsOf_eq hdata]
    exact h.nodup b data hdata

theorem same_block (h : f.Consistent) (hb : id ∈ f.instsOf b) (hc : id ∈ f.instsOf c) : b = c := by
  have hb' := h.mem_instsOf.1 hb
  rw [h.mem_instsOf.1 hc] at hb'
  exact (Option.some.inj hb').symm

theorem notMem_of_split (h : f.Consistent) (hsplit : f.instsOf b = before ++ id :: after) :
    id ∉ before ∧ id ∉ after := by
  have hnodup := h.nodup_instsOf b
  rw [hsplit, List.nodup_append, List.nodup_cons] at hnodup
  exact ⟨fun hmem => hnodup.2.2 id hmem id List.mem_cons_self rfl, hnodup.2.1.1⟩

/-- An instruction stands in one place. -/
theorem split_unique (h : f.Consistent) {before' after' : List InstId}
    (hb : f.instsOf b = before ++ id :: after) (hc : f.instsOf c = before' ++ id :: after') :
    b = c ∧ before = before' := by
  have hbc := h.same_block (mem_of_split hb) (mem_of_split hc)
  subst hbc
  obtain ⟨hbefore, hafter⟩ := h.notMem_of_split hb
  rw [hb, List.append_cons_inj_of_notMem hbefore hafter] at hc
  exact ⟨rfl, hc.1⟩

theorem prefix_of_mem (h : f.Consistent) (hsplit : f.instsOf b = before ++ j :: after)
    (hpre : pre <+: f.instsOf b) (hj : j ∈ pre) : before <+: pre := by
  obtain ⟨l, r, rfl⟩ := List.append_of_mem hj
  obtain ⟨rest, hrest⟩ := hpre
  have heq : before ++ j :: after = l ++ j :: (r ++ rest) := by
    rw [← hsplit, ← hrest, List.append_assoc, List.cons_append]
  obtain ⟨hbefore, hafter⟩ := h.notMem_of_split hsplit
  rw [List.append_cons_inj_of_notMem hbefore hafter] at heq
  rw [heq.1]
  exact List.prefix_append _ _

end Consistent

theorem consistent_iff : f.Consistent ↔
    (∀ id b, id ∈ f.instsOf b ↔ f.instBlock id = some b) ∧ ∀ b, (f.instsOf b).Nodup := by
  constructor
  · intro hc
    exact ⟨fun _ _ => hc.mem_instsOf, hc.nodup_instsOf⟩
  · rintro ⟨hmem, hnodup⟩
    refine ⟨?_, ?_, ?_⟩
    · intro b data hdata id
      rw [← instsOf_eq hdata, hmem]
    · intro id b hid
      obtain ⟨data, hdata, _⟩ := exists_block_of_mem ((hmem id b).2 hid)
      exact containsBlock_iff.2 ⟨data, hdata⟩
    · intro b data hdata
      rw [← instsOf_eq hdata]
      exact hnodup b

theorem Consistent.congr {g : Func} (hc : f.Consistent) (hinsts : ∀ b, g.instsOf b = f.instsOf b)
    (hblock : ∀ id, g.instBlock id = f.instBlock id) : g.Consistent := by
  rw [consistent_iff] at hc ⊢
  simpa only [hinsts, hblock] using hc

/-! ### Live instructions -/

theorem liveBlocks_pairwise (f : Func) : f.liveBlocks.Pairwise fun x y => x.1 ≠ y.1 := by
  unfold liveBlocks
  refine List.pairwise_filterMap.2 ((zipIdx_pairwise f.blocks.toList).imp ?_)
  intro x y hne x' hx y' hy heq
  obtain ⟨_, _, rfl⟩ := Option.map_eq_some_iff.1 hx
  obtain ⟨_, _, rfl⟩ := Option.map_eq_some_iff.1 hy
  exact hne (congrArg BlockId.index heq)

theorem Consistent.nodup_liveInsts (hc : f.Consistent) : f.liveInsts.Nodup := by
  refine List.nodup_flatMap.2 ⟨fun x hx => ?_, ?_⟩
  · exact hc.nodup x.1 x.2 (mem_liveBlocks.1 hx)
  · have hblocks := f.liveBlocks_pairwise
    refine hblocks.imp_of_mem ?_
    intro x y hx hy hne id hid hid'
    have hx' := (hc.mem_iff x.1 x.2 (mem_liveBlocks.1 hx) id).1 hid
    rw [(hc.mem_iff y.1 y.2 (mem_liveBlocks.1 hy) id).1 hid'] at hx'
    exact hne (Option.some.inj hx').symm

theorem mem_liveInsts : id ∈ f.liveInsts ↔ ∃ b, id ∈ f.instsOf b := by
  constructor
  · intro hid
    obtain ⟨x, hx, hid⟩ := List.mem_flatMap.1 hid
    exact ⟨x.1, instsOf_eq (mem_liveBlocks.1 hx) ▸ hid⟩
  · rintro ⟨b, hid⟩
    obtain ⟨data, hdata, hid⟩ := exists_block_of_mem hid
    exact List.mem_flatMap.2 ⟨(b, data), mem_liveBlocks.2 hdata, hid⟩

/-! ### Availability -/

theorem available_mono {pre' : List InstId} (h : f.Available b pre j) (hpre : pre ⊆ pre') :
    f.Available b pre' j :=
  h.imp_left fun hj => hpre hj

theorem available_snoc (h : f.Available b (pre ++ [id]) j) (hne : j ≠ id) : f.Available b pre j := by
  refine h.imp_left fun hj => ?_
  rcases List.mem_append.1 hj with hj | hj
  · exact hj
  · exact absurd (List.mem_singleton.1 hj) hne

theorem available_down {pre' : List InstId} (h : f.Available b pre j)
    (hdata : f.block? b = some data) (hpre : pre ⊆ data.insts) (hc : f.Reachable c)
    (hbc : f.StrictlyDominates b c) : f.Available c pre' j := by
  rcases h with hj | ⟨a, adata, hab, hadata, hj⟩
  · exact .inr ⟨b, data, hbc, hdata, hpre hj⟩
  · exact .inr ⟨a, adata, hab.trans_dominates hc hbc.2, hadata, hj⟩

/-- What a strict dominator has computed is at hand at the end of every predecessor. -/
theorem available_pred (hedge : f.Edge q b) (hc : f.StrictlyDominates c b)
    (hj : j ∈ f.instsOf c) : f.Available q (f.instsOf q) j := by
  obtain ⟨data, hdata, hjd⟩ := exists_block_of_mem hj
  by_cases hcq : c = q
  · subst hcq
    exact .inl hj
  · exact .inr ⟨c, data, ⟨hcq, hc.of_edge hedge⟩, hdata, hjd⟩

/-- The value is there whenever control is in block `b` behind `pre`. -/
def AtHand (f : Func) (b : BlockId) (pre : List InstId) : Value → Prop
  | .inst j => f.Available b pre j
  | _ => True

theorem AtHand.mono {pre' : List InstId} (h : f.AtHand b pre v) (hpre : pre ⊆ pre') :
    f.AtHand b pre' v := by
  cases v with
  | inst j => exact available_mono h hpre
  | const c => trivial
  | arg n => trivial

theorem Consistent.ne_of_available (h : f.Consistent) (hsplit : f.instsOf b = pre ++ id :: post)
    (hj : f.Available b pre j) : j ≠ id := by
  rintro rfl
  rcases hj with hj | ⟨c, data, hdom, hdata, hj⟩
  · exact (h.notMem_of_split hsplit).1 hj
  · have hjc : j ∈ f.instsOf c := by
      rw [instsOf_eq hdata]
      exact hj
    exact hdom.1 (h.same_block hjc (mem_of_split hsplit))

/-- What has been computed before a block is entered is none of its instructions. -/
theorem Consistent.notMem_of_available (h : f.Consistent) (hj : f.Available b [] j) :
    j ∉ f.instsOf b := by
  intro hmem
  rcases hj with hj | ⟨c, data, hdom, hdata, hj⟩
  · cases hj
  · have hjc : j ∈ f.instsOf c := by
      rw [instsOf_eq hdata]
      exact hj
    exact hdom.1 (h.same_block hjc hmem)

theorem Consistent.home_of_available (h : f.Consistent) (hb : f.Reachable b)
    (hpre : pre ⊆ f.instsOf b) (hj : f.Available b pre j) :
    ∃ c, f.instBlock j = some c ∧ f.Reachable c ∧ f.Dominates c b := by
  rcases hj with hj | ⟨c, data, hdom, hdata, hj⟩
  · exact ⟨b, h.mem_instsOf.1 (hpre hj), hb, .refl f b⟩
  · exact ⟨c, (h.mem_iff c data hdata j).1 hj, hdom.2.reachable hb, hdom.2⟩

theorem Consistent.valueTy_of_atHand (h : f.Consistent) (hb : f.Reachable b)
    (hpre : pre <+: f.instsOf b) (hv : f.AtHand b pre v) : f.valueTy v = .ok (f.typeOf v) := by
  cases v with
  | const k => rfl
  | arg n => rfl
  | inst j =>
    obtain ⟨c, hjc, _⟩ := h.home_of_available hb hpre.subset hv
    obtain ⟨i, hi⟩ := h.inst?_of_mem (h.mem_instsOf.2 hjc)
    rw [typeOf_inst hi, valueTy, inst, hi]
    rfl

/-- What is at hand where an instruction stands is at hand wherever its result is. -/
theorem Consistent.atHand_of_available (h : f.Consistent)
    (hsplit : f.instsOf c = before ++ id :: after) (hv : f.AtHand c before v) (hb : f.Reachable b)
    (hpre : pre <+: f.instsOf b) (hid : f.Available b pre id) : f.AtHand b pre v := by
  cases v with
  | const k => trivial
  | arg n => trivial
  | inst j =>
    have hmem := mem_of_split hsplit
    rcases hid with hid | ⟨a, data, hdom, hdata, hid⟩
    · have hcb := h.same_block hmem (hpre.subset hid)
      subst hcb
      exact available_mono hv (h.prefix_of_mem hsplit hpre hid).subset
    · rw [← instsOf_eq hdata] at hid
      have hca := h.same_block hmem hid
      subst hca
      refine available_down hv hdata ?_ hb hdom
      rw [← instsOf_eq hdata]
      exact (prefix_of_split hsplit).subset

/-! ### Uses -/

theorem mem_usersOf {u : User} :
    u ∈ f.usersOf v ↔ ∃ b data, f.block? b = some data ∧
      ((∃ id i, id ∈ data.insts ∧ f.inst? id = some i ∧ v ∈ i.kind.operands ∧ u = .inst id) ∨
        (v ∈ data.term.operands ∧ u = .term b)) := by
  unfold usersOf uses
  simp only [List.mem_map, List.mem_filter, List.mem_flatMap, List.mem_append, Prod.exists,
    decide_eq_true_eq]
  constructor
  · rintro ⟨w, u', ⟨⟨b, data, hlive, h⟩, rfl⟩, rfl⟩
    refine ⟨b, data, mem_liveBlocks.1 hlive, ?_⟩
    rcases h with ⟨id, hid, w', hw, heq⟩ | ⟨w', hw, heq⟩
    · cases heq
      cases hi : f.inst? id with
      | none =>
        rw [hi] at hw
        cases hw
      | some i =>
        rw [hi] at hw
        exact .inl ⟨id, i, hid, hi, hw, rfl⟩
    · cases heq
      exact .inr ⟨hw, rfl⟩
  · rintro ⟨b, data, hdata, ⟨id, i, hid, hi, hv, rfl⟩ | ⟨hv, rfl⟩⟩
    · refine ⟨v, .inst id, ⟨⟨b, data, mem_liveBlocks.2 hdata, .inl ⟨id, hid, v, ?_, rfl⟩⟩, rfl⟩, rfl⟩
      rw [hi]
      exact hv
    · exact ⟨v, .term b, ⟨⟨b, data, mem_liveBlocks.2 hdata, .inr ⟨v, hv, rfl⟩⟩, rfl⟩, rfl⟩

/-- What holds of every instruction that is named holds of whatever has a reader. -/
theorem of_uses {p : InstId → Bool} (h : f.uses.all (fun e => e.1.inst?.all p) = true) {j : InstId}
    {u : User} (hu : u ∈ f.usersOf (.inst j)) : p j = true := by
  obtain ⟨e, he, _⟩ := List.mem_map.1 hu
  obtain ⟨huse, hv⟩ := List.mem_filter.1 he
  have hall := List.all_eq_true.1 h e huse
  rwa [of_decide_eq_true hv] at hall

/-- The phis a block starts with. -/
def phisOf (f : Func) (b : BlockId) : List InstId := (f.instsOf b).takeWhile f.isPhi

theorem phisOf_prefix (f : Func) (b : BlockId) : f.phisOf b <+: f.instsOf b :=
  List.takeWhile_prefix f.isPhi

theorem instsOf_eq_phisOf_append (f : Func) (b : BlockId) :
    f.instsOf b = f.phisOf b ++ (f.instsOf b).dropWhile f.isPhi :=
  List.takeWhile_append_dropWhile.symm

/-- Behind an instruction that is no phi there is none. -/
theorem phisOf_prefix_of_split (hsplit : f.instsOf b = before ++ id :: after)
    (hid : f.isPhi id = false) : f.phisOf b <+: before := by
  rw [phisOf, hsplit, List.takeWhile_append]
  split
  · have hnone : (id :: after).takeWhile f.isPhi = [] := List.takeWhile_cons_of_neg (by simp [hid])
    exact ⟨[], by rw [hnone, List.append_nil, List.append_nil]⟩
  · exact List.takeWhile_prefix f.isPhi

namespace WellFormed

theorem use (h : f.WellFormed) (hb : f.Reachable b) (hsplit : f.instsOf b = pre ++ id :: post)
    (hi : f.inst? id = some i) (hphi : i.kind.isPhi = false) (hv : v ∈ i.kind.operands) :
    f.AtHand b pre v := by
  cases v with
  | const k => trivial
  | arg n => trivial
  | inst j =>
    obtain ⟨data, hdata, hinsts⟩ := exists_block_of_insts hsplit
    exact h.uses b data pre id post i hb hdata hinsts hi hphi j hv

theorem phiUse (h : f.WellFormed) (hb : f.Reachable b) (hid : id ∈ f.instsOf b)
    {inc : List (BlockId × Value)} {ty : Option Ty} (hi : f.inst? id = some ⟨.phi inc, ty⟩)
    (he : (q, v) ∈ inc) (hq : f.Reachable q) : f.AtHand q (f.instsOf q) v := by
  cases v with
  | const k => trivial
  | arg n => trivial
  | inst j =>
    obtain ⟨data, hdata, hmem⟩ := exists_block_of_mem hid
    obtain ⟨qdata, hqdata⟩ := containsBlock_iff.1 hq.live
    rw [instsOf_eq hqdata]
    exact h.phiUses b data id inc ty hb hdata hmem hi q j he hq qdata hqdata

theorem termUse (h : f.WellFormed) (hb : f.Reachable b) (hdata : f.block? b = some data)
    (hv : v ∈ data.term.operands) : f.AtHand b (f.instsOf b) v := by
  cases v with
  | const k => trivial
  | arg n => trivial
  | inst j =>
    rw [instsOf_eq hdata]
    exact h.termUses b data hb hdata j hv

/-- With an instruction that is no phi its operands are at hand. -/
theorem operand_atHand (h : f.WellFormed) (hb : f.Reachable b) (hpre : pre <+: f.instsOf b)
    (hj : f.Available b pre j) (hi : f.inst? j = some i) (hphi : i.kind.isPhi = false)
    (hv : v ∈ i.kind.operands) : f.AtHand b pre v := by
  obtain ⟨c, hjc, hc, _⟩ := h.consistent.home_of_available hb hpre.subset hj
  obtain ⟨before, after, hsplit⟩ := List.append_of_mem (h.consistent.mem_instsOf.2 hjc)
  exact h.consistent.atHand_of_available hsplit (h.use hc hsplit hi hphi hv) hb hpre hj

theorem edge (h : f.WellFormed) (hdata : f.block? b = some data) (hc : c ∈ data.term.successors) :
    f.Edge b c :=
  ⟨data, hdata, hc, h.targets b data hdata c hc⟩

/-- Behind the phis there are none. -/
theorem isPhi_behind (h : f.WellFormed) (hid : id ∈ (f.instsOf b).dropWhile f.isPhi) :
    f.isPhi id = false := by
  obtain ⟨data, hdata, _⟩ := exists_block_of_mem ((List.dropWhile_suffix f.isPhi).subset hid)
  exact h.heads b data hdata id (instsOf_eq hdata ▸ hid)

theorem mem_phisOf (h : f.WellFormed) (hid : id ∈ f.instsOf b) (hphi : f.isPhi id = true) :
    id ∈ f.phisOf b := by
  rw [f.instsOf_eq_phisOf_append b] at hid
  rcases List.mem_append.1 hid with hmem | hrest
  · exact hmem
  · rw [h.isPhi_behind hrest] at hphi
    cases hphi

theorem isPhi_of_split (h : f.WellFormed) (hphis : f.phisOf b <+: pre)
    (hsplit : f.instsOf b = pre ++ id :: post) : f.isPhi id = false := by
  obtain ⟨data, hdata, hinsts⟩ := exists_block_of_insts hsplit
  obtain ⟨rest, rfl⟩ := hphis
  refine h.heads b data hdata id ?_
  have hwhole := f.instsOf_eq_phisOf_append b
  rw [hsplit, List.append_assoc] at hwhole
  have hdrop := List.append_cancel_left hwhole
  rw [← instsOf_eq hdata, hsplit, List.append_assoc, ← hdrop]
  exact List.mem_append_right _ List.mem_cons_self

end WellFormed

end BinaryLift.Func
