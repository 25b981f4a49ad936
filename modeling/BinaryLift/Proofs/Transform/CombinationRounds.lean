import BinaryLift.Proofs.Closed.Rewrites
import BinaryLift.Proofs.Run.Surveys
import BinaryLift.Proofs.Transform.Layers

/-!
# Rounds of combination

The loop of `instcombine` comes to an end where no instruction is computed from itself. A replacement takes
an instruction out, and may put every other one out of canonical form. A constant that is moved and a
difference that becomes a sum leave one instruction less that either can be done to. Constants that are
gathered leave the instructions below each other as they were, except that one result is no longer below.
-/

namespace BinaryLift

open Relation

/-- A constant is on the left, or one is subtracted. -/
def Kind.isLoose : Kind → Bool
  | binary op lhs rhs =>
    (op.isCommutative && lhs.isConst && !rhs.isConst) ||
      (decide (op = .sub) && !lhs.isConst && rhs.isConst)
  | icmp _ lhs rhs => lhs.isConst && !rhs.isConst
  | _ => false

namespace Func

variable {f g : Func} {d : DomTree} {id : InstId} {i : Inst} {k : Kind} {v : Value} {b : BlockId}
  {n : Nat} {c : Bool}

/-- The kind reads what an operand of `i` reads, instead of that operand. -/
def Shortens (f : Func) (i : Inst) (k : Kind) : Prop :=
  ∃ j i', .inst j ∈ i.kind.operands ∧ f.inst? j = some i' ∧ i'.kind.isPure = true ∧
    ∀ b, .inst b ∈ k.operands → .inst b ∈ i'.kind.operands

@[simp] theorem isConst_const (c : Constant) : (Value.const c).isConst = true := rfl

@[simp] theorem isConst_int (w : Word) (ty : Ty) : (Value.int w ty).isConst = true := rfl

/-- A canonical form is not loose, and what it is the form of was or was the end of a chain. -/
theorem canonical?_settles (h : f.canonical? i = .ok (some k)) :
    k.isLoose = false ∧ (i.kind.isLoose = true ∨ f.Shortens i k) := by
  obtain ⟨kind, o⟩ := i
  cases kind with
  | binary op x y =>
    rcases canonicalBinary?_cases h with ⟨hcomm, hx, hy, rfl⟩ | ⟨c, rfl, rfl, hx, rfl⟩ |
      ⟨j, base, c, c', o', u, rfl, rfl, hassoc, hj, _, rfl⟩
    · have hsub : op ≠ .sub := by
        rintro rfl
        cases hcomm
      exact ⟨by simp [Kind.isLoose, hsub, hx, hy], .inl (by simp [Kind.isLoose, hcomm, hx, hy])⟩
    · exact ⟨by simp [Kind.isLoose, hx], .inl (by simp [Kind.isLoose, hx])⟩
    · have hsub : op ≠ .sub := by
        rintro rfl
        cases hassoc
      refine ⟨by simp [Kind.isLoose, hsub], .inr ⟨j, _, List.mem_cons_self, hj, rfl, fun b hb => ?_⟩⟩
      simpa [Kind.operands, Value.int] using hb
  | icmp p x y =>
    simp only [canonical?, pure, Except.pure, Except.ok.injEq] at h
    split at h
    · rename_i hloose
      cases h
      simp only [Bool.and_eq_true, Bool.not_eq_true'] at hloose
      exact ⟨by simp [Kind.isLoose, hloose], .inl (by simp [Kind.isLoose, hloose])⟩
    · cases h
  | ptrAdd x y =>
    obtain ⟨j, base, c, c', o', rfl, rfl, hj, rfl⟩ := canonicalPtrAdd?_cases h
    refine ⟨rfl, .inr ⟨j, _, List.mem_cons_self, hj, rfl, fun b hb => ?_⟩⟩
    simpa [Kind.operands, Value.int] using hb
  | _ => cases h

/-! ### What is left to do -/

/-- The live instructions among the first `n`. -/
def liveBelow (n : Nat) (f : Func) : Finset Nat := (Finset.range n).filter fun a => f.isLive ⟨a⟩

/-- The loose instructions among the first `n`. -/
def looseBelow (n : Nat) (f : Func) : Finset Nat :=
  (Finset.range n).filter fun a => (f.inst? ⟨a⟩).any (·.kind.isLoose)

open Classical in
/-- The first `n` instructions with those that they are computed from. -/
noncomputable def pairsBelow (n : Nat) (f : Func) : Finset (Nat × Nat) :=
  (Finset.range n ×ˢ Finset.range n).filter fun e => TransGen f.ComputedFrom ⟨e.1⟩ ⟨e.2⟩

/-- One live instruction outweighs whatever its removal undoes. -/
noncomputable def slack (n : Nat) (f : Func) : Nat :=
  (n + 1) * (n + 1) * (f.liveBelow n).card + (f.looseBelow n).card + (f.pairsBelow n).card

theorem card_liveBelow_le (n : Nat) (f : Func) : (f.liveBelow n).card ≤ n :=
  (Finset.card_filter_le _ _).trans_eq (Finset.card_range n)

theorem card_looseBelow_le (n : Nat) (f : Func) : (f.looseBelow n).card ≤ n :=
  (Finset.card_filter_le _ _).trans_eq (Finset.card_range n)

theorem card_pairsBelow_le (n : Nat) (f : Func) : (f.pairsBelow n).card ≤ n * n := by
  classical
  exact (Finset.card_filter_le _ _).trans_eq (by rw [Finset.card_product, Finset.card_range])

theorem slack_lt (n : Nat) (f : Func) : f.slack n < 4 * ((n + 2) * (n + 2) * (n + 2)) := by
  have hlive := Nat.mul_le_mul_left ((n + 1) * (n + 1)) (card_liveBelow_le n f)
  have hloose := card_looseBelow_le n f
  have hpairs := card_pairsBelow_le n f
  have hsum : f.slack n ≤ (n + 1) * (n + 1) * n + n + n * n := by
    unfold slack
    omega
  have hcube : (n + 1) * (n + 1) * n + n + n * n < 4 * ((n + 2) * (n + 2) * (n + 2)) := by
    ring_nf
    nlinarith
  exact Nat.lt_of_le_of_lt hsum hcube

theorem slack_lt_of_removed (h : g.liveBelow n ⊂ f.liveBelow n) : g.slack n < f.slack n := by
  have hlive := Finset.card_lt_card h
  have hloose := card_looseBelow_le n g
  have hpairs := card_pairsBelow_le n g
  have hone := Nat.mul_le_mul_left ((n + 1) * (n + 1)) hlive
  have hsquare : (n + 1) * (n + 1) = n * n + n + n + 1 := by ring
  unfold slack
  rw [Nat.mul_succ] at hone
  omega

/-! ### One instruction -/

/-- What combination relies on for coming to an end, and keeps. -/
structure Combining (d : DomTree) (n : Nat) (f : Func) : Prop where
  framed : f.Framed d
  reached : ∀ a b, d.dominates a b = true → f.Reachable a
  layered : f.Layered
  bound : ∀ id, f.isLive id = true → id.index < n

namespace Combining

theorem recast (hf : f.Combining d n) (h : f.Recast g id i k) (hlive : f.isLive id = true)
    (hderives : ∀ v ∈ k.operands, f.Derives i.kind v) : g.Combining d n where
  framed := hf.framed.recast h
  reached := fun a b hab => h.reachable.2 (hf.reached a b hab)
  layered := h.layered hf.layered hlive hderives
  bound := by
    intro a ha
    rw [h.isLive] at ha
    exact hf.bound a ha

theorem looseBelow_recast (h : f.Recast g id i k) (hk : k.isLoose = false) :
    g.looseBelow n ⊆ f.looseBelow n := by
  intro a ha
  simp only [looseBelow, Finset.mem_filter] at ha ⊢
  refine ⟨ha.1, ?_⟩
  by_cases hne : (⟨a⟩ : InstId) = id
  · have hloose := ha.2
    rw [hne, h.new, Option.any_some, hk] at hloose
    cases hloose
  · rw [← h.others _ hne]
    exact ha.2

theorem pairsBelow_recast (hf : f.Combining d n) (h : f.Recast g id i k)
    (hlive : f.isLive id = true) (hderives : ∀ v ∈ k.operands, f.Derives i.kind v) :
    g.pairsBelow n ⊆ f.pairsBelow n := by
  intro e he
  simp only [pairsBelow, Finset.mem_filter] at he ⊢
  exact ⟨he.1, TransGen.closed (fun _ _ hab => h.below hf.layered hlive hderives hab) _ _ he.2⟩

/-- An operand that is skipped is no longer below the instruction. -/
theorem not_below_of_shortens (hf : f.Combining d n) (h : f.Recast g id i k)
    (hlive : f.isLive id = true) (hderives : ∀ v ∈ k.operands, f.Derives i.kind v) {j : InstId}
    {i' : Inst} (hj : .inst j ∈ i.kind.operands) (hi' : f.inst? j = some i')
    (hpure : i'.kind.isPure = true) (hsub : ∀ b, .inst b ∈ k.operands → .inst b ∈ i'.kind.operands) :
    ¬ TransGen g.ComputedFrom id j := by
  intro hbelow
  obtain ⟨b, ⟨i'', _, hi'', _, hb⟩, hrest⟩ := TransGen.head'_iff.1 hbelow
  rw [h.new] at hi''
  cases hi''
  have hjb : f.ComputedFrom j b :=
    ⟨i', hf.layered.operands id i hlive h.old j hj, hi', Kind.isPhi_of_pure hpure, hsub b hb⟩
  rcases reflTransGen_iff_eq_or_transGen.1 hrest with rfl | hway
  · exact hf.layered.acyclic j (.single hjb)
  · have hway' := TransGen.closed (fun _ _ hab => h.below hf.layered hlive hderives hab) _ _ hway
    exact hf.layered.acyclic j (.head hjb hway')

theorem slack_recast (hf : f.Combining d n) (h : f.Recast g id i k) (hlive : f.isLive id = true)
    (hderives : ∀ v ∈ k.operands, f.Derives i.kind v) (hk : k.isLoose = false)
    (hold : i.kind.isLoose = true ∨ f.Shortens i k) : g.slack n < f.slack n := by
  have hsame : g.liveBelow n = f.liveBelow n := by simp only [liveBelow, h.isLive]
  have hloose := looseBelow_recast (n := n) h hk
  have hpairs := hf.pairsBelow_recast h hlive hderives
  have hid := hf.bound id hlive
  unfold slack
  rw [hsame]
  rcases hold with hold | ⟨j, i', hj, hi', hpure, hsub⟩
  · have hless : g.looseBelow n ⊂ f.looseBelow n := by
      refine Finset.ssubset_iff_of_subset hloose |>.2 ⟨id.index, ?_, ?_⟩
      · simp [looseBelow, hid, h.old, hold]
      · simp [looseBelow, h.new, hk]
    have hcard := Finset.card_lt_card hless
    have hcard' := Finset.card_le_card hpairs
    omega
  · have hless : g.pairsBelow n ⊂ f.pairsBelow n := by
      have hjlive := hf.layered.operands id i hlive h.old j hj
      have hbelow : f.ComputedFrom id j := ⟨i, hlive, h.old, h.isPhi_old, hj⟩
      refine Finset.ssubset_iff_of_subset hpairs |>.2 ⟨(id.index, j.index), ?_, ?_⟩
      · simpa [pairsBelow, hid, hf.bound j hjlive] using TransGen.single hbelow
      · simpa [pairsBelow] using fun _ _ =>
          hf.not_below_of_shortens h hlive hderives hj hi' hpure hsub
    have hcard := Finset.card_lt_card hless
    have hcard' := Finset.card_le_card hloose
    omega

theorem canonicalize (hf : f.Combining d n) (hlive : f.isLive id = true)
    (h : f.canonicalize id = .ok (g, c)) : g.Combining d n ∧ Advances (slack n) f g c := by
  rcases canonicalize_eq_ok h with ⟨rfl, rfl⟩ | ⟨i, k, hi, hcanon, hcanonical, rfl, rfl⟩
  · exact ⟨hf, .refl _ _⟩
  · have hrecast := hcanonical.recast hf.framed.wellFormed hi
    obtain ⟨hk, hold⟩ := canonical?_settles hcanon
    exact ⟨hf.recast hrecast hlive hcanonical.derives,
      .of_lt (hf.slack_recast hrecast hlive hcanonical.derives hk hold)⟩

/-- What replaces a result leaves no instruction computed from itself. -/
theorem layered_replaced (hf : f.Combining d n) (hid : id ∈ f.instsOf b)
    (hsimp : f.simplify? d id = .ok (some v))
    (hsub : f.Substituted (fun j => decide (j = id)) (replaceResult id v) g) (hwf : g.WellFormed) :
    g.Layered := by
  have hc := hf.framed.wellFormed.consistent
  have hlive : f.isLive id = true := hc.isLive_of_mem hid
  obtain ⟨⟨kind, o⟩, hi⟩ := hc.inst?_of_mem hid
  cases hphi : kind.isPhi with
  | false =>
    apply hsub.layered_of_below hc hf.layered
    rintro j rfl
    exact hf.layered.below_of_derives hlive hi hphi (simplify?_replaces hi hphi hsimp).derives
  | true =>
    cases kind with
    | phi inc =>
      obtain ⟨hcommon, hat⟩ := simplify?_phi hi hsimp
      apply hsub.layered_of_reachable hc hf.layered hwf
      rintro j rfl
      simp only [availableAt, hc.mem_instsOf.1 hid] at hat
      cases hj : f.instBlock j with
      | none =>
        rw [hj] at hat
        cases hat
      | some home =>
        rw [hj] at hat
        simp only [ne_eq, Bool.and_eq_true, decide_eq_true_eq] at hat
        refine ⟨?_, home, hf.reached home b hat.2, rfl⟩
        rintro rfl
        rw [hc.mem_instsOf.1 hid] at hj
        exact hat.1 (Option.some.inj hj).symm
    | _ => cases hphi

theorem replaced (hf : f.Combining d n) (hid : id ∈ f.instsOf b)
    (hsimp : f.simplify? d id = .ok (some v))
    (hg : (f.replaceAllUses (.inst id) v).removeInst id = .ok g) :
    g.Combining d n ∧ g.slack n < f.slack n := by
  have hc := hf.framed.wellFormed.consistent
  have hframed := simplify?_framed hf.framed hid hsimp hg
  obtain ⟨g', hg', hsub⟩ := replace_spec hc id v
  rw [hg] at hg'
  cases hg'
  have hlive : f.isLive id = true := hc.isLive_of_mem hid
  refine ⟨⟨hframed, fun a b hab => hsub.reachable.2 (hf.reached a b hab),
    hf.layered_replaced hid hsimp hsub hframed.wellFormed,
    fun a ha => hf.bound a (hsub.isLive_iff.1 ha).2⟩, slack_lt_of_removed ?_⟩
  refine Finset.ssubset_iff_of_subset (fun a ha => ?_) |>.2 ⟨id.index, ?_, ?_⟩
  · simp only [liveBelow, Finset.mem_filter] at ha ⊢
    exact ⟨ha.1, (hsub.isLive_iff.1 ha.2).2⟩
  · simp [liveBelow, hf.bound id hlive, hlive]
  · simp [liveBelow, hsub.isLive_iff]

theorem combineInst (hf : f.Combining d n) (id : InstId) :
    ∃ g c, combineInst d f id = .ok (g, c) ∧ g.Combining d n ∧ Advances (slack n) f g c := by
  obtain ⟨⟨g, c⟩, hg, _⟩ :=
    ((hf.layered.enclosed hf.framed.wellFormed).gives_combineInst (s := False) d id).returns
  refine ⟨g, c, hg, ?_⟩
  rcases combineInst_eq_ok hg with ⟨rfl, rfl⟩ | ⟨b, f₁, c₁, hb, hcanon, hstep⟩
  · exact ⟨hf, .refl _ _⟩
  · have hlive : f.isLive id = true := by
      rw [isLive, hb]
      rfl
    obtain ⟨hf₁, hadvances⟩ := hf.canonicalize hlive hcanon
    rcases hstep with ⟨rfl, rfl⟩ | ⟨v, hsimp, hremove, rfl⟩
    · exact ⟨hf₁, hadvances⟩
    · have hid : id ∈ f₁.instsOf b := by
        rw [hf₁.framed.wellFormed.consistent.mem_instsOf, instBlock_canonicalize hcanon, hb]
      obtain ⟨hg', hless⟩ := hf₁.replaced hid hsimp hremove
      have hadvances' := hadvances.trans (.of_lt hless)
      rw [Bool.or_true] at hadvances'
      exact ⟨hg', hadvances'⟩

theorem combineOnce (hf : f.Combining d n) :
    ∃ g c, combineOnce d f = .ok (g, c) ∧ g.Combining d n ∧ Advances (slack n) f g c :=
  sweepOver_advances (I := (·.Combining d n)) (fun id _ _ hg => hg.combineInst id) hf

end Combining

/-! ### All rounds -/

theorem Layered.combining (hl : f.Layered) (hwf : f.WellFormed) (hd : DomTree.compute f = .ok d) :
    f.Combining d f.arena.size := by
  refine ⟨⟨hwf, dominates_of_compute hwf hd⟩, fun a b hab => ?_, hl, fun _ => index_lt_of_isLive⟩
  exact (((DomTree.exact_of_compute hwf.entry hd).dominates a b).1 hab).1

theorem combine_rests (hl : f.Layered) (hwf : f.WellFormed) (hd : DomTree.compute f = .ok d) :
    ∃ g changed, f.combine = .ok (g, changed) ∧ combineOnce d g = .ok (g, false) := by
  obtain ⟨g, changed, hg, _, hrest⟩ := untilStable_advances (I := (·.Combining d f.arena.size))
    (fun _ hg => hg.combineOnce) (hl.combining hwf hd) (slack_lt f.arena.size f)
  refine ⟨g, changed, ?_, hrest⟩
  unfold combine
  rw [hd]
  exact hg

/-- Combination comes to a round that changes nothing. -/
theorem combine_comes_to_rest (hwf : f.WellFormed) (hl : f.Layered) :
    ∃ d g changed, DomTree.compute f = .ok d ∧ f.combine = .ok (g, changed) ∧
      combineOnce d g = .ok (g, false) := by
  obtain ⟨d, hd⟩ := DomTree.compute_returns hwf.entry
  obtain ⟨g, changed, hg, hrest⟩ := combine_rests hl hwf hd
  exact ⟨d, g, changed, hd, hg, hrest⟩

/-- A number that is made from `n`, goes round a loop unchanged and is compared with a constant; and a
counter that control does not come to. -/
def tangled : Func where
  name := "sample"
  params := [⟨"n", .i64⟩]
  ret := some .i64
  arena := #[
    ⟨⟨.binary .mul (.arg 0) (.int 1 .i64), some .i64⟩, some ⟨0⟩⟩,
    ⟨⟨.binary .add (.int 5 .i64) (.inst ⟨0⟩), some .i64⟩, some ⟨0⟩⟩,
    ⟨⟨.binary .sub (.inst ⟨1⟩) (.int 2 .i64), some .i64⟩, some ⟨0⟩⟩,
    ⟨⟨.phi [(⟨0⟩, .inst ⟨2⟩), (⟨1⟩, .inst ⟨3⟩)], some .i64⟩, some ⟨1⟩⟩,
    ⟨⟨.icmp .ult (.int 4 .i64) (.inst ⟨3⟩), some .i1⟩, some ⟨1⟩⟩,
    ⟨⟨.phi [(⟨3⟩, .inst ⟨6⟩)], some .i64⟩, some ⟨3⟩⟩,
    ⟨⟨.binary .add (.int 1 .i64) (.inst ⟨5⟩), some .i64⟩, some ⟨3⟩⟩]
  blocks := #[
    some { insts := [⟨0⟩, ⟨1⟩, ⟨2⟩], term := .jump ⟨1⟩ },
    some { insts := [⟨3⟩, ⟨4⟩], term := .branch (.inst ⟨4⟩) ⟨1⟩ ⟨2⟩ },
    some { insts := [], term := .ret (some (.inst ⟨3⟩)) },
    some { insts := [⟨5⟩, ⟨6⟩], term := .jump ⟨3⟩ }]
  entry := some ⟨0⟩

theorem tangled_wellFormed : tangled.WellFormed := by
  have haccepts : Survey.accepts [(⟨0⟩, []), (⟨1⟩, [⟨0⟩]), (⟨2⟩, [⟨0⟩, ⟨1⟩])] tangled = true := by
    decide
  exact Survey.wellFormed_of_accepts haccepts

/-- The product and the phi are gone, the constants are gathered, and there it rests. -/
theorem tangled_comes_to_rest : ∃ d g, DomTree.compute tangled = .ok d ∧
    tangled.combine = .ok (g, true) ∧ combineOnce d g = .ok (g, false) ∧
    g.liveInsts = [⟨1⟩, ⟨2⟩, ⟨4⟩, ⟨5⟩, ⟨6⟩] ∧
    g.inst? ⟨2⟩ = some ⟨.binary .add (.arg 0) (.int 3 .i64), some .i64⟩ := by
  obtain ⟨d, g, changed, hd, hg, hrest⟩ :=
    combine_comes_to_rest tangled_wellFormed (layered_of_madeInOrder (by decide))
  have hresult : tangled.combine.toOption.map (fun r => (r.2, r.1.liveInsts, r.1.inst? ⟨2⟩)) =
      some (true, [⟨1⟩, ⟨2⟩, ⟨4⟩, ⟨5⟩, ⟨6⟩],
        some ⟨.binary .add (.arg 0) (.int 3 .i64), some .i64⟩) := by cbv
  rw [hg] at hresult
  obtain ⟨rfl, hresult⟩ := Prod.mk.inj (Option.some.inj hresult)
  obtain ⟨hlive, hinst⟩ := Prod.mk.inj hresult
  exact ⟨d, g, hd, hg, hrest, hlive, hinst⟩

/-! ### What it does when it has come to rest -/

/-- Rounds of combination, however many, come to an end with `g`. -/
def CombinesTo (f g : Func) : Prop :=
  ∃ d n changed, DomTree.compute f = .ok d ∧ untilStable (combineOnce d) n f = .ok (g, changed)

theorem combinesTo_of_combine (h : f.combine = .ok (g, c)) : f.CombinesTo g := by
  obtain ⟨d, hd, hrounds⟩ := bind_eq_ok.1 h
  exact ⟨d, _, c, hd, hrounds⟩

/-- Indirect jumps leave the function, and pointers become full words. Where combination comes to an
end, every execution that ends without an undefined operation ends in the same way afterwards, with
the same calls and the same memory; and it comes to an end where no instruction is computed from
itself and operands are live. -/
theorem combine_preserves (hwf : f.WellFormed) (hty : f.WellTyped) (hwide : f.WidePointers) :
    (f.Layered → ∃ g changed, f.combine = .ok (g, changed)) ∧
    (∀ g changed, f.combine = .ok (g, changed) → f.CombinesTo g) ∧
    ∀ g, f.CombinesTo g → ∀ (act : Activation) (memory : Memory), act.linked = false →
      (∀ s, act.own s = true → f.confines s = true) →
      ∀ n e m, f.run act memory n = some (e, m) →
        ∃ k m', g.run act memory k = some (e, m') ∧ m'.calls = m.calls ∧
          m'.memory = m.memory ∧ m'.slots = m.slots := by
  refine ⟨fun hl => ?_, fun g changed h => combinesTo_of_combine h, ?_⟩
  · obtain ⟨d, hd⟩ := DomTree.compute_returns hwf.entry
    obtain ⟨g, changed, hg, _⟩ := combine_rests hl hwf hd
    exact ⟨g, changed, hg⟩
  · rintro g ⟨d, rounds, changed, hd, hrounds⟩ act memory hlinked hown n e m hrun
    exact untilStable_combineOnce_preserves hwf hty hwide hd hrounds act memory hlinked hown n e m hrun

/-- A pointer as a number, with a constant added from the left and another one from the right. -/
def twoSums : Func where
  name := "sample"
  params := [⟨"p", .ptr⟩]
  ret := some .i64
  arena := #[
    ⟨⟨.cast .ptrtoint (.arg 0), some .i64⟩, some ⟨0⟩⟩,
    ⟨⟨.binary .add (.int 5 .i64) (.inst ⟨0⟩), some .i64⟩, some ⟨0⟩⟩,
    ⟨⟨.binary .add (.inst ⟨1⟩) (.int 7 .i64), some .i64⟩, some ⟨0⟩⟩]
  blocks := #[some { insts := [⟨0⟩, ⟨1⟩, ⟨2⟩], term := .ret (some (.inst ⟨2⟩)) }]
  entry := some ⟨0⟩

theorem twoSums_wellFormed : twoSums.WellFormed := by
  have haccepts : Survey.accepts [(⟨0⟩, [])] twoSums = true := by decide
  exact Survey.wellFormed_of_accepts haccepts

/-- An activation with one as its argument. -/
def one : Activation where
  args := fun _ => 1
  answer := fun _ _ memory => (0, memory)
  base := fun _ => 0
  own := fun _ => false
  linked := false

/-- The constants are gathered, and the sum is the same. -/
theorem twoSums_combined :
    ∃ g, twoSums.combine = .ok (g, true) ∧
      g.inst? ⟨2⟩ = some ⟨.binary .add (.inst ⟨0⟩) (.int 12 .i64), some .i64⟩ ∧
      ∃ k m, g.run one (fun _ => 0) k = some (.ret (some 13), m) ∧ m.calls = [] := by
  have hcombine : (twoSums.combine.toOption.map fun r => (r.1.inst? ⟨2⟩, r.2)) =
      some (some ⟨.binary .add (.inst ⟨0⟩) (.int 12 .i64), some .i64⟩, true) := by cbv
  have hexit : (twoSums.run one (fun _ => 0) 1).map (fun r => (r.1, r.2.calls.length)) =
      some (.ret (some 13), 0) := by cbv
  cases hg : twoSums.combine with
  | error e =>
    rw [hg] at hcombine
    cases hcombine
  | ok r =>
    obtain ⟨g, changed⟩ := r
    rw [hg] at hcombine
    obtain ⟨hinst, rfl⟩ := Prod.mk.inj (Option.some.inj hcombine)
    obtain ⟨⟨e, m⟩, hrun, heq⟩ := Option.map_eq_some_iff.1 hexit
    obtain ⟨rfl, hlen⟩ := Prod.mk.inj heq
    obtain ⟨_, hends, hpreserves⟩ := combine_preserves twoSums_wellFormed (by decide) (by decide)
    obtain ⟨k, m', hrun', hcalls, _⟩ := hpreserves g (hends g true hg) one _ rfl
      (fun _ hown => absurd hown Bool.false_ne_true) 1 _ m hrun
    exact ⟨g, rfl, hinst, k, m', hrun', hcalls.trans (List.length_eq_zero_iff.1 hlen)⟩

/-- Control does not come to the number that is masked again and again. -/
def selfMasked : Func where
  name := "sample"
  params := [⟨"x", .i64⟩]
  ret := some .i64
  arena := #[⟨⟨.binary .and (.inst ⟨0⟩) (.int 5 .i64), some .i64⟩, some ⟨1⟩⟩]
  blocks := #[
    some { insts := [], term := .ret (some (.arg 0)) },
    some { insts := [⟨0⟩], term := .ret (some (.inst ⟨0⟩)) }]
  entry := some ⟨0⟩

/-- A number is cut to half its width that has been removed, and that was made of nothing. -/
def cutRemoved : Func where
  name := "sample"
  params := [⟨"x", .i64⟩]
  ret := some .i64
  arena := #[
    ⟨⟨.cast .zext (.inst ⟨99⟩), some .i64⟩, none⟩,
    ⟨⟨.cast .trunc (.inst ⟨0⟩), some .i32⟩, some ⟨1⟩⟩]
  blocks := #[
    some { insts := [], term := .ret (some (.arg 0)) },
    some { insts := [⟨1⟩], term := .ret (some (.inst ⟨1⟩)) }]
  entry := some ⟨0⟩

theorem selfMasked_wellFormed : selfMasked.WellFormed := by
  have haccepts : Survey.accepts [(⟨0⟩, [])] selfMasked = true := by decide
  exact Survey.wellFormed_of_accepts haccepts

theorem cutRemoved_wellFormed : cutRemoved.WellFormed := by
  have haccepts : Survey.accepts [(⟨0⟩, [])] cutRemoved = true := by decide
  exact Survey.wellFormed_of_accepts haccepts

/-- Both functions return their argument. On the first one the rounds of combination have no end, and on
the second one combination meets a handle that was never given out. -/
theorem not_combine_returns :
    (∀ f ∈ [selfMasked, cutRemoved], f.WellFormed ∧ f.WellTyped ∧ f.WidePointers ∧
      ∃ m, f.run one (fun _ => 0) 1 = some (.ret (some 1), m)) ∧
    (∀ d n, untilStable (combineOnce d) n selfMasked = .error .stepLimit) ∧
    cutRemoved.combine = .error (.noSuchInst ⟨99⟩) := by
  have hreturns : ∀ f : Func, (f.run one (fun _ => 0) 1).map (·.1) = some (.ret (some 1)) →
      ∃ m, f.run one (fun _ => 0) 1 = some (.ret (some 1), m) := by
    intro f hexit
    obtain ⟨⟨e, m⟩, hrun, he⟩ := Option.map_eq_some_iff.1 hexit
    obtain rfl : e = _ := he
    exact ⟨m, hrun⟩
  refine ⟨?_, fun d n => ?_, by cbv⟩
  · intro f hf
    rcases List.mem_cons.1 hf with rfl | hf
    · exact ⟨selfMasked_wellFormed, by decide, by decide, hreturns _ (by cbv)⟩
    · rw [List.mem_singleton.1 hf]
      exact ⟨cutRemoved_wellFormed, by decide, by decide, hreturns _ (by cbv)⟩
  · refine untilStable_endless (I := (· = selfMasked)) ?_ n rfl
    rintro g rfl
    exact ⟨selfMasked, rfl, rfl⟩

end Func

end BinaryLift
