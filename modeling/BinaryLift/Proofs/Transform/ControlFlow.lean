import BinaryLift.Proofs.Run.Surveys
import BinaryLift.Proofs.Transform.ChainSteps
import BinaryLift.Proofs.Transform.Rounds
import Mathlib

/-!
# Simplified control flow

Where indirect jumps leave the function, `simplifycfg` comes to rest, keeps SSA form and does not change
what the function does. Every round that changes something removes a block or a terminator that is no jump,
or leaves a block behind that cannot be reached.
-/

namespace BinaryLift.Func

variable {f g h : Func} {b pred : BlockId} {n : Nat} {c c' : Bool}

/-! ### What is left to do -/

/-- What there may be to do at the first `n` blocks. -/
def weight (n : Nat) (f : Func) : Nat := ((List.range n).map fun i => f.load ⟨i⟩).sum

theorem weight_le (hload : ∀ x, g.load x ≤ f.load x) : g.weight n ≤ f.weight n :=
  List.sum_le_sum fun _ _ => hload _

theorem weight_lt (hload : ∀ x, g.load x ≤ f.load x) (hb : b.index < n)
    (hlt : g.load b < f.load b) : g.weight n < f.weight n :=
  List.sum_lt_sum _ _ (fun _ _ => hload _) ⟨_, List.mem_range.2 hb, hlt⟩

theorem load_le (f : Func) (b : BlockId) : f.load b ≤ 2 := by
  unfold load
  cases f.block? b with
  | none => exact Nat.zero_le _
  | some data =>
    simp only [Option.elim_some]
    split <;> omega

theorem weight_le_size (n : Nat) (f : Func) : f.weight n ≤ 2 * n := by
  have hle : f.weight n ≤ ((List.range n).map fun _ => 2).sum :=
    List.sum_le_sum fun i _ => f.load_le ⟨i⟩
  rwa [List.map_const', List.length_range, List.sum_replicate_nat, Nat.mul_comm] at hle

/-- Two sums whose terms differ in one place. -/
theorem sum_map_of_eq_off {ks : List Nat} {u v : Nat → Nat} {j : Nat} (hnodup : ks.Nodup)
    (hj : j ∈ ks) (heq : ∀ i ∈ ks, i ≠ j → u i = v i) :
    (ks.map u).sum + v j = (ks.map v).sum + u j := by
  induction ks with
  | nil => cases hj
  | cons k ks ih =>
    obtain ⟨hk, hnodup⟩ := List.nodup_cons.1 hnodup
    simp only [List.map_cons, List.sum_cons]
    by_cases hkj : k = j
    · subst hkj
      have hrest : ks.map u = ks.map v := by
        refine List.map_congr_left fun i hi => heq i (List.mem_cons_of_mem _ hi) ?_
        rintro rfl
        exact hk hi
      rw [hrest]
      omega
    · have hjk : j ∈ ks := (List.mem_cons.1 hj).resolve_left (Ne.symm hkj)
      have hsum := ih hnodup hjk fun i hi => heq i (List.mem_cons_of_mem _ hi)
      have hhead := heq k List.mem_cons_self hkj
      omega

/-- A block is gone and its terminator stands elsewhere: what one block had, the other one has. -/
theorem weight_lt_of_moved (hne : pred ≠ b) (hjump : f.load pred = 1) (hgone : g.load b = 0)
    (hmoved : g.load pred = f.load b) (hothers : ∀ x, x ≠ pred → x ≠ b → g.load x = f.load x)
    (hpred : pred.index < n) (hb : b.index < n) : g.weight n < f.weight n := by
  have hindex : b.index ≠ pred.index := fun heq => hne (index_inj heq.symm)
  -- half of the change: the terminator stands in both blocks
  let mid := fun i => if i = pred.index then f.load b else f.load ⟨i⟩
  have hfirst := sum_map_of_eq_off (u := mid) (v := fun i => f.load ⟨i⟩) List.nodup_range
    (List.mem_range.2 hpred) fun i _ hi => if_neg hi
  have hsecond := sum_map_of_eq_off (u := fun i => g.load ⟨i⟩) (v := mid) List.nodup_range
    (List.mem_range.2 hb) fun i _ hi => by
      by_cases hip : i = pred.index
      · subst hip
        exact hmoved.trans (if_pos rfl).symm
      · refine (hothers ⟨i⟩ ?_ ?_).trans (if_neg hip).symm
        · rintro rfl
          exact hip rfl
        · rintro rfl
          exact hi rfl
  have hmidPred : mid pred.index = f.load b := if_pos rfl
  have hmidB : mid b.index = f.load b := if_neg hindex
  have hjump' : f.load ⟨pred.index⟩ = 1 := hjump
  have hgone' : g.load ⟨b.index⟩ = 0 := hgone
  simp only [hmidPred, hmidB, hjump', hgone'] at hfirst hsecond
  unfold weight
  omega

theorem Joined.weight_lt (hj : f.Joined g pred b) (hpred : pred.index < n) (hb : b.index < n) :
    g.weight n < f.weight n :=
  weight_lt_of_moved hj.ne hj.jump hj.gone hj.moved hj.others hpred hb

/-- A jump stands where another terminator stood. -/
theorem weight_lt_of_jump {data : Block} {target : BlockId} (hdata : f.block? b = some data)
    (hterm : ∀ s, data.term ≠ .jump s) (hblock : ∀ x, g.block? x =
      if x = b then some { data with term := .jump target } else f.block? x)
    (hb : b.index < n) : g.weight n < f.weight n := by
  have hb₂ : f.load b = 2 := by
    rw [load_eq hdata]
    cases hjump : data.term with
    | jump s => exact absurd hjump (hterm s)
    | _ => rfl
  have hb₁ : g.load b = 1 := by
    rw [load, hblock b, if_pos rfl]
    rfl
  refine weight_lt (fun x => ?_) hb (by rw [hb₁, hb₂]; exact Nat.lt_succ_self 1)
  by_cases hx : x = b
  · rw [hx, hb₁, hb₂]
    exact Nat.le_succ 1
  · exact Nat.le_of_eq (by rw [load, load, hblock x, if_neg hx])

/-! ### Sweeps -/

/-- The function `g` comes from `f`, and is lighter if something has changed. -/
structure Progress (n : Nat) (f g : Func) (changed : Bool) : Prop where
  keeps : f.Keeps g
  live : ∀ x, g.containsBlock x = true → f.containsBlock x = true
  weight : g.weight n ≤ f.weight n
  lighter : changed = true → g.weight n < f.weight n

theorem Progress.refl (hwf : f.WellFormed) : f.Progress n f false where
  keeps := .refl hwf
  live := fun _ hx => hx
  weight := Nat.le_refl _
  lighter := fun hc => nomatch hc

theorem Progress.trans (hfg : Progress n f g c) (hgh : Progress n g h c') :
    Progress n f h (c || c') where
  keeps := hfg.keeps.trans hgh.keeps
  live := fun x hx => hfg.live x (hgh.live x hx)
  weight := Nat.le_trans hgh.weight hfg.weight
  lighter := by
    intro hchanged
    rcases Bool.or_eq_true_iff.1 hchanged with hc | hc
    · exact Nat.lt_of_le_of_lt hgh.weight (hfg.lighter hc)
    · exact Nat.lt_of_lt_of_le (hgh.lighter hc) hfg.weight

theorem Folded.progress (hf : f.Folded g b) (hwf : f.WellFormed) (hb : b.index < n) :
    Progress n f g true := by
  obtain ⟨data, t, hdata, hterm, hblock⟩ := hf.block
  have hlt : g.weight n < f.weight n := weight_lt_of_jump hdata hterm hblock hb
  exact ⟨hf.thinned.keeps hwf, fun x hx => by rwa [hf.live x] at hx, Nat.le_of_lt hlt, fun _ => hlt⟩

/-- Live blocks have an index below `n`. -/
def Within (n : Nat) (f : Func) : Prop := ∀ x, f.containsBlock x = true → x.index < n

theorem foldBranches_spec (hwf : f.WellFormed) (hl : ∀ act : Activation, act.Leaves f)
    (hn : f.Within n) :
    ∃ g c, f.foldBranches = .ok (g, c) ∧ Progress n f g c ∧ (c = false → g = f) := by
  have hsweep : ∃ g c, f.foldBranches = .ok (g, c) ∧ Progress n f g c ∧
      (∀ x, g.containsBlock x = f.containsBlock x) ∧ (c = false → g = f) := by
    refine sweepOver_spec (I := fun g c => Progress n f g c ∧
      (∀ x, g.containsBlock x = f.containsBlock x) ∧ (c = false → g = f)) ?_
      ⟨.refl hwf, fun _ => rfl, fun _ => rfl⟩
    rintro b hb g c ⟨hp, hlive, hsame⟩
    have hbf := mem_blockIds.1 hb
    have hbg : g.containsBlock b = true := by rw [hlive, hbf]
    obtain ⟨g', c', hg', ⟨rfl, rfl⟩ | ⟨rfl, hfolded⟩⟩ :=
      foldBranch_spec hp.keeps.wellFormed (fun act => hp.keeps.leaves act (hl act)) hbg
    · refine ⟨g', false, hg', ?_⟩
      rw [Bool.or_false]
      exact ⟨hp, hlive, hsame⟩
    · refine ⟨g', true, hg', hp.trans (hfolded.progress hp.keeps.wellFormed (hn b hbf)), ?_, ?_⟩
      · intro x
        rw [hfolded.live, hlive]
      · rw [Bool.or_true]
        intro hc
        cases hc
  obtain ⟨g, c, hg, hp, _, hsame⟩ := hsweep
  exact ⟨g, c, hg, hp, hsame⟩

namespace Pruned

variable {dead : List BlockId}

theorem load_le (hp : f.Pruned g dead) (x : BlockId) : g.load x ≤ f.load x := by
  rw [load, hp.block x]
  split
  · exact Nat.zero_le _
  · exact Nat.le_refl _

theorem weight_lt (hp : f.Pruned g dead) (hn : f.Within n) (hdead : dead ≠ []) :
    g.weight n < f.weight n := by
  obtain ⟨x, hx⟩ := List.exists_mem_of_ne_nil dead hdead
  obtain ⟨hlive, _⟩ := (hp.mem_dead x).1 hx
  refine Func.weight_lt hp.load_le (hn x hlive) ?_
  obtain ⟨data, hdata⟩ := containsBlock_iff.1 hlive
  rw [load, hp.block x, if_pos hx, load_eq hdata]
  simp only [Option.elim_none]
  split <;> omega

end Pruned

theorem removeUnreachable_progress (hwf : f.WellFormed) (hn : f.Within n) :
    ∃ g c, f.removeUnreachable = .ok (g, c) ∧ Progress n f g c ∧
      (c = false → ∀ x, f.containsBlock x = true → f.Reachable x) := by
  obtain ⟨g, dead, hg, hp⟩ := removeUnreachable_cases hwf.routed
  refine ⟨g, !dead.isEmpty, hg, ⟨(hp.thinned hwf).keeps hwf, fun x hx => hp.live hx,
    weight_le hp.load_le, fun hc => hp.weight_lt hn ?_⟩, fun hc x hx => hp.reachable hc hx⟩
  rintro rfl
  cases hc

theorem mergeChains_spec (hwf : f.WellFormed) (hn : f.Within n) :
    ∃ g c, f.mergeChains = .ok (g, c) ∧ Progress n f g c := by
  refine sweepOver_spec (I := fun g c => Progress n f g c) ?_ (.refl hwf)
  intro b _ g c hp
  obtain ⟨g', c', hg', ⟨rfl, rfl⟩ | ⟨rfl, pred, hjoined⟩⟩ := mergeChain_spec hp.keeps.wellFormed b
  · exact ⟨g', false, hg', by rwa [Bool.or_false]⟩
  · have hlt : g'.weight n < g.weight n := hjoined.weight_lt (hn _ (hp.live _ hjoined.live.1))
      (hn _ (hp.live _ hjoined.live.2))
    exact ⟨g', true, hg',
      hp.trans ⟨hjoined.keeps, hjoined.live', Nat.le_of_lt hlt, fun _ => hlt⟩⟩

namespace Bypassed

variable {target y : BlockId}

theorem live_target (hb : f.Bypassed g b target) (hf : f.Routed) :
    f.containsBlock target = true := by
  obtain ⟨address, hfwd⟩ := hb.forwards
  exact hf.targets b _ hfwd target (List.mem_singleton_self _)

/-- Nothing leads to a block that has been led past. -/
theorem no_edge (hb : f.Bypassed g b target) (hlive : f.containsBlock target = true) :
    ¬ g.Edge y b := by
  intro hyb
  by_cases hy : y = b
  · -- the block itself jumps where it jumped
    subst hy
    obtain ⟨address, hfwd⟩ := hb.forwards
    obtain ⟨data, hdata, hs, _⟩ := hyb
    rw [hb.block, hfwd, Option.map_some] at hdata
    cases hdata
    have heq : y = target := by
      simpa [Terminator.replaceSuccessor, hb.ne_target, Terminator.successors] using hs
    exact hb.ne_target heq.symm
  · exact (((hb.contracts_of_live hlive).edge y b hy).1 hyb).1 rfl

theorem load (hb : f.Bypassed g b target) (x : BlockId) : g.load x = f.load x := by
  refine load_congr ?_
  rw [hb.block x, Option.map_map]
  congr 1
  funext data
  simp only [Function.comp_def]
  cases data.term <;> rfl

/-- A block that has been led past is still there, and control cannot reach it. -/
theorem unreachable (hb : f.Bypassed g b target) (hlive : f.containsBlock target = true) :
    g.containsBlock b = true ∧ ¬ g.Reachable b := by
  obtain ⟨address, hfwd⟩ := hb.forwards
  refine ⟨(hb.containsBlock b).trans (containsBlock_iff.2 ⟨_, hfwd⟩), ?_⟩
  rintro ⟨p, hpath⟩
  cases hpath with
  | entry he _ => exact hb.ne_entry (hb.entry.symm.trans he)
  | step _ hstep => exact hb.no_edge hlive hstep

end Bypassed

theorem bypassForwarders_spec (hwf : f.WellFormed) :
    ∃ g c, f.bypassForwarders = .ok (g, c) ∧ Progress n f g false ∧
      (c = true → ∃ x, g.containsBlock x = true ∧ ¬ g.Reachable x) := by
  refine sweepOver_spec (I := fun g c => Progress n f g false ∧
    (c = true → ∃ x, g.containsBlock x = true ∧ ¬ g.Reachable x)) ?_
    ⟨.refl hwf, fun hc => nomatch hc⟩
  rintro b _ g c ⟨hp, hleft⟩
  obtain ⟨g', c', hg', ⟨rfl, rfl⟩ | ⟨rfl, target, hb⟩⟩ :=
    bypassForwarder_spec hp.keeps.wellFormed.routed b
  · refine ⟨g', false, hg', ?_⟩
    rw [Bool.or_false]
    exact ⟨hp, hleft⟩
  · have hstep : Progress n g g' false :=
      ⟨hb.keeps hp.keeps.wellFormed, fun x hx => by rwa [hb.containsBlock] at hx,
        weight_le fun x => Nat.le_of_eq (hb.load x), fun hc => nomatch hc⟩
    exact ⟨g', true, hg', hp.trans hstep,
      fun _ => ⟨b, hb.unreachable (hb.live_target hp.keeps.wellFormed.routed)⟩⟩

/-! ### Rounds -/

open Classical in
/-- Twice what is left to do, and one more while every block can be reached. -/
noncomputable def effort (n : Nat) (f : Func) : Nat :=
  2 * f.weight n + if ∀ x, f.containsBlock x = true → f.Reachable x then 1 else 0

theorem effort_lt_of_weight (hlt : g.weight n < f.weight n) : g.effort n < f.effort n := by
  unfold effort
  split <;> split <;> omega

theorem effort_lt_of_unreachable (hle : g.weight n ≤ f.weight n)
    (hall : ∀ x, f.containsBlock x = true → f.Reachable x)
    (hleft : ∃ x, g.containsBlock x = true ∧ ¬ g.Reachable x) : g.effort n < f.effort n := by
  obtain ⟨x, hx, hnot⟩ := hleft
  unfold effort
  rw [if_pos hall, if_neg fun hreach => hnot (hreach x hx)]
  omega

/-- The rounds that are allowed are enough. -/
theorem effort_lt (f : Func) : f.effort f.blocks.size < 4 * f.blocks.size + 4 := by
  have hle := weight_le_size f.blocks.size f
  unfold effort
  split <;> omega

theorem within_size (f : Func) : f.Within f.blocks.size := fun _ hx => index_lt_of_containsBlock hx

theorem simplifyGraphOnce_spec (hwf : f.WellFormed) (hl : ∀ act : Activation, act.Leaves f)
    (hn : f.Within n) :
    ∃ g c, f.simplifyGraphOnce = .ok (g, c) ∧ f.Keeps g ∧ g.Within n ∧
      (c = true → g.effort n < f.effort n) := by
  obtain ⟨f₁, c₁, h₁, hp₁, hsame⟩ := foldBranches_spec hwf hl hn
  have hn₁ : f₁.Within n := fun x hx => hn x (hp₁.live x hx)
  obtain ⟨f₂, c₂, h₂, hp₂, hreach⟩ := removeUnreachable_progress hp₁.keeps.wellFormed hn₁
  have hn₂ : f₂.Within n := fun x hx => hn₁ x (hp₂.live x hx)
  obtain ⟨f₃, c₃, h₃, hp₃⟩ := mergeChains_spec hp₂.keeps.wellFormed hn₂
  obtain ⟨f₄, c₄, h₄, hp₄, hleft⟩ := bypassForwarders_spec (n := n) hp₃.keeps.wellFormed
  have hp := ((hp₁.trans hp₂).trans hp₃).trans hp₄
  refine ⟨f₄, c₁ || c₂ || c₃ || c₄, ?_, hp.keeps, fun x hx => hn x (hp.live x hx), fun hc => ?_⟩
  · unfold simplifyGraphOnce
    simp only [bind, Except.bind, h₁, h₂, h₃, h₄]
    rfl
  · by_cases hchanged : (c₁ || c₂ || c₃ || false) = true
    · exact effort_lt_of_weight (hp.lighter hchanged)
    · -- only edges have been led past blocks: one of these cannot be reached any more
      obtain ⟨⟨rfl, rfl⟩, rfl⟩ : (c₁ = false ∧ c₂ = false) ∧ c₃ = false := by
        simpa using hchanged
      have hc₄ : c₄ = true := by simpa using hc
      have hff := hsame rfl
      subst hff
      exact effort_lt_of_unreachable hp.weight (hreach rfl) (hleft hc₄)

/-- Simplification comes to rest, and the function does what it did. -/
theorem simplifyGraph_keeps (hwf : f.WellFormed) (hl : ∀ act : Activation, act.Leaves f) :
    ∃ g changed, f.simplifyGraph = .ok (g, changed) ∧ f.Keeps g := by
  have hrest : ∃ g c, f.simplifyGraph = .ok (g, c) ∧ f.Keeps g ∧ g.Within f.blocks.size := by
    refine untilStable_spec (I := fun g => f.Keeps g ∧ g.Within f.blocks.size)
      (μ := effort f.blocks.size) ?_ _ ⟨.refl hwf, f.within_size⟩ f.effort_lt
    rintro g ⟨hkeeps, hng⟩
    obtain ⟨g', c, hg', hkeeps', hng', hless⟩ := simplifyGraphOnce_spec hkeeps.wellFormed
      (fun act => hkeeps.leaves act (hl act)) hng
    exact ⟨g', c, hg', ⟨hkeeps.trans hkeeps', hng'⟩, hless⟩
  obtain ⟨g, c, hg, hkeeps, _⟩ := hrest
  exact ⟨g, c, hg, hkeeps⟩

/-! ### Functions without jumps to recorded addresses -/

/-- No indirect jump can be one to a block of the function. -/
def Unlinked (f : Func) : Prop :=
  (∀ b data, f.block? b = some data → ∀ v, data.term ≠ .indirect v) ∨
  ∀ b data, f.block? b = some data → data.address = none

theorem unlinked_of_addresses (h : ∀ e ∈ f.liveBlocks, e.2.address = none) : f.Unlinked :=
  .inr fun b data hdata => h (b, data) (mem_liveBlocks.2 hdata)

theorem Unlinked.leaves (h : f.Unlinked) (act : Activation) : act.Leaves f := by
  intro _ b data v hdata hterm w
  rcases h with hterms | haddresses
  · exact absurd hterm (hterms b data hdata v)
  · rw [addressBlock_eq_none]
    intro c cdata hcdata haddress
    rw [haddresses c cdata hcdata] at haddress
    cases haddress

/-- Every use stays behind its definition where no jump can become an edge. -/
theorem simplifyGraph_wellFormed (hwf : f.WellFormed) (hunlinked : f.Unlinked) :
    ∃ g changed, f.simplifyGraph = .ok (g, changed) ∧ g.WellFormed := by
  obtain ⟨g, changed, hg, hkeeps⟩ := simplifyGraph_keeps hwf hunlinked.leaves
  exact ⟨g, changed, hg, hkeeps.wellFormed⟩

/-- Every execution that ends without an undefined operation ends in the same way after
simplification, with the same calls and the same memory. -/
theorem simplifyGraph_preserves (hwf : f.WellFormed) (hty : f.WellTyped)
    (hunlinked : f.Unlinked) :
    ∃ g changed, f.simplifyGraph = .ok (g, changed) ∧
      ∀ (act : Activation) (memory : Memory), (∀ s, act.own s = true → f.confines s = true) →
        ∀ n e m, f.run act memory n = some (e, m) →
          ∃ k m', g.run act memory k = some (e, m') ∧ m'.calls = m.calls ∧
            m'.memory = m.memory ∧ m'.slots = m.slots := by
  obtain ⟨g, changed, hg, hkeeps⟩ := simplifyGraph_keeps hwf hunlinked.leaves
  refine ⟨g, changed, hg, fun act memory hown n e m hrun => ?_⟩
  exact hkeeps.refines act (hunlinked.leaves act) (orderly_of_wellTyped hwf hty hown)
    memory n e m hrun

/-- Two ways to a phi, of which a constant condition leaves one. -/
def constBranch : Func where
  name := "sample"
  ret := some .i64
  arena := #[⟨⟨.phi [(⟨1⟩, .int 5 .i64), (⟨2⟩, .int 7 .i64)], some .i64⟩, some ⟨3⟩⟩]
  blocks := #[
    some { term := .branch (.int 1 .i1) ⟨1⟩ ⟨2⟩ },
    some { term := .jump ⟨3⟩ },
    some { term := .jump ⟨3⟩ },
    some { insts := [⟨0⟩], term := .ret (some (.inst ⟨0⟩)) }]
  entry := some ⟨0⟩

theorem constBranch_wellFormed : constBranch.WellFormed := by
  have haccepts : Survey.accepts
      [(⟨0⟩, []), (⟨1⟩, [⟨0⟩]), (⟨2⟩, [⟨0⟩]), (⟨3⟩, [⟨0⟩])] constBranch = true := by decide
  exact Survey.wellFormed_of_accepts haccepts

theorem constBranch_unlinked : constBranch.Unlinked := unlinked_of_addresses (by decide)

/-- One block is left of the sample function. -/
theorem constBranch_simplified :
    ∃ g, constBranch.simplifyGraph = .ok (g, true) ∧ g.blockCount = 1 ∧ g.WellFormed := by
  obtain ⟨g, changed, hg, hwf⟩ :=
    simplifyGraph_wellFormed constBranch_wellFormed constBranch_unlinked
  have hresult : (constBranch.simplifyGraph.toOption.map fun r => (r.1.blockCount, r.2)) =
      some (1, true) := by cbv
  rw [hg] at hresult
  obtain ⟨hcount, hchanged⟩ : g.blockCount = 1 ∧ changed = true := by
    simpa [Except.toOption] using hresult
  rw [hchanged] at hg
  exact ⟨g, hg, hcount, hwf⟩

/-- An activation without arguments and with answers of zero. -/
def idle : Activation where
  args := fun _ => 0
  answer := fun _ _ memory => (0, memory)
  base := fun _ => 0
  own := fun _ => false
  linked := true

/-- The phi reads five, before and after. -/
theorem constBranch_returns :
    ∃ g changed, constBranch.simplifyGraph = .ok (g, changed) ∧
      ∃ k m, g.run idle (fun _ => 0) k = some (.ret (some 5), m) ∧ m.calls = [] := by
  obtain ⟨g, changed, hg, hruns⟩ := simplifyGraph_preserves constBranch_wellFormed (by decide)
    constBranch_unlinked
  have hexit : (constBranch.run idle (fun _ => 0) 3).map (fun r => (r.1, r.2.calls.length)) =
      some (.ret (some 5), 0) := by cbv
  obtain ⟨⟨e, m⟩, hrun, heq⟩ := Option.map_eq_some_iff.1 hexit
  rw [Prod.mk.injEq] at heq
  obtain ⟨rfl, hlen⟩ := heq
  obtain ⟨k, m', hrun', hcalls, _⟩ :=
    hruns idle _ (fun _ hown => absurd hown Bool.false_ne_true) 3 _ m hrun
  exact ⟨g, changed, hg, k, m', hrun', hcalls.trans (List.length_eq_zero_iff.1 hlen)⟩

/-! ### A jump that becomes an edge -/

/-- The last block reads what a block before it has computed, and its address is the target of an
indirect jump elsewhere. -/
def jumpPast : Func where
  name := "sample"
  params := [⟨"flag", .i1⟩, ⟨"x", .i64⟩]
  ret := some .i64
  arena := #[⟨⟨.binary .add (.arg 1) (.int 1 .i64), some .i64⟩, some ⟨2⟩⟩]
  blocks := #[
    some { term := .branch (.arg 0) ⟨1⟩ ⟨2⟩ },
    some { term := .indirect (.int 0x1000 .i64) },
    some { insts := [⟨0⟩], term := .jump ⟨3⟩ },
    some { address := some 0x1000, term := .ret (some (.inst ⟨0⟩)) }]
  entry := some ⟨0⟩

theorem jumpPast_wellFormed : jumpPast.WellFormed := by
  have haccepts : Survey.accepts
      [(⟨0⟩, []), (⟨1⟩, [⟨0⟩]), (⟨2⟩, [⟨0⟩]), (⟨3⟩, [⟨0⟩, ⟨2⟩])] jumpPast = true := by decide
  exact Survey.wellFormed_of_accepts haccepts

/-- The sample function after simplification: the jump has become an edge from the first block. -/
def jumpedPast : Func :=
  { jumpPast with
    blocks := #[
      some { term := .branch (.arg 0) ⟨3⟩ ⟨2⟩ },
      none,
      some { insts := [⟨0⟩], term := .jump ⟨3⟩ },
      some { address := some 0x1000, term := .ret (some (.inst ⟨0⟩)) }] }

/-- Control comes to the last block past the only definition of what is returned there. -/
theorem simplifyGraph_loses_dominance :
    jumpPast.WellFormed ∧ ∃ g, jumpPast.simplifyGraph = .ok (g, true) ∧
      ∃ b data j, g.Reachable b ∧ g.block? b = some data ∧ .inst j ∈ data.term.operands ∧
        ¬ g.Available b data.insts j := by
  have hpath : jumpedPast.Path [⟨3⟩, ⟨0⟩] ⟨3⟩ :=
    .step (.entry rfl rfl) ⟨_, rfl, List.mem_cons_self, rfl⟩
  have honly : ∀ e ∈ jumpedPast.liveBlocks, (⟨0⟩ : InstId) ∈ e.2.insts → e.1 = ⟨2⟩ := by decide
  refine ⟨jumpPast_wellFormed, jumpedPast, by cbv, ⟨3⟩, _, ⟨0⟩, ⟨_, hpath⟩, rfl,
    List.mem_singleton_self _, ?_⟩
  rintro (hmem | ⟨c, data, ⟨_, hdom⟩, hdata, hmem⟩)
  · cases hmem
  · have hc : c = ⟨2⟩ := honly (c, data) (mem_liveBlocks.2 hdata) hmem
    have hin := hdom _ hpath
    rw [hc] at hin
    simp at hin

end BinaryLift.Func
