import BinaryLift.Proofs.Transform.ControlFlow

/-!
# Simplified control flow comes to rest

The loop of `simplifycfg`, whatever phis receive and operands name: blocks that only jump on may jump to
each other, a block may jump to itself, and indirect jumps may name recorded addresses. Leading edges past
a block removes nothing, but the block cannot be reached any more, and the next round removes it.
-/

namespace BinaryLift.Func

variable {f g h : Func} {b pred : BlockId} {n : Nat} {c : Bool}

/-! ### The weight after a step -/

theorem Straightened.weight_lt (hs : f.Straightened g b) (hb : b.index < n) :
    g.weight n < f.weight n := by
  obtain ⟨data, target, hdata, hterm, _, hblock⟩ := hs.block
  exact weight_lt_of_jump hdata hterm hblock hb

theorem Attached.weight_lt (ha : f.Attached g pred b) (hpred : pred.index < n) (hb : b.index < n) :
    g.weight n < f.weight n := by
  obtain ⟨hj, mid, hgraph, hc, habsorbs⟩ := ha
  obtain ⟨pdata, bdata, hpdata, hbdata, hblock⟩ := habsorbs.block
  obtain ⟨fdata, hfdata, hjump⟩ := hj.jumps
  refine weight_lt_of_moved hj.ne ?_ ?_ ?_ ?_ hpred hb
  · rw [load_eq hfdata, hjump]
    rfl
  · rw [load, hblock b, if_pos rfl]
    rfl
  · rw [load, hblock pred, if_neg hj.ne, if_pos rfl, ← hgraph.load b, load_eq hbdata]
    rfl
  · intro x hp hb
    rw [← hgraph.load x, load, load, hblock x, if_neg hb, if_neg hp]

theorem Bypassed.weight_eq {target : BlockId} (hb : f.Bypassed g b target) :
    g.weight n = f.weight n :=
  Nat.le_antisymm (weight_le fun x => Nat.le_of_eq (hb.load x))
    (weight_le fun x => Nat.le_of_eq (hb.load x).symm)

/-! ### What stays live -/

theorem Attached.live (ha : f.Attached g pred b) {x : BlockId} (hx : g.containsBlock x = true) :
    f.containsBlock x = true := by
  obtain ⟨_, mid, hgraph, _, habsorbs⟩ := ha
  obtain ⟨pdata, bdata, hpdata, hbdata, hblock⟩ := habsorbs.block
  rw [← hgraph.containsBlock]
  rw [containsBlock, hblock x] at hx
  split at hx
  · cases hx
  · split at hx
    · rename_i hxp
      rw [hxp]
      exact containsBlock_iff.2 ⟨pdata, hpdata⟩
    · exact hx

theorem Bypassed.routed {target : BlockId} (hb : f.Bypassed g b target) (hf : f.Routed) :
    g.Routed where
  consistent := hb.consistent hf.consistent
  entry := fun _ => hb.entry_live hf.entry
  targets := fun _ _ hdata' _ => hb.targets hf.targets hdata'

/-! ### Sweeps -/

theorem foldBranches_advances (hf : f.Routed) (hn : f.Within n) :
    ∃ g c, f.foldBranches = .ok (g, c) ∧ (g.Routed ∧ g.Within n) ∧ Advances (weight n) f g c := by
  have hsweep : ∃ g c, f.foldBranches = .ok (g, c) ∧
      (g.Routed ∧ ∀ x, g.containsBlock x = f.containsBlock x) ∧ Advances (weight n) f g c := by
    apply sweepOver_advances (I := fun g => g.Routed ∧ ∀ x, g.containsBlock x = f.containsBlock x)
    · rintro b hb g ⟨hrouted, hlive⟩
      have hbf := mem_blockIds.1 hb
      obtain ⟨g', c, hg', ⟨rfl, rfl⟩ | ⟨rfl, hs⟩⟩ := foldBranch_cases hrouted ((hlive b).trans hbf)
      · exact ⟨g', false, hg', ⟨hrouted, hlive⟩, .refl _ g'⟩
      · exact ⟨g', true, hg', ⟨hs.routed hrouted, fun x => (hs.layout.live x).trans (hlive x)⟩,
          .of_lt (hs.weight_lt (hn b hbf))⟩
    · exact ⟨hf, fun _ => rfl⟩
  obtain ⟨g, c, hg, ⟨hrouted, hlive⟩, hadvances⟩ := hsweep
  exact ⟨g, c, hg, ⟨hrouted, fun x hx => hn x ((hlive x).symm.trans hx)⟩, hadvances⟩

theorem removeUnreachable_advances (hf : f.Routed) (hn : f.Within n) :
    ∃ g c, f.removeUnreachable = .ok (g, c) ∧ (g.Routed ∧ g.Within n) ∧
      Advances (weight n) f g c ∧ (c = false → ∀ x, f.containsBlock x = true → f.Reachable x) := by
  obtain ⟨g, dead, hg, hp⟩ := removeUnreachable_cases hf
  refine ⟨g, !dead.isEmpty, hg, ⟨hp.routed hf, fun x hx => hn x (hp.live hx)⟩, ?_,
    fun hc x hx => hp.reachable hc hx⟩
  cases hdead : dead with
  | nil => exact ⟨nofun, fun _ => hp.same hdead⟩
  | cons d ds => exact .of_lt (hp.weight_lt hn (hdead ▸ List.cons_ne_nil d ds))

theorem mergeChains_advances (hf : f.Routed) (hn : f.Within n) :
    ∃ g c, f.mergeChains = .ok (g, c) ∧ (g.Routed ∧ g.Within n) ∧ Advances (weight n) f g c := by
  apply sweepOver_advances (I := fun g => g.Routed ∧ g.Within n)
  · rintro b _ g ⟨hrouted, hwithin⟩
    obtain ⟨g', c, hg', ⟨rfl, rfl⟩ | ⟨rfl, pred, ha⟩⟩ := mergeChain_cases hrouted.consistent b
    · exact ⟨g', false, hg', ⟨hrouted, hwithin⟩, .refl _ g'⟩
    · obtain ⟨pdata, hpdata, _⟩ := ha.joins.jumps
      have hpred : g.containsBlock pred = true := containsBlock_iff.2 ⟨pdata, hpdata⟩
      have hlt := ha.weight_lt (hwithin pred hpred) (hwithin b ha.joins.live)
      exact ⟨g', true, hg', ⟨ha.routed hrouted, fun x hx => hwithin x (ha.live hx)⟩, .of_lt hlt⟩
  · exact ⟨hf, hn⟩

/-- Nothing is removed where edges are led past blocks, but a block is left that control cannot
reach. -/
structure Leads (n : Nat) (f g : Func) (changed : Bool) : Prop where
  routed : g.Routed
  live : ∀ x, g.containsBlock x = f.containsBlock x
  weight : g.weight n = f.weight n
  same : changed = false → g = f
  left : changed = true → ∃ x, g.containsBlock x = true ∧ ¬ g.Reachable x

theorem bypassForwarders_leads (hf : f.Routed) (n : Nat) :
    ∃ g c, f.bypassForwarders = .ok (g, c) ∧ Leads n f g c := by
  apply sweepOver_spec (I := Leads n f)
  · intro b _ g c hl
    obtain ⟨g', c', hg', ⟨rfl, rfl⟩ | ⟨rfl, target, hb⟩⟩ := bypassForwarder_spec hl.routed b
    · exact ⟨g', false, hg', by rwa [Bool.or_false]⟩
    · refine ⟨g', true, hg', hb.routed hl.routed, fun x => (hb.containsBlock x).trans (hl.live x),
        hb.weight_eq.trans hl.weight, ?_, fun _ => ⟨b, hb.unreachable (hb.live_target hl.routed)⟩⟩
      rw [Bool.or_true]
      nofun
  · exact ⟨hf, fun _ => rfl, rfl, fun _ => rfl, nofun⟩

/-! ### Rounds -/

/-- A round that changes something leaves less to do, or only unreachable blocks to remove. -/
theorem simplifyGraphOnce_advances (hf : f.Routed) (hn : f.Within n) :
    ∃ g c, f.simplifyGraphOnce = .ok (g, c) ∧ (g.Routed ∧ g.Within n) ∧
      Advances (effort n) f g c := by
  obtain ⟨f₁, c₁, h₁, ⟨hr₁, hn₁⟩, ha₁⟩ := foldBranches_advances hf hn
  obtain ⟨f₂, c₂, h₂, ⟨hr₂, hn₂⟩, ha₂, hreach⟩ := removeUnreachable_advances hr₁ hn₁
  obtain ⟨f₃, c₃, h₃, ⟨hr₃, hn₃⟩, ha₃⟩ := mergeChains_advances hr₂ hn₂
  obtain ⟨f₄, c₄, h₄, hl⟩ := bypassForwarders_leads hr₃ n
  have hall := (ha₁.trans ha₂).trans ha₃
  refine ⟨f₄, c₁ || c₂ || c₃ || c₄, ?_, ⟨hl.routed, fun x hx => hn₃ x (hl.live x ▸ hx)⟩, ?_⟩
  · unfold simplifyGraphOnce
    simp only [bind, Except.bind, h₁, h₂, h₃, h₄]
    rfl
  · cases hchanged : c₁ || c₂ || c₃ with
    | true =>
      rw [Bool.true_or]
      exact .of_lt (effort_lt_of_weight (hl.weight ▸ hall.less hchanged))
    | false =>
      -- the first three steps have left the function alone, so every block could be reached
      have hsame : f₃ = f := hall.same hchanged
      obtain ⟨⟨rfl, rfl⟩, -⟩ : (c₁ = false ∧ c₂ = false) ∧ c₃ = false := by simpa using hchanged
      have hfirst := ha₁.same rfl
      subst hsame
      rw [Bool.false_or]
      cases c₄ with
      | true => exact .of_lt (effort_lt_of_unreachable (Nat.le_of_eq hl.weight)
          (hfirst ▸ hreach rfl) (hl.left rfl))
      | false => exact ⟨nofun, hl.same⟩

theorem simplifyGraph_rests (hf : f.Routed) :
    ∃ g changed, f.simplifyGraph = .ok (g, changed) ∧ g.Routed ∧
      g.simplifyGraphOnce = .ok (g, false) := by
  obtain ⟨g, changed, hg, ⟨hrouted, _⟩, hrest⟩ := untilStable_advances
    (I := fun g => g.Routed ∧ g.Within f.blocks.size) (μ := effort f.blocks.size)
    (fun g ⟨hrouted, hwithin⟩ => simplifyGraphOnce_advances hrouted hwithin) ⟨hf, f.within_size⟩
    f.effort_lt
  exact ⟨g, changed, hg, hrouted, hrest⟩

/-- Where a round finds nothing to do, control can come to every block. -/
theorem reachable_of_rest (hf : f.Routed) (h : f.simplifyGraphOnce = .ok (f, false)) {x : BlockId}
    (hx : f.containsBlock x = true) : f.Reachable x := by
  obtain ⟨f₁, c₁, h₁, ⟨hr₁, hn₁⟩, ha₁⟩ := foldBranches_advances hf f.within_size
  obtain ⟨f₂, c₂, h₂, ⟨hr₂, hn₂⟩, _, hreach⟩ := removeUnreachable_advances hr₁ hn₁
  obtain ⟨f₃, c₃, h₃, ⟨hr₃, hn₃⟩, _⟩ := mergeChains_advances hr₂ hn₂
  obtain ⟨f₄, c₄, h₄, _⟩ := bypassForwarders_leads hr₃ f.blocks.size
  unfold simplifyGraphOnce at h
  simp only [bind, Except.bind, h₁, h₂, h₃, h₄] at h
  obtain ⟨_, hchanged⟩ := Prod.mk.inj (Except.ok.inj h)
  obtain ⟨⟨⟨rfl, rfl⟩, _⟩, _⟩ : ((c₁ = false ∧ c₂ = false) ∧ c₃ = false) ∧ c₄ = false := by
    simpa using hchanged
  have hsame := ha₁.same rfl
  subst hsame
  exact hreach rfl x hx

/-- After finitely many rounds comes one that finds nothing to do. -/
theorem simplifyGraph_comes_to_rest (hf : f.Routed) :
    ∃ g changed, f.simplifyGraph = .ok (g, changed) ∧ g.simplifyGraphOnce = .ok (g, false) := by
  obtain ⟨g, changed, hg, _, hrest⟩ := simplifyGraph_rests hf
  exact ⟨g, changed, hg, hrest⟩

/-- Two empty blocks that jump to each other and are entered at both, an indirect jump to the address
of a block that jumps to itself, and a block that control cannot reach. -/
def entwined : Func where
  name := "sample"
  params := [⟨"flag", .i1⟩]
  blocks := #[
    some { term := .branch (.arg 0) ⟨1⟩ ⟨3⟩ },
    some { term := .jump ⟨2⟩ },
    some { term := .jump ⟨1⟩ },
    some { term := .branch (.arg 0) ⟨2⟩ ⟨4⟩ },
    some { term := .indirect (.int 0x1000 .i64) },
    some { address := some 0x1000, term := .jump ⟨5⟩ },
    some { term := .jump ⟨1⟩ }]
  entry := some ⟨0⟩

theorem entwined_wellFormed : entwined.WellFormed := by
  have haccepts : Survey.accepts
      [(⟨0⟩, []), (⟨1⟩, [⟨0⟩]), (⟨2⟩, [⟨0⟩]), (⟨3⟩, [⟨0⟩]), (⟨4⟩, [⟨0⟩, ⟨3⟩])] entwined = true := by
    decide
  exact Survey.wellFormed_of_accepts haccepts

/-- Of the two blocks one is left, and it jumps to itself. -/
theorem entwined_comes_to_rest :
    ∃ g, entwined.simplifyGraph = .ok (g, true) ∧ g.simplifyGraphOnce = .ok (g, false) ∧
      (g.liveBlocks.map fun e => e.2.term) =
        [.branch (.arg 0) ⟨2⟩ ⟨3⟩, .jump ⟨2⟩, .branch (.arg 0) ⟨2⟩ ⟨5⟩, .jump ⟨5⟩] := by
  obtain ⟨g, changed, hg, hrest⟩ := simplifyGraph_comes_to_rest entwined_wellFormed.routed
  have hresult : (entwined.simplifyGraph.toOption.map fun r =>
      (r.1.liveBlocks.map fun e => e.2.term, r.2)) = some
        ([.branch (.arg 0) ⟨2⟩ ⟨3⟩, .jump ⟨2⟩, .branch (.arg 0) ⟨2⟩ ⟨5⟩, .jump ⟨5⟩], true) := by cbv
  rw [hg] at hresult
  obtain ⟨hterms, rfl⟩ : (g.liveBlocks.map fun e => e.2.term) = _ ∧ changed = true := by
    simpa [Except.toOption] using hresult
  exact ⟨g, hg, hrest, hterms⟩

end BinaryLift.Func
