import BinaryLift.Proofs.Pipeline.Grouping
import BinaryLift.Proofs.Pipeline.Pruning
import BinaryLift.Proofs.Transform.AbsoluteAddresses
import BinaryLift.Proofs.Transform.DeadCode
import BinaryLift.Proofs.Transform.LocalSlots
import BinaryLift.Proofs.Transform.Narrowing
import BinaryLift.Proofs.Transform.Numbering
import BinaryLift.Proofs.Transform.PromotedSlots
import BinaryLift.Proofs.Transform.WholeFunctions

/-!
# What the steps of a schedule keep

A function is fit for the steps that follow if its slots are private and, once its control flow has
been simplified, control comes to all of it. Each step leaves a function fit, and the function does
what it did in every execution that the step permits: the one that turns stack memory into slots has
to know that nothing else leads there, and the one that makes addresses absolute that the memory
parameter is zero. A schedule does what its steps do one after another.
-/

namespace BinaryLift

variable {img : Image} {m m' : Module} {f g h : Func} {whole whole' whole'' changed : Bool}
variable {P Q : Activation → Memory → (Word → Prop) → Prop}

/-! ### Fit functions -/

namespace Func

/-- What the steps ask of a function. -/
structure Fit (whole : Bool) (f : Func) : Prop where
  settled : f.Settled
  whole : whole = true → f.isDeclaration = false → f.Whole

/-- The function `g` has the head of `f` and is fit if `f` is. Then it matches `f` in each execution
that `P` permits. -/
structure TurnsInto (whole whole' : Bool) (P : Activation → Memory → (Word → Prop) → Prop)
    (f g : Func) : Prop where
  head : g.head = f.head
  fit : f.Fit whole → g.Fit whole'
  matched : f.Fit whole → ∀ act memory region, P act memory region → f.MatchedBy act memory region g

theorem Fit.of_true (hf : f.Fit true) (whole : Bool) : f.Fit whole :=
  ⟨hf.settled, fun _ => hf.whole rfl⟩

theorem Fit.of_declaration (hf : f.Fit whole) (hdecl : f.isDeclaration = true) : f.Fit whole' where
  settled := hf.settled
  whole := by
    intro _ hdef
    rw [hdecl] at hdef
    cases hdef

theorem turnsInto_self (hfit : f.Fit whole → f.Fit whole') : f.TurnsInto whole whole' P f :=
  ⟨rfl, hfit, fun _ act memory region _ => .refl act memory region f⟩

/-- Where blocks and edges stay, control still comes to all of the function. -/
theorem turnsInto_of_sameGraph (hhead : g.head = f.head)
    (hg : f.Fit whole → g.Settled ∧ f.SameGraph g ∧
      ∀ act memory region, P act memory region → f.MatchedBy act memory region g) :
    f.TurnsInto whole whole P g where
  head := hhead
  fit := fun hf => ⟨(hg hf).1, fun hwhole hdef =>
    (hf.whole hwhole ((isDeclaration_of_head hhead).symm.trans hdef)).of_sameGraph (hg hf).2.1⟩
  matched := fun hf => (hg hf).2.2

theorem turnsInto_of_keeps (hhead : g.head = f.head) (hgraph : f.SameGraph g)
    (hkeeps : f.Settled → f.Keeps g) : f.TurnsInto whole whole P g := by
  refine turnsInto_of_sameGraph hhead fun hf => ?_
  have hg := hkeeps hf.settled
  exact ⟨hg.settled hf.settled, hgraph, fun act memory region _ =>
    hg.matched hf.settled act memory region⟩

theorem TurnsInto.trans {R : Activation → Memory → (Word → Prop) → Prop}
    (hfg : f.TurnsInto whole whole' P g) (hgh : g.TurnsInto whole' whole'' Q h)
    (hR : ∀ act memory region, R act memory region → P act memory region ∧ Q act memory region) :
    f.TurnsInto whole whole'' R h where
  head := hgh.head.trans hfg.head
  fit := fun hf => hgh.fit (hfg.fit hf)
  matched := fun hf act memory region hpermits =>
    (hfg.matched hf act memory region (hR _ _ _ hpermits).1).trans
      (hgh.matched (hfg.fit hf) act memory region (hR _ _ _ hpermits).2)

theorem TurnsInto.weaken (hfg : f.TurnsInto whole true P g) : f.TurnsInto whole whole' P g :=
  ⟨hfg.head, fun hf => (hfg.fit hf).of_true whole', hfg.matched⟩

/-! ### Passes on functions -/

theorem Settled.combine_keeps (hf : f.Settled) (hg : f.combine = .ok (g, changed)) : f.Keeps g := by
  obtain ⟨d, hd⟩ := DomTree.compute_returns hf.wellFormed.entry
  unfold combine at hg
  rw [hd] at hg
  refine untilStable_combineOnce_keeps ⟨⟨hf.wellFormed, dominates_of_compute hf.wellFormed hd⟩,
    fun b id v t hb hid hi => ?_, hf.regular.entry⟩ hg
  have hwords := hf.regular.words b id _ hb hid hi
  rw [Option.some.inj hwords]
  rfl

theorem Fit.narrowLoads_matched (hf : f.Fit true) (hdef : f.isDeclaration = false) :
    ∃ g changed, f.narrowLoads = .ok (g, changed) ∧ g.Settled ∧ f.SameGraph g ∧
      ∀ act memory region, f.MatchedBy act memory region g := by
  have hwhole := hf.whole rfl hdef
  exact Func.narrowLoads_matched hf.settled (hf.settled.wellTyped hwhole)
    (hf.settled.namesMade hwhole)

theorem Fit.promoteStack_matched (hf : f.Fit true) (n : Nat) :
    ∃ g changed, f.promoteStack (.arg n) = .ok (g, changed) ∧ g.Settled ∧ f.SameGraph g ∧
      ∀ act memory region, f.Reserves (act.withSlots f) memory (.arg n) region →
        f.MatchedBy act memory region g := by
  cases hdecl : f.isDeclaration with
  | true =>
    exact ⟨f, false, promoteStack_of_entry_none (Option.isNone_iff_eq_none.1 hdecl), hf.settled,
      .refl f, fun act memory region _ => .refl act memory region f⟩
  | false =>
    have hwhole := hf.whole rfl hdecl
    exact Func.promoteStack_matched hf.settled (hf.settled.wellTyped hwhole)
      (hf.settled.wideOffsets hwhole _)

end Func

open Func

/-- What is known of the one result of a computation. -/
theorem holds_of_ok {C : Func → Prop} {t : Transformed}
    (hC : ∃ g changed, t = .ok (g, changed) ∧ C g) (hg : t = .ok (g, changed)) : C g := by
  obtain ⟨g', c, ht, hg'⟩ := hC
  rw [ht] at hg
  cases hg
  exact hg'

/-- Whether control comes to all of a function after a step. -/
def PassStep.leavesWhole (whole : Bool) : PassStep → Bool
  | .function .simplifyGraph => true
  | _ => whole

theorem FunctionPass.run_turns {pass : FunctionPass} (hrun : pass.run f = .ok (g, changed)) :
    f.TurnsInto whole ((PassStep.function pass).leavesWhole whole) P g := by
  have hhead := run_head hrun
  cases pass with
  | promoteSlots =>
    refine turnsInto_of_sameGraph hhead fun hf => ?_
    obtain ⟨hsettled, hgraph, hmatched⟩ := holds_of_ok (promoteSlots_matched hf.settled) hrun
    exact ⟨hsettled, hgraph, fun act memory region _ => hmatched act memory region⟩
  | combine =>
    exact turnsInto_of_keeps hhead (keepsEdges_combine f _ hrun) fun hf => hf.combine_keeps hrun
  | simplifyGraph =>
    have hkeeps : f.Settled → f.Keeps g := fun hf =>
      holds_of_ok (simplifyGraph_keeps hf.wellFormed hf.leaves) hrun
    exact ⟨hhead, fun hf => ⟨(hkeeps hf.settled).settled hf.settled, fun _ _ =>
      simplifyGraph_whole hf.settled.wellFormed.routed hrun⟩, fun hf act memory region _ =>
      (hkeeps hf.settled).matched hf.settled act memory region⟩
  | numberEarly memoryAware =>
    exact turnsInto_of_keeps hhead (keepsEdges_number f _ _ hrun) fun hf =>
      holds_of_ok (number_keeps hf.wellFormed _) hrun
  | dropUnused =>
    exact turnsInto_of_keeps hhead (keepsEdges_dropUnused f _ hrun) fun hf =>
      holds_of_ok (dropUnused_keeps hf.wellFormed) hrun
  | numberGlobal =>
    exact turnsInto_of_keeps hhead (keepsEdges_number f _ _ hrun) fun hf =>
      holds_of_ok (number_keeps hf.wellFormed _) hrun
  | dropUnneeded =>
    exact turnsInto_of_keeps hhead (keepsEdges_dropUnneeded f _ hrun) fun hf =>
      dropUnneeded_keeps hf.wellFormed hrun

theorem FunctionPass.returns_of_fit (pass : FunctionPass) (hf : f.Fit true)
    (hdef : f.isDeclaration = false) : ∃ r, pass.run f = .ok r := by
  have hwf := hf.settled.wellFormed
  have hreturns : ∀ {C : Func → Prop} {t : Transformed},
      (∃ g changed, t = .ok (g, changed) ∧ C g) → ∃ r, t = .ok r :=
    fun ⟨g, c, ht, _⟩ => ⟨(g, c), ht⟩
  cases pass with
  | promoteSlots => exact hreturns (promoteSlots_matched hf.settled)
  | combine =>
    obtain ⟨d, hd⟩ := DomTree.compute_returns hwf.entry
    exact hreturns (combine_rests (hf.settled.layered (hf.whole rfl hdef)) hwf hd)
  | simplifyGraph => exact hreturns (simplifyGraph_keeps hwf hf.settled.leaves)
  | numberEarly memoryAware => exact hreturns (number_keeps hwf _)
  | dropUnused => exact hreturns (dropUnused_keeps hwf)
  | numberGlobal => exact hreturns (number_keeps hwf _)
  | dropUnneeded =>
    obtain ⟨g, c, hg⟩ := (dropUnneeded_returns_iff hwf).2 fun id hid =>
      hf.settled.inst?_of_wanted (hf.whole rfl hdef) hid
    exact ⟨(g, c), hg⟩

/-! ### Modules -/

namespace Module

variable {R R' R'' : FuncId → Func → Func → Prop} {t : Func → Transformed}

/-- Every function of `m'` comes from the one of `m` with its handle in the way `R`, and the visible
definitions are still there. -/
structure Evolves (R : FuncId → Func → Func → Prop) (m m' : Module) : Prop where
  origin : ∀ id g, m'.func? id = some g → ∃ f, m.func? id = some f ∧ R id f g
  stays : ∀ id f, m.func? id = some f → f.linkage = .visible → f.isDeclaration = false →
    ∃ g, m'.func? id = some g ∧ g.head = f.head

theorem Evolves.trans {m₁ : Module} (h₁ : m.Evolves R m₁) (h₂ : m₁.Evolves R' m')
    (hR : ∀ id f g e, m.func? id = some f → R id f g → R' id g e → R'' id f e) :
    m.Evolves R'' m' where
  origin := by
    intro id e he
    obtain ⟨g, hg, hge⟩ := h₂.origin id e he
    obtain ⟨f, hf, hfg⟩ := h₁.origin id g hg
    exact ⟨f, hf, hR id f g e hf hfg hge⟩
  stays := by
    intro id f hf hvisible hdef
    obtain ⟨g, hg, hhead⟩ := h₁.stays id f hf hvisible hdef
    have hlinkage : g.head.linkage = f.head.linkage := by rw [hhead]
    obtain ⟨e, he, hhead'⟩ := h₂.stays id g hg (hlinkage.trans hvisible)
      ((isDeclaration_of_head hhead).trans hdef)
    exact ⟨e, he, hhead'.trans hhead⟩

theorem Evolves.mono (h : m.Evolves R m') (hR : ∀ id f g, R id f g → R' id f g) :
    m.Evolves R' m' := by
  refine ⟨fun id g hg => ?_, h.stays⟩
  obtain ⟨f, hf, hfg⟩ := h.origin id g hg
  exact ⟨f, hf, hR id f g hfg⟩

theorem evolves_self (hR : ∀ id f, m.func? id = some f → R id f f) : m.Evolves R m :=
  ⟨fun id f hf => ⟨f, hf, hR id f hf⟩, fun _ f hf _ _ => ⟨f, hf, rfl⟩⟩

theorem Transforms.evolves (h : Transforms t m m')
    (hR : ∀ id f g, Becomes t f g → R id f g ∧ g.head = f.head) : m.Evolves R m' where
  origin := by
    intro id g hg
    cases hf : m.func? id with
    | none =>
      rw [h.absent id hf] at hg
      cases hg
    | some f =>
      obtain ⟨g', hg', hbecomes⟩ := h.becomes id f hf
      rw [hg] at hg'
      cases hg'
      exact ⟨f, rfl, (hR id f g hbecomes).1⟩
  stays := by
    intro id f hf _ _
    obtain ⟨g, hg, hbecomes⟩ := h.becomes id f hf
    exact ⟨g, hg, (hR id f g hbecomes).2⟩

theorem transformOne_evolves {j : FuncId} (h : m.transformOne j t = .ok (m', changed))
    (hself : ∀ id f, id ≠ j → R id f f)
    (hR : ∀ f g, t f = .ok (g, changed) → R j f g ∧ g.head = f.head) : m.Evolves R m' := by
  cases hj : m.func? j with
  | none =>
    unfold transformOne at h
    rw [hj] at h
    cases h
    refine evolves_self fun id f hf => hself id f ?_
    rintro rfl
    rw [hj] at hf
    cases hf
  | some f =>
    obtain ⟨g, hg, rfl⟩ := transformOne_eq_ok hj h
    obtain ⟨hfg, hhead⟩ := hR f g hg
    constructor
    · intro id e he
      by_cases hid : id = j
      · subst hid
        rw [func?_put_self hj] at he
        cases he
        exact ⟨f, hj, hfg⟩
      · rw [func?_put_of_ne (Ne.symm hid)] at he
        exact ⟨e, he, hself id e hid⟩
    · intro id e he _ _
      by_cases hid : id = j
      · subst hid
        rw [hj] at he
        cases he
        exact ⟨g, func?_put_self hj g, hhead⟩
      · exact ⟨e, (func?_put_of_ne (Ne.symm hid) g).trans he, rfl⟩

theorem Loses.evolves {gone : FuncId → Func → Prop} (h : m.Loses gone m')
    (hgone : ∀ id f, gone id f → f.linkage = .hidden ∨ f.isDeclaration = true)
    (hself : ∀ id f, R id f f) : m.Evolves R m' where
  origin := fun id f hf => ⟨f, ((h.func?_iff id f).1 hf).1, hself id f⟩
  stays := by
    intro id f hf hvisible hdef
    refine ⟨f, (h.func?_iff id f).2 ⟨hf, fun hlost => ?_⟩, rfl⟩
    rcases hgone id f hlost with hhidden | hdecl
    · rw [hvisible] at hhidden
      cases hhidden
    · rw [hdef] at hdecl
      cases hdecl

end Module

open BinaryLift.Module

/-! ### Steps -/

namespace PassStep

variable {step : PassStep}

/-- What the execution of a function has to be like for a step to keep it. -/
def Permits (act : Activation) (memory : Memory) (region : Word → Prop) (id : FuncId) (f : Func) :
    PassStep → Prop
  | .module (.promoteStack stack) =>
    id = stack.func → f.Reserves (act.withSlots f) memory stack.value region
  | .module (.flattenMemory guest) => id = guest.func → act.args guest.index = 0
  | _ => True

/-- When a step is known to keep functions. -/
def Ready (whole : Bool) : PassStep → Prop
  | .module (.foldImageLoads _ policy) => policy = .never
  | .module .narrowLoads => whole = true
  | .module (.promoteStack _) => whole = true
  | _ => True

/-- The step turns a function into another, the handle being `id`. -/
def Turns (step : PassStep) (whole : Bool) (id : FuncId) (f g : Func) : Prop :=
  f.TurnsInto whole (step.leavesWhole whole)
    (fun act memory region => step.Permits act memory region id f) g

theorem narrowLoads_turns (hdef : f.isDeclaration = false)
    (hrun : f.narrowLoads = .ok (g, changed)) : f.TurnsInto true true P g := by
  refine turnsInto_of_sameGraph (hasHead_narrowLoads rfl _ hrun) fun hf => ?_
  obtain ⟨hsettled, hgraph, hmatched⟩ := holds_of_ok (hf.narrowLoads_matched hdef) hrun
  exact ⟨hsettled, hgraph, fun act memory region _ => hmatched act memory region⟩

theorem promoteStack_turns {stack : ArgRef} (hrun : f.promoteStack stack.value = .ok (g, changed)) :
    Turns (.module (.promoteStack stack)) true stack.func f g := by
  refine turnsInto_of_sameGraph (hasHead_promoteStack rfl _ _ hrun) fun hf => ?_
  obtain ⟨hsettled, hgraph, hmatched⟩ := holds_of_ok (hf.promoteStack_matched stack.index) hrun
  exact ⟨hsettled, hgraph, fun act memory region hpermits =>
    hmatched act memory region (hpermits rfl)⟩

theorem flattenMemory_turns {guest : ArgRef}
    (hrun : f.flattenMemory guest.index = .ok (g, changed)) :
    Turns (.module (.flattenMemory guest)) whole guest.func f g := by
  refine turnsInto_of_sameGraph (hasHead_flattenMemory rfl _ _ hrun) fun hf => ?_
  obtain ⟨hsettled, hgraph, hmatched⟩ :=
    holds_of_ok (flattenMemory_matched hf.settled guest.index) hrun
  exact ⟨hsettled, hgraph, fun act memory region hpermits =>
    hmatched act memory region (hpermits rfl)⟩

theorem evolves_of_transforms {t : Func → Transformed} (h : Transforms t m m')
    (hturns : ∀ id f g changed, f.isDeclaration = false → t f = .ok (g, changed) →
      step.Turns whole id f g) : m.Evolves (step.Turns whole) m' := by
  refine h.evolves fun id f g hbecomes => ?_
  cases hbecomes with
  | declared hdecl => exact ⟨turnsInto_self fun hf => hf.of_declaration hdecl, rfl⟩
  | defined hdef hg => exact ⟨hturns id f g _ hdef hg, (hturns id f g _ hdef hg).head⟩

/-- What a step makes of a module. -/
theorem applyTo_evolves (hready : step.Ready whole) (h : step.applyTo img m = .ok m') :
    m.Evolves (step.Turns whole) m' := by
  cases step with
  | function pass =>
    exact evolves_of_transforms (applyTo_function.1 h) fun _ _ _ _ _ hg => FunctionPass.run_turns hg
  | module pass =>
    obtain ⟨changed, hrun⟩ := fst_eq_ok.1 h
    cases pass with
    | foldImageLoads memory policy =>
      obtain rfl : policy = .never := hready
      cases hrun
      exact evolves_self fun _ _ _ => turnsInto_self id
    | narrowLoads =>
      obtain rfl : whole = true := hready
      exact evolves_of_transforms (transforms_of_transformEach hrun) fun _ _ _ _ hdef hg =>
        narrowLoads_turns hdef hg
    | promoteStack stack =>
      obtain rfl : whole = true := hready
      refine transformOne_evolves hrun (fun _ _ _ => turnsInto_self id) fun f g hg => ?_
      have hturns := promoteStack_turns hg
      exact ⟨hturns, hturns.head⟩
    | flattenMemory guest =>
      refine transformOne_evolves hrun (fun _ _ _ => turnsInto_self id) fun f g hg => ?_
      have hturns : Turns _ whole _ f g := flattenMemory_turns hg
      exact ⟨hturns, hturns.head⟩
    | dropUncallable =>
      obtain ⟨m₁, c, hm₁, hloses, _⟩ := m.dropUncallable_spec
      rw [show m.dropUncallable = .ok (m', changed) from hrun] at hm₁
      cases hm₁
      exact hloses.evolves (fun _ _ hgone => .inl hgone.1) fun _ _ => turnsInto_self id
    | dropPrototypes =>
      cases hrun
      exact m.dropPrototypes_spec.1.evolves (fun _ _ hgone => .inr hgone.1) fun _ _ =>
        turnsInto_self id

/-- A step returns on a module of fit functions. -/
theorem applyTo_returns (hready : step.Ready true)
    (hall : ∀ id f, m.func? id = some f → f.Fit true) : ∃ m', step.applyTo img m = .ok m' := by
  have hfst : ∀ {x : Checked (Module × Bool)}, (∃ r, x = .ok r) →
      ∃ m', (do return (← x).1 : Checked Module) = .ok m' :=
    fun ⟨r, hr⟩ => ⟨r.1, fst_eq_ok.2 ⟨r.2, hr⟩⟩
  cases step with
  | function pass =>
    refine hfst (transformEach_returns fun id f hf hdef => ?_)
    obtain ⟨r, hr⟩ := pass.returns_of_fit (hall id f hf) hdef
    exact ⟨r, hr⟩
  | module pass =>
    cases pass with
    | foldImageLoads memory policy =>
      obtain rfl : policy = .never := hready
      exact hfst ⟨_, rfl⟩
    | narrowLoads =>
      refine hfst (transformEach_returns fun id f hf hdef => ?_)
      obtain ⟨g, c, hg, _⟩ := (hall id f hf).narrowLoads_matched hdef
      exact ⟨_, hg⟩
    | promoteStack stack =>
      refine hfst (transformOne_returns fun f hf => ?_)
      obtain ⟨g, c, hg, _⟩ := (hall _ f hf).promoteStack_matched stack.index
      exact ⟨_, hg⟩
    | flattenMemory guest =>
      refine hfst (transformOne_returns fun f hf => ?_)
      obtain ⟨g, c, hg, _⟩ := flattenMemory_matched (hall _ f hf).settled guest.index
      exact ⟨_, hg⟩
    | dropUncallable =>
      obtain ⟨m₁, c, hm₁, _⟩ := m.dropUncallable_spec
      exact hfst ⟨_, hm₁⟩
    | dropPrototypes => exact hfst ⟨_, rfl⟩

end PassStep

/-! ### Schedules -/

namespace Schedule

variable {s : Schedule}

/-- The steps permit the execution one after another, each that of what the steps before it have
made of the function. -/
def Permits (img : Image) (act : Activation) (memory : Memory) (region : Word → Prop)
    (id : FuncId) : Schedule → Module → Prop
  | [], _ => True
  | (_, step) :: rest, m =>
    (∀ f, m.func? id = some f → step.Permits act memory region id f) ∧
      ∀ m', step.applyTo img m = .ok m' → Permits img act memory region id rest m'

/-- Each step is known to keep functions after those before it. -/
def Ready : Bool → Schedule → Prop
  | _, [] => True
  | whole, (_, step) :: rest => step.Ready whole ∧ Ready (step.leavesWhole whole) rest

/-- Whether control comes to all of a function after a schedule. -/
def leavesWhole : Bool → Schedule → Bool
  | whole, [] => whole
  | whole, (_, step) :: rest => leavesWhole (step.leavesWhole whole) rest

/-- What a schedule makes of a module. -/
theorem stepwise_evolves (hready : s.Ready whole) (h : s.stepwise img m = .ok m') :
    m.Evolves (fun id f g => f.TurnsInto whole (s.leavesWhole whole)
      (fun act memory region => s.Permits img act memory region id m) g) m' := by
  induction s generalizing whole m with
  | nil =>
    cases h
    exact evolves_self fun _ _ _ => turnsInto_self id
  | cons e rest ih =>
    obtain ⟨phase, step⟩ := e
    obtain ⟨hstep, hrest⟩ := hready
    obtain ⟨m₁, hfirst, hrun⟩ := stepwise_cons.1 h
    refine (PassStep.applyTo_evolves hstep hfirst).trans (ih hrest hrun) ?_
    intro id f g e hf hfg hge
    exact hfg.trans hge fun act memory region hpermits => ⟨hpermits.1 f hf, hpermits.2 m₁ hfirst⟩

theorem leavesWhole_true : s.leavesWhole true = true := by
  induction s with
  | nil => rfl
  | cons e rest ih =>
    obtain ⟨phase, step⟩ := e
    have hstep : step.leavesWhole true = true := by
      unfold PassStep.leavesWhole
      split <;> rfl
    rw [leavesWhole, hstep, ih]

theorem stepwise_returns (hready : s.Ready true) (hall : ∀ id f, m.func? id = some f → f.Fit true) :
    ∃ m', s.stepwise img m = .ok m' := by
  induction s generalizing m with
  | nil => exact ⟨m, rfl⟩
  | cons e rest ih =>
    obtain ⟨phase, step⟩ := e
    obtain ⟨hstep, hrest⟩ := hready
    have hwhole : step.leavesWhole true = true := by
      unfold PassStep.leavesWhole
      split <;> rfl
    obtain ⟨m₁, hfirst⟩ : ∃ m₁, step.applyTo img m = .ok m₁ := PassStep.applyTo_returns hstep hall
    rw [hwhole] at hrest
    obtain ⟨m', hrun⟩ := ih (m := m₁) hrest fun id g hg => by
      obtain ⟨f, hf, hfg⟩ := (PassStep.applyTo_evolves hstep hfirst).origin id g hg
      have hfit := TurnsInto.fit hfg (hall id f hf)
      rwa [hwhole] at hfit
    exact ⟨m', stepwise_cons.2 ⟨m₁, hfirst, hrun⟩⟩

end Schedule

end BinaryLift
