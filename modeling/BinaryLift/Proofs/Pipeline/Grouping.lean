import BinaryLift.Pipeline.Optimize
import BinaryLift.Proofs.Pipeline.Modules
import BinaryLift.Proofs.Program.Heads

/-!
# Groups of passes

The passes of a schedule run a whole phase on one function before they go to the next one. No pass on
functions sees another function, and none makes a declaration of a definition, so the order of
functions and passes may be exchanged: a group does what its members do one after another, each on
every function of the module. What is left is that a group is closed where its phase ends, which holds
as long as no step on modules stands in a phase that runs function by function.
-/

namespace BinaryLift

variable {img : Image} {m m' m₁ m₂ : Module}

/-! ### One pass on every function -/

namespace Module

variable {t t₁ t₂ : Func → Transformed} {f g g' : Func} {changed : Bool}

/-- The module `m'` is `m` with every defined function transformed. -/
structure Transforms (t : Func → Transformed) (m m' : Module) : Prop where
  name : m'.name = m.name
  size : m'.arena.size = m.arena.size
  absent : ∀ id, m.func? id = none → m'.func? id = none
  becomes : ∀ id f, m.func? id = some f → ∃ g, m'.func? id = some g ∧ Becomes t f g

theorem Becomes.result (h : Becomes t f g) (hdef : f.isDeclaration = false) :
    ∃ changed, t f = .ok (g, changed) := by
  cases h with
  | declared hdecl =>
    rw [hdecl] at hdef
    cases hdef
  | defined _ hg => exact ⟨_, hg⟩

theorem Becomes.unique (h : Becomes t f g) (h' : Becomes t f g') : g' = g := by
  cases h with
  | declared hdecl =>
    cases h' with
    | declared _ => rfl
    | defined hdef _ =>
      rw [hdecl] at hdef
      cases hdef
  | defined hdef hg =>
    cases h' with
    | declared hdecl =>
      rw [hdecl] at hdef
      cases hdef
    | defined _ hg' =>
      rw [hg] at hg'
      cases hg'
      rfl

theorem Transforms.unique (h₁ : Transforms t m m₁) (h₂ : Transforms t m m₂) : m₂ = m₁ := by
  refine eq_of_func? (h₂.name.trans h₁.name.symm) (h₂.size.trans h₁.size.symm) fun id => ?_
  cases hf : m.func? id with
  | none => rw [h₁.absent id hf, h₂.absent id hf]
  | some f =>
    obtain ⟨g₁, hg₁, hbecomes₁⟩ := h₁.becomes id f hf
    obtain ⟨g₂, hg₂, hbecomes₂⟩ := h₂.becomes id f hf
    rw [hg₁, hg₂, hbecomes₁.unique hbecomes₂]

theorem shape_put (m : Module) (id : FuncId) (g : Func) :
    (m.put id g).name = m.name ∧ (m.put id g).arena.size = m.arena.size := by
  unfold put
  split
  · exact ⟨rfl, Array.size_setIfInBounds ..⟩
  · exact ⟨rfl, rfl⟩

theorem transformOne_shape (m : Module) (id : FuncId) (t : Func → Transformed) :
    Ensures (fun r => r.1.name = m.name ∧ r.1.arena.size = m.arena.size) (m.transformOne id t) := by
  unfold transformOne
  split
  · exact .pure ⟨rfl, rfl⟩
  · exact .bind_any fun r => .pure (m.shape_put id r.1)

theorem transformEach_shape (m : Module) (t : Func → Transformed) :
    Ensures (fun r => r.1.name = m.name ∧ r.1.arena.size = m.arena.size) (m.transformEach t) := by
  refine Ensures.foldlM (I := fun acc : Module × Bool =>
    acc.1.name = m.name ∧ acc.1.arena.size = m.arena.size) (fun acc e hacc => ?_) ⟨rfl, rfl⟩
  split
  · exact .pure hacc
  · exact (acc.1.transformOne_shape e.1 t).bind fun r hr =>
      .pure ⟨hr.1.trans hacc.1, hr.2.trans hacc.2⟩

theorem transformEach_absent {id : FuncId} (h : m.transformEach t = .ok (m', changed))
    (hid : m.func? id = none) : m'.func? id = none := by
  obtain ⟨_, hspec⟩ := foldlM_transform t m.funcs m false m.funcs_pairwise fun _ hx => mem_funcs.1 hx
  rw [(hspec m' changed h).2 id fun x hx heq => ?_, hid]
  rw [← heq, mem_funcs.1 hx] at hid
  cases hid

theorem transforms_of_transformEach (h : m.transformEach t = .ok (m', changed)) :
    Transforms t m m' := by
  obtain ⟨hname, hsize⟩ := m.transformEach_shape t _ h
  exact ⟨hname, hsize, fun id => transformEach_absent h, fun id f => transformEach_becomes h⟩

/-- A module whose defined functions can all be transformed is transformed. -/
theorem exists_transforms
    (hall : ∀ id f, m.func? id = some f → f.isDeclaration = false → ∃ r, t f = .ok r) :
    ∃ m' changed, m.transformEach t = .ok (m', changed) ∧ Transforms t m m' := by
  obtain ⟨⟨m', changed⟩, hrun⟩ := transformEach_returns hall
  exact ⟨m', changed, hrun, transforms_of_transformEach hrun⟩

theorem transformEach_eq_ok_iff :
    (∃ changed, m.transformEach t = .ok (m', changed)) ↔ Transforms t m m' := by
  constructor
  · rintro ⟨changed, h⟩
    exact transforms_of_transformEach h
  · intro h
    obtain ⟨m₁, changed, hrun, h₁⟩ := exists_transforms (m := m) (t := t) fun id f hf hdef => by
      obtain ⟨g, _, hg⟩ := h.becomes id f hf
      obtain ⟨c, hrun⟩ := hg.result hdef
      exact ⟨_, hrun⟩
    exact ⟨changed, by rw [hrun, h₁.unique h]⟩

/-! ### Two passes on every function -/

/-- The transformation `t` does what `t₁` and then `t₂` do. -/
def Chains (t t₁ t₂ : Func → Transformed) : Prop :=
  ∀ f g, (∃ changed, t f = .ok (g, changed)) ↔
    ∃ e c₁ c₂, t₁ f = .ok (e, c₁) ∧ t₂ e = .ok (g, c₂)

/-- A transformation that makes no declaration of a definition. -/
def KeepsDefinitions (t : Func → Transformed) : Prop :=
  ∀ f g changed, t f = .ok (g, changed) → g.isDeclaration = f.isDeclaration

theorem becomes_chain (hchain : Chains t t₁ t₂) (hkeeps : KeepsDefinitions t₁) :
    Becomes t f g ↔ ∃ e, Becomes t₁ f e ∧ Becomes t₂ e g := by
  constructor
  · intro h
    cases h with
    | declared hdecl => exact ⟨f, .declared hdecl, .declared hdecl⟩
    | defined hdef hg =>
      obtain ⟨e, c₁, c₂, he, hg⟩ := (hchain f g).1 ⟨_, hg⟩
      exact ⟨e, .defined hdef he, .defined ((hkeeps f e c₁ he).trans hdef) hg⟩
  · rintro ⟨e, h₁, h₂⟩
    cases h₁ with
    | declared hdecl =>
      rw [Becomes.unique (.declared hdecl) h₂]
      exact .declared hdecl
    | defined hdef he =>
      obtain ⟨c₂, hg⟩ := h₂.result ((hkeeps f e _ he).trans hdef)
      obtain ⟨c, ht⟩ := (hchain f g).2 ⟨e, _, c₂, he, hg⟩
      exact .defined hdef ht

/-- Both transformations may be done at once on each function: none has to wait for the first
transformation of another. -/
theorem transforms_chain (hchain : Chains t t₁ t₂) (hkeeps : KeepsDefinitions t₁) :
    Transforms t m m' ↔ ∃ m₁, Transforms t₁ m m₁ ∧ Transforms t₂ m₁ m' := by
  constructor
  · intro h
    obtain ⟨m₁, _, _, h₁⟩ := exists_transforms (m := m) (t := t₁) fun id f hf hdef => by
      obtain ⟨g, _, hg⟩ := h.becomes id f hf
      obtain ⟨e, he, _⟩ := (becomes_chain hchain hkeeps).1 hg
      obtain ⟨c, hrun⟩ := he.result hdef
      exact ⟨_, hrun⟩
    refine ⟨m₁, h₁, h.name.trans h₁.name.symm, h.size.trans h₁.size.symm, fun id hid => ?_,
      fun id e he => ?_⟩
    · cases hf : m.func? id with
      | none => exact h.absent id hf
      | some f =>
        obtain ⟨e, he, _⟩ := h₁.becomes id f hf
        rw [hid] at he
        cases he
    · cases hf : m.func? id with
      | none =>
        rw [h₁.absent id hf] at he
        cases he
      | some f =>
        obtain ⟨g, hg, hbecomes⟩ := h.becomes id f hf
        obtain ⟨e', he', hfirst⟩ := h₁.becomes id f hf
        rw [he] at he'
        cases he'
        obtain ⟨e', hfirst', hsecond⟩ := (becomes_chain hchain hkeeps).1 hbecomes
        rw [hfirst.unique hfirst'] at hsecond
        exact ⟨g, hg, hsecond⟩
  · rintro ⟨m₁, h₁, h₂⟩
    refine ⟨h₂.name.trans h₁.name, h₂.size.trans h₁.size, fun id hid =>
      h₂.absent id (h₁.absent id hid), fun id f hf => ?_⟩
    obtain ⟨e, he, hfirst⟩ := h₁.becomes id f hf
    obtain ⟨g, hg, hsecond⟩ := h₂.becomes id e he
    exact ⟨g, hg, (becomes_chain hchain hkeeps).2 ⟨e, hfirst, hsecond⟩⟩

end Module

open BinaryLift.Module

/-! ### Groups -/

theorem FunctionPass.runAll_snoc (members : List FunctionPass) (pass : FunctionPass) :
    Chains (runAll (members ++ [pass])) (runAll members) pass.run := by
  intro f g
  unfold runAll sweepOver
  rw [List.foldlM_append]
  constructor
  · rintro ⟨changed, h⟩
    obtain ⟨⟨e, c₁⟩, he, h⟩ := bind_eq_ok.1 h
    rw [List.foldlM_cons] at h
    obtain ⟨_, h, hlast⟩ := bind_eq_ok.1 h
    cases hlast
    obtain ⟨⟨g', c₂⟩, hg, h⟩ := bind_eq_ok.1 h
    cases h
    exact ⟨e, c₁, c₂, he, hg⟩
  · rintro ⟨e, c₁, c₂, he, hg⟩
    refine ⟨c₁ || c₂, bind_eq_ok.2 ⟨_, he, ?_⟩⟩
    rw [List.foldlM_cons]
    simp only [hg]
    rfl

theorem FunctionPass.runAll_keepsDefinitions (members : List FunctionPass) :
    KeepsDefinitions (runAll members) := by
  intro f g changed h
  refine Func.isDeclaration_of_head (Func.hasHead_sweepOver (fun e pass he r hr => ?_) rfl _ _ h)
  exact (run_head hr).trans he

/-- A longer group does what the shorter one and then the new member do. -/
theorem transforms_snoc {members : List FunctionPass} {pass : FunctionPass} :
    Transforms (FunctionPass.runAll (members ++ [pass])) m m' ↔
      ∃ m₁, Transforms (FunctionPass.runAll members) m m₁ ∧ Transforms pass.run m₁ m' :=
  transforms_chain (FunctionPass.runAll_snoc members pass)
    (FunctionPass.runAll_keepsDefinitions members)

theorem transforms_nil : Transforms (FunctionPass.runAll []) m m' ↔ m' = m := by
  have hself : Transforms (FunctionPass.runAll []) m m := by
    refine ⟨rfl, rfl, fun _ hid => hid, fun id f hf => ⟨f, hf, ?_⟩⟩
    cases hdecl : f.isDeclaration with
    | true => exact .declared hdecl
    | false => exact .defined hdecl rfl
  exact ⟨fun h => hself.unique h, fun h => h ▸ hself⟩

/-! ### Schedules -/

/-- Apply one step to a module; a step on functions is applied to every defined one. -/
def PassStep.applyTo (img : Image) (m : Module) : PassStep → Checked Module
  | .function pass => return (← m.transformEach pass.run).1
  | .module pass => return (← pass.run img m).1

namespace Schedule

/-- Apply the steps of a schedule one after another, each to the whole module. -/
def stepwise (img : Image) (s : Schedule) (m : Module) : Checked Module :=
  s.foldlM (fun m e => e.2.applyTo img m) m

/-- Where steps run function by function, all of them are steps on functions. -/
def Phased (s : Schedule) : Prop :=
  ∀ phase pass, (phase, PassStep.module pass) ∈ s → phase.isPerFunction = false

/-- The members of a group that is being collected. -/
def collected (group : Option (Phase × List FunctionPass)) : List FunctionPass :=
  (group.map (·.2)).getD []

end Schedule

open Schedule

variable {group : Option (Phase × List FunctionPass)} {phase : Phase} {s rest : Schedule}

theorem PassStep.applyTo_function {pass : FunctionPass} :
    (PassStep.function pass).applyTo img m = .ok m' ↔ Transforms pass.run m m' :=
  fst_eq_ok.trans transformEach_eq_ok_iff

theorem transforms_singleton {pass : FunctionPass} :
    Transforms (FunctionPass.runAll [pass]) m m' ↔
      (PassStep.function pass).applyTo img m = .ok m' := by
  have hsingle : FunctionPass.runAll [pass] = fun f => pass.run f :=
    funext (FunctionPass.runAll_singleton pass)
  rw [PassStep.applyTo_function, hsingle]

theorem Pass.run_toPass {step : PassStep} :
    (∃ changed, step.toPass.run img m = .ok (m', changed)) ↔ step.applyTo img m = .ok m' := by
  cases step with
  | function pass => exact transformEach_eq_ok_iff.trans transforms_singleton
  | module pass => exact fst_eq_ok.symm

theorem Pass.runAll_append {ps qs : List Pass} :
    runAll img (ps ++ qs) m = .ok m' ↔
      ∃ m₁, runAll img ps m = .ok m₁ ∧ runAll img qs m₁ = .ok m' := by
  unfold runAll
  rw [List.foldlM_append, bind_eq_ok]

theorem Pass.runAll_cons {p : Pass} {ps : List Pass} :
    runAll img (p :: ps) m = .ok m' ↔
      ∃ m₁, (∃ changed, p.run img m = .ok (m₁, changed)) ∧ runAll img ps m₁ = .ok m' := by
  unfold runAll
  rw [List.foldlM_cons, bind_eq_ok]
  exact exists_congr fun m₁ => and_congr_left fun _ => fst_eq_ok

theorem runAll_flush :
    Pass.runAll img (flush group) m = .ok m' ↔
      Transforms (FunctionPass.runAll (collected group)) m m' := by
  cases group with
  | none =>
    rw [show collected none = [] from rfl, transforms_nil, eq_comm]
    exact ⟨fun h => by cases h; rfl, fun h => h ▸ rfl⟩
  | some g =>
    rw [← transformEach_eq_ok_iff]
    refine Pass.runAll_cons.trans ?_
    constructor
    · rintro ⟨m₁, hrun, h⟩
      cases h
      exact hrun
    · intro hrun
      exact ⟨m', hrun, rfl⟩

theorem stepwise_cons {step : PassStep} :
    stepwise img ((phase, step) :: rest) m = .ok m' ↔
      ∃ m₁, step.applyTo img m = .ok m₁ ∧ stepwise img rest m₁ = .ok m' := by
  unfold stepwise
  rw [List.foldlM_cons, bind_eq_ok]

/-! ### Collecting groups -/

/-- A step outside the phases that run function by function ends the group before it. -/
theorem passesFrom_whole (hphase : phase.isPerFunction = false) (step : PassStep) :
    passesFrom group ((phase, step) :: rest) = flush group ++ step.toPass :: passesFrom none rest := by
  cases group <;> cases step <;> simp [passesFrom, hphase, PassStep.toPass, flush]

/-- A step of a phase that runs function by function joins the group of its phase. -/
theorem passesFrom_function (hphase : phase.isPerFunction = true) (pass : FunctionPass) :
    passesFrom group ((phase, .function pass) :: rest) =
      if group.any (·.1 ≠ phase) then flush group ++ passesFrom (some (phase, [pass])) rest
      else passesFrom (some (phase, collected group ++ [pass])) rest := by
  cases group with
  | none => simp [passesFrom, hphase, collected]
  | some g =>
    by_cases hg : g.1 = phase
    · simp [passesFrom, hphase, collected, hg]
    · simp [passesFrom, hphase, flush, hg]

/-- What has been collected is applied, and then what is still to come, as the schedule says. -/
theorem runAll_passesFrom (hs : Phased s) :
    Pass.runAll img (passesFrom group s) m = .ok m' ↔
      ∃ m₁, Transforms (FunctionPass.runAll (collected group)) m m₁ ∧
        stepwise img s m₁ = .ok m' := by
  induction s generalizing group m with
  | nil =>
    refine runAll_flush.trans ?_
    constructor
    · exact fun h => ⟨m', h, rfl⟩
    · rintro ⟨m₁, h, hrest⟩
      cases hrest
      exact h
  | cons e s ih =>
    obtain ⟨phase, step⟩ := e
    have hrest : Phased s := fun ph pass h => hs ph pass (List.mem_cons_of_mem _ h)
    simp only [stepwise_cons]
    cases hphase : phase.isPerFunction with
    | false =>
      rw [passesFrom_whole hphase, Pass.runAll_append]
      refine exists_congr fun m₁ => and_congr runAll_flush (Pass.runAll_cons.trans ?_)
      refine exists_congr fun m₂ => and_congr Pass.run_toPass ((ih hrest).trans ?_)
      -- nothing has been collected behind the step
      constructor
      · rintro ⟨m₃, h, hsteps⟩
        rwa [transforms_nil.1 h] at hsteps
      · exact fun hsteps => ⟨m₂, transforms_nil.2 rfl, hsteps⟩
    | true =>
      cases step with
      | module pass =>
        rw [hs phase pass List.mem_cons_self] at hphase
        cases hphase
      | function pass =>
        rw [passesFrom_function hphase]
        split
        · rw [Pass.runAll_append]
          refine exists_congr fun m₁ => and_congr runAll_flush ((ih hrest).trans ?_)
          exact exists_congr fun m₂ => and_congr_left fun _ => transforms_singleton
        · refine (ih hrest).trans ?_
          constructor
          · rintro ⟨m₂, h, hsteps⟩
            obtain ⟨m₁, hfirst, hlast⟩ := transforms_snoc.1 h
            exact ⟨m₁, hfirst, m₂, PassStep.applyTo_function.2 hlast, hsteps⟩
          · rintro ⟨m₁, hfirst, m₂, hlast, hsteps⟩
            exact ⟨m₂, transforms_snoc.2 ⟨m₁, hfirst, PassStep.applyTo_function.1 hlast⟩, hsteps⟩

/-- Grouping keeps the meaning of a schedule whose steps keep to their phases. -/
theorem runAll_passes (hs : Phased s) :
    Pass.runAll img (passes s) m = .ok m' ↔ stepwise img s m = .ok m' := by
  refine (runAll_passesFrom hs).trans ?_
  constructor
  · rintro ⟨m₁, h, hsteps⟩
    rwa [transforms_nil.1 h] at hsteps
  · exact fun hsteps => ⟨m, transforms_nil.2 rfl, hsteps⟩

theorem phased_build (p : ScheduleParams) : Phased (build p) := by
  intro phase pass h
  simp only [build, List.mem_cons, List.not_mem_nil, Prod.mk.injEq, reduceCtorEq, and_false,
    false_or, or_false] at h
  rcases h with ⟨rfl, _⟩ | ⟨rfl, _⟩ | ⟨rfl, _⟩ | ⟨rfl, _⟩ | ⟨rfl, _⟩ | ⟨rfl, _⟩ <;> rfl

/-! ### The schedule step by step -/

/-- One step makes `m'` of `m`. A step on functions transforms every defined function and leaves the
declarations. -/
def PassStep.Makes (img : Image) (m m' : Module) : PassStep → Prop
  | .function pass => Transforms pass.run m m'
  | .module pass => ∃ changed, pass.run img m = .ok (m', changed)

/-- The steps of a schedule in order, each done with the whole module before the next begins. -/
inductive Schedule.Steps (img : Image) : Schedule → Module → Module → Prop
  | nil (m : Module) : Steps img [] m m
  | cons {phase : Phase} {step : PassStep} {rest : Schedule} {m m₁ m' : Module}
      (hstep : step.Makes img m m₁) (hrest : Steps img rest m₁ m') :
      Steps img ((phase, step) :: rest) m m'

theorem PassStep.applyTo_iff_makes {step : PassStep} :
    step.applyTo img m = .ok m' ↔ step.Makes img m m' := by
  cases step with
  | function pass => exact PassStep.applyTo_function
  | module pass => exact fst_eq_ok

theorem stepwise_iff_steps : stepwise img s m = .ok m' ↔ s.Steps img m m' := by
  induction s generalizing m with
  | nil =>
    constructor
    · intro h
      cases h
      exact .nil _
    · intro h
      cases h
      rfl
  | cons e rest ih =>
    rw [stepwise_cons]
    constructor
    · rintro ⟨m₁, hstep, hrest⟩
      exact .cons (PassStep.applyTo_iff_makes.1 hstep) (ih.1 hrest)
    · intro h
      cases h with
      | cons hstep hrest => exact ⟨_, PassStep.applyTo_iff_makes.2 hstep, ih.2 hrest⟩

/-- One run of the passes that the standard schedule is grouped into gives the module that its fifteen
steps give one after another, each of them done with the whole module before the next begins; and
where either way meets a fault, so does the other. -/
theorem grouped_agrees_with_schedule (img : Image) (p : ScheduleParams) (m m' : Module) :
    (build p).length = 15 ∧
    (Pass.runAll img (build p).passes m = .ok m' ↔ (build p).Steps img m m') :=
  ⟨rfl, (runAll_passes (phased_build p)).trans stepwise_iff_steps⟩

/-- A step on modules inside a phase that runs function by function would be done before the steps
that stand before it. -/
example : passes [(.earlyCleanup, .function .dropUnused), (.earlyCleanup, .module .dropUncallable)] =
    [.single .dropUncallable, .group "early-cleanup" [.dropUnused]] := by
  decide

end BinaryLift
