import BinaryLift.Proofs.Lift.Session

/-!
# What a session reads of its image

A session whose caller supplied no resolver has the one that its image and its policy prescribe.
Under the policy that reads nothing, that resolver knows no more of the image than the addresses it
loads, and the one pass that is given the image leaves it alone. Two sessions with images that
differ in names, rights and contents of their sections therefore do the same.
-/

namespace BinaryLift

/-! ### Images -/

/-- Both images map sections of the same extents, in the same order. -/
structure Image.SameLayout (img img' : Image) : Prop where
  base : img'.base = img.base
  spans : img'.spans = img.spans

theorem Image.SameLayout.range {img img' : Image} (h : img.SameLayout img') :
    img'.range = img.range := by
  rw [Image.range, Image.range, h.base, h.spans]

/-! ### Passes -/

/-- A pass that does the same whatever image it is given. -/
def Pass.IgnoresImage (p : Pass) : Prop := ∀ img img' m, p.run img m = p.run img' m

theorem Pass.ignoresImage_group (name : String) (members : List FunctionPass) :
    (Pass.group name members).IgnoresImage :=
  fun _ _ _ => rfl

/-- Only one pass reads the image, and not if the policy says never. -/
theorem Pass.ignoresImage_single {pass : ModulePass}
    (h : ∀ memory policy, pass = .foldImageLoads memory policy → policy = .never) :
    (Pass.single pass).IgnoresImage := by
  intro img img' m
  cases pass with
  | foldImageLoads memory policy =>
    obtain rfl := h memory policy rfl
    rfl
  | narrowLoads => rfl
  | promoteStack stack => rfl
  | flattenMemory memory => rfl
  | dropUncallable => rfl
  | dropPrototypes => rfl

theorem Pass.runAll_of_ignoresImage {passes : List Pass} (h : ∀ p ∈ passes, p.IgnoresImage)
    (img img' : Image) (m : Module) : runAll img passes m = runAll img' passes m := by
  induction passes generalizing m with
  | nil => simp only [runAll, List.foldlM_nil]
  | cons p ps ih =>
    have hrest := ih fun q hq => h q (List.mem_cons_of_mem _ hq)
    simp only [runAll] at hrest
    simp only [runAll, List.foldlM_cons, h p List.mem_cons_self img img' m, hrest]

namespace Schedule

theorem ignoresImage_of_mem_flush {group : Option (Phase × List FunctionPass)} {p : Pass}
    (h : p ∈ flush group) : p.IgnoresImage := by
  cases group with
  | none => cases h
  | some g =>
    obtain rfl := List.mem_singleton.1 h
    exact Pass.ignoresImage_group _ _

/-- A runnable pass that reads the image comes from a step that does. -/
theorem ignoresImage_of_mem_passesFrom {s : Schedule} {group : Option (Phase × List FunctionPass)}
    (hs : ∀ phase pass, (phase, PassStep.module pass) ∈ s → (Pass.single pass).IgnoresImage)
    {p : Pass} (h : p ∈ passesFrom group s) : p.IgnoresImage := by
  induction s generalizing group with
  | nil => exact ignoresImage_of_mem_flush h
  | cons e rest ih =>
    obtain ⟨phase, step⟩ := e
    have hrest := fun {group} => @ih group fun phase pass hmem =>
      hs phase pass (List.mem_cons_of_mem _ hmem)
    have hdone : ∀ stop : Bool, p ∈ (if stop then flush group else []) → p.IgnoresImage := by
      intro stop hp
      cases stop with
      | false => cases hp
      | true => exact ignoresImage_of_mem_flush hp
    cases step with
    | function pass =>
      simp only [passesFrom] at h
      split at h
      · rcases List.mem_append.1 h with hp | hp
        · exact hdone _ hp
        · exact hrest hp
      · rcases List.mem_append.1 h with hp | hp
        · exact hdone _ hp
        · rcases List.mem_cons.1 hp with rfl | hp
          · exact Pass.ignoresImage_group _ _
          · exact hrest hp
    | module pass =>
      simp only [passesFrom] at h
      rcases List.mem_append.1 h with hp | hp
      · exact hdone _ hp
      · rcases List.mem_cons.1 hp with rfl | hp
        · exact hs phase pass List.mem_cons_self
        · exact hrest hp

theorem ignoresImage_build {params : ScheduleParams} (hpolicy : params.policy = .never) {p : Pass}
    (h : p ∈ (build params).passes) : p.IgnoresImage := by
  refine ignoresImage_of_mem_passesFrom ?_ h
  intro phase pass hmem
  apply Pass.ignoresImage_single
  rintro memory policy rfl
  simp [build] at hmem
  rw [hmem.2.2, hpolicy]

end Schedule

theorem optimize_of_never (params : ScheduleParams) (hpolicy : params.policy = .never)
    (img img' : Image) (limit : Nat) (m : Module) :
    optimize img params limit m = optimize img' params limit m := by
  have hround : Pass.runAll img (Schedule.build params).passes =
      Pass.runAll img' (Schedule.build params).passes := by
    funext m
    apply Pass.runAll_of_ignoresImage
    exact fun p hp => Schedule.ignoresImage_build hpolicy hp
  rw [optimize, optimize, runToFixpoint, runToFixpoint, hround]

/-! ### Sessions -/

namespace Session

variable {σ : Type}

/-- The caller supplied no resolver. -/
structure IsDefault (s : Session σ) : Prop where
  custom : s.custom = false
  resolver : s.resolver = .ofImage s.image s.lifter.signature.memory s.config.policy s.sink

theorem isDefault_new (image : Image) (lifter : BlockLifter σ) (state : σ) :
    (Session.new image lifter state).IsDefault :=
  ⟨rfl, rfl⟩

variable {s s' : Session σ}

theorem IsDefault.withConfig (h : s.IsDefault) (config : LiftConfig) :
    (s.withConfig config).IsDefault := by
  unfold Session.withConfig
  split
  · exact ⟨h.custom, rfl⟩
  · rename_i hsame
    have hpolicy : config.policy = s.config.policy := by
      by_contra hne
      exact hsame (by simp [h.custom, hne])
    exact ⟨h.custom, by rw [h.resolver, hpolicy]⟩

theorem IsDefault.withSink (h : s.IsDefault) (sink : Sink) : (s.withSink sink).IsDefault := by
  refine ⟨h.custom, ?_⟩
  simp only [Session.withSink, h.resolver, Resolver.ofImage]
  split <;> rfl

/-- A call changes nothing but the state of the lifter. -/
theorem liftFunction_session (s : Session σ) (name : String) (entry : Word) :
    ∃ state, (s.liftFunction name entry).session = { s with state := state } := by
  unfold liftFunction
  split
  · dsimp only
    split
    · exact ⟨_, rfl⟩
    · split <;> exact ⟨_, rfl⟩
  · exact ⟨s.state, rfl⟩

theorem IsDefault.liftFunction (h : s.IsDefault) (name : String) (entry : Word) :
    (s.liftFunction name entry).session.IsDefault := by
  obtain ⟨state, hstate⟩ := liftFunction_session s name entry
  rw [hstate]
  exact ⟨h.custom, h.resolver⟩

/-- Sessions without a supplied resolver that differ at most in the names, rights and contents of
the sections of their images. -/
structure SameButContents (s s' : Session σ) : Prop where
  isDefault : s.IsDefault
  isDefault' : s'.IsDefault
  layout : s.image.SameLayout s'.image
  lifter : s'.lifter = s.lifter
  state : s'.state = s.state
  config : s'.config = s.config
  sink : s'.sink = s.sink

theorem sameButContents_new {img img' : Image} (h : img.SameLayout img') (lifter : BlockLifter σ)
    (state : σ) : (Session.new img lifter state).SameButContents (Session.new img' lifter state) :=
  ⟨isDefault_new img lifter state, isDefault_new img' lifter state, h, rfl, rfl, rfl, rfl⟩

theorem withConfig_eq (s : Session σ) (config : LiftConfig) :
    s.withConfig config =
      { s with config := config, resolver := (s.withConfig config).resolver } := by
  unfold Session.withConfig
  split <;> rfl

theorem SameButContents.withConfig (h : s.SameButContents s') (config : LiftConfig) :
    (s.withConfig config).SameButContents (s'.withConfig config) := by
  have hdefault := h.isDefault.withConfig config
  have hdefault' := h.isDefault'.withConfig config
  rw [withConfig_eq] at hdefault hdefault' ⊢
  rw [withConfig_eq s']
  exact ⟨hdefault, hdefault', h.layout, h.lifter, h.state, rfl, h.sink⟩

theorem SameButContents.resolver (h : s.SameButContents s') (hpolicy : s.config.policy = .never) :
    s'.resolver = s.resolver := by
  rw [h.isDefault.resolver, h.isDefault'.resolver, h.lifter, h.config, h.sink, hpolicy]
  simp only [Resolver.ofImage, h.layout.range]

theorem SameButContents.eq (h : s.SameButContents s') (hpolicy : s.config.policy = .never) :
    s' = { s with image := s'.image } := by
  calc s' = { s' with
          lifter := s.lifter, state := s.state, config := s.config, sink := s.sink,
          custom := s.custom, resolver := s.resolver } := by
        rw [← h.lifter, ← h.state, ← h.config, ← h.sink, ← h.resolver hpolicy, h.isDefault.custom,
          ← h.isDefault'.custom]
    _ = { s with image := s'.image } := rfl

theorem finish_of_never (hpolicy : s.config.policy = .never) (img : Image) (name : String)
    (entry : Word) (p : Progress σ) :
    ({ s with image := img } : Session σ).finish name entry p = s.finish name entry p := by
  have hsame : ∀ m id, ({ s with image := img } : Session σ).optimizeLifted m id =
      s.optimizeLifted m id := by
    intro m id
    have hoptimize := optimize_of_never
      ⟨⟨id, s.lifter.signature.stack⟩, ⟨id, s.lifter.signature.memory⟩, s.config.policy⟩ hpolicy img
      s.image s.config.maxIterations m
    simp only [optimizeLifted, hoptimize]
  simp only [finish, hsame]

/-- With the resolver as it is, the image matters to a call only for what the optimizer reads. -/
theorem liftFunction_image (hpolicy : s.config.policy = .never) (img : Image) (name : String)
    (entry : Word) :
    ({ s with image := img } : Session σ).liftFunction name entry =
      { s.liftFunction name entry with
        session := { (s.liftFunction name entry).session with image := img } } := by
  unfold liftFunction
  dsimp only
  split
  · cases hd : (Progress.start s.state s.lifter.signature name entry).discover s.lifter s.resolver
      name s.config.maxBlocks s.config.maxBlocks with
    | mk p found =>
      cases found with
      | error e => rfl
      | ok u =>
        have hfinish := finish_of_never (s := { s with state := p.lifter }) hpolicy img name entry p
        simp only at hfinish ⊢
        rw [hfinish]
        cases ({ s with state := p.lifter } : Session σ).finish name entry p with
        | error e => rfl
        | ok lifted => rfl
  · rfl

/-- Under the policy that reads nothing, the contents of an image have no influence: sessions whose
images have the same layout give the same error or the same function, block map and report, are
observed to do the same, and stay alike. -/
theorem liftFunction_of_never (h : s.SameButContents s') (hpolicy : s.config.policy = .never)
    (name : String) (entry : Word) :
    (s'.liftFunction name entry).result = (s.liftFunction name entry).result ∧
    (s'.liftFunction name entry).trace = (s.liftFunction name entry).trace ∧
    (s.liftFunction name entry).session.SameButContents (s'.liftFunction name entry).session := by
  have hrun : s'.liftFunction name entry =
      { s.liftFunction name entry with
        session := { (s.liftFunction name entry).session with image := s'.image } } := by
    conv_lhs => rw [h.eq hpolicy, liftFunction_image hpolicy]
  obtain ⟨state, hstate⟩ := liftFunction_session s name entry
  have hdefault := h.isDefault.liftFunction name entry
  have hdefault' := h.isDefault'.liftFunction name entry
  rw [hrun] at hdefault'
  rw [hrun]
  refine ⟨rfl, rfl, hdefault, hdefault', ?_, rfl, rfl, rfl, rfl⟩
  rw [hstate]
  exact h.layout

/-- Code at 0x1000 and a table of two words at 0x2000. -/
def tableImage (flags : SectionFlags) (first second : Byte) : Image where
  base := 0x1000
  sections := [
    { name := ".text", address := 0, size := 0x100, flags := .ofRights true false true },
    { name := ".rdata", address := 0x1000, size := 0x10, flags := flags
      data := #[first, 0x10, 0, 0, 0, 0, 0, 0, second, 0x10, 0, 0, 0, 0, 0, 0] }]

/-- A jump to one of the two words of a table, the first if there is no stack. -/
def tableLifter : BlockLifter Unit :=
  scripted fun a =>
    if a = 0x1000 then
      ([⟨.icmp .eq (.arg 0) (.int 0 .ptr), some .i1⟩,
        ⟨.select (.inst ⟨0⟩) (.int 0x2000 .i64) (.int 0x2008 .i64), some .i64⟩,
        ⟨.ptrAdd (.arg 1) (.inst ⟨1⟩), some .ptr⟩,
        ⟨.load (.inst ⟨2⟩), some .i64⟩], .indirect (.inst ⟨3⟩))
    else ([], .ret none)

theorem tableLifter_of_never :
    let s := (Session.new (tableImage .readable 0x20 0x40) tableLifter ()).withConfig
      { policy := .never }
    let s' := (Session.new (tableImage 3 0x60 0x80) tableLifter ()).withConfig
      { policy := .never }
    s.SameButContents s' ∧ s.config.policy = .never ∧
      s.image.read 0x2000 8 ≠ s'.image.read 0x2000 8 ∧
      (s'.liftFunction "table" 0x1000).result = (s.liftFunction "table" 0x1000).result ∧
      (s.liftFunction "table" 0x1000).result.map (·.report.unresolved) = .ok [0x1000] := by
  intro s s'
  have hlayout : (tableImage .readable 0x20 0x40).SameLayout (tableImage 3 0x60 0x80) := ⟨rfl, rfl⟩
  have hsame : s.SameButContents s' := (sameButContents_new hlayout tableLifter ()).withConfig _
  exact ⟨hsame, rfl, by decide, (liftFunction_of_never hsame rfl "table" 0x1000).1, by cbv⟩

end Session

end BinaryLift
