import BinaryLift.Proofs.Closed.Passes
import BinaryLift.Proofs.Graph.PhiPlacement

/-!
# Pruning of modules

The passes `globaldce` and `strip-dead-prototypes`. A hidden function goes exactly if no chain of calls
leads to it from a visible one, and a declaration exactly if no function of the module calls it. Whatever
stays keeps its handle and its body, so the calls of a function that stays are the calls it had, and what
they name stays as well.
-/

namespace BinaryLift

/-- A call of `callee` stands in a live block. -/
def Func.Calls (f : Func) (callee : FuncId) : Prop :=
  ∃ b id args ty, id ∈ f.instsOf b ∧ f.inst? id = some ⟨.call callee args, ty⟩

theorem Func.mem_callees {f : Func} {callee : FuncId} : callee ∈ f.callees ↔ f.Calls callee := by
  simp only [callees, List.mem_filterMap, Option.bind_eq_some_iff]
  constructor
  · rintro ⟨id, hid, ⟨kind, ty⟩, hi, hcallee⟩
    obtain ⟨b, hb⟩ := mem_liveInsts.1 hid
    cases kind with
    | call g args =>
      cases hcallee
      exact ⟨b, id, args, ty, hb, hi⟩
    | _ => cases hcallee
  · rintro ⟨b, id, args, ty, hb, hi⟩
    exact ⟨id, mem_liveInsts.2 ⟨b, hb⟩, _, hi, rfl⟩

namespace Module

variable {m m' : Module} {id callee : FuncId} {f : Func} {gone : FuncId → Func → Prop}

/-- A visible function, or one that a function of the module calls to which the same applies. -/
inductive Callable (m : Module) : FuncId → Prop
  | visible {id : FuncId} {f : Func} (hf : m.func? id = some f) (hvis : f.linkage = .visible) :
    Callable m id
  | call {id callee : FuncId} {f : Func} (hid : Callable m id) (hf : m.func? id = some f)
    (hcall : f.Calls callee) : Callable m callee

/-- Some function of the module calls `callee`. -/
def IsCalled (m : Module) (callee : FuncId) : Prop :=
  ∃ id f, m.func? id = some f ∧ f.Calls callee

/-- Every call names a function that is present. -/
def CallsPresent (m : Module) : Prop :=
  ∀ callee, m.IsCalled callee → ∃ f, m.func? callee = some f

/-- The module `m'` is `m` without the functions that are `gone`; the others keep their handles and
their bodies. -/
structure Loses (m : Module) (gone : FuncId → Func → Prop) (m' : Module) : Prop where
  name : m'.name = m.name
  size : m'.arena.size = m.arena.size
  func?_iff : ∀ id f, m'.func? id = some f ↔ m.func? id = some f ∧ ¬ gone id f

/-! ### Taking functions out -/

theorem shape_removeAll (m : Module) (ids : List FuncId) :
    (m.removeAll ids).name = m.name ∧ (m.removeAll ids).arena.size = m.arena.size := by
  unfold removeAll
  induction ids generalizing m with
  | nil => exact ⟨rfl, rfl⟩
  | cons id ids ih =>
    obtain ⟨hname, hsize⟩ := ih (m.remove id)
    exact ⟨hname, hsize.trans (Array.size_setIfInBounds ..)⟩

/-- Removing a list of functions loses those, where the list holds the handles that are gone. -/
theorem loses_removeAll {ids : List FuncId}
    (hids : ∀ id, id ∈ ids ↔ ∃ f, m.func? id = some f ∧ gone id f) :
    m.Loses gone (m.removeAll ids) ∧
      ((!ids.isEmpty) = true ↔ ∃ id f, m.func? id = some f ∧ gone id f) := by
  obtain ⟨hname, hsize⟩ := m.shape_removeAll ids
  refine ⟨⟨hname, hsize, fun id f => ?_⟩, ?_⟩
  · rw [func?_removeAll]
    constructor
    · intro hf
      split at hf
      · cases hf
      · rename_i hid
        exact ⟨hf, fun hgone => hid ((hids id).2 ⟨f, hf, hgone⟩)⟩
    · rintro ⟨hf, hkept⟩
      rw [if_neg fun hid => ?_, hf]
      obtain ⟨f', hf', hgone⟩ := (hids id).1 hid
      rw [hf] at hf'
      cases hf'
      exact hkept hgone
  · rw [Bool.not_eq_true', Bool.eq_false_iff, Ne, List.isEmpty_iff, List.eq_nil_iff_forall_not_mem]
    simp only [not_forall, not_not, hids]

/-- Where nothing is gone, nothing has changed. -/
theorem Loses.eq_of_none (h : m.Loses gone m') (hnone : ∀ id f, m.func? id = some f → ¬ gone id f) :
    m' = m := by
  refine eq_of_func? h.name h.size fun id => Option.ext fun f => ?_
  rw [h.func?_iff id f]
  exact and_iff_left_of_imp (hnone id f)

/-! ### What is called -/

theorem mem_calls : callee ∈ m.calls ↔ m.IsCalled callee := by
  simp only [calls, List.mem_flatMap, Func.mem_callees, Prod.exists, mem_funcs]
  rfl

theorem mem_visible : id ∈ m.visible ↔ ∃ f, m.func? id = some f ∧ f.linkage = .visible := by
  simp only [visible, List.mem_map, List.mem_filter, Prod.exists, mem_funcs, decide_eq_true_eq]
  constructor
  · rintro ⟨j, f, hf, rfl⟩
    exact ⟨f, hf⟩
  · rintro ⟨f, hf⟩
    exact ⟨id, f, hf, rfl⟩

theorem mem_calleesOf : callee ∈ m.calleesOf id ↔ ∃ f, m.func? id = some f ∧ f.Calls callee := by
  unfold calleesOf
  cases hf : m.func? id with
  | none => simp
  | some f => simp [Func.mem_callees]

/-- The walk from the visible functions meets exactly what can be called. -/
theorem mem_called {keep : List FuncId} (hkeep : m.called = .ok keep) :
    id ∈ keep ↔ m.Callable id := by
  unfold called at hkeep
  obtain ⟨hstart, hclosed⟩ := closed_of_closure hkeep
  constructor
  · refine closure_subset (T := {id | m.Callable id}) ?_ ?_ hkeep id
    · intro x hx ys hys y hy
      cases hys
      obtain ⟨f, hf, hcall⟩ := mem_calleesOf.1 hy
      exact .call hx hf hcall
    · intro x hx
      obtain ⟨f, hf, hvis⟩ := mem_visible.1 hx
      exact .visible hf hvis
  · intro hid
    induction hid with
    | visible hf hvis => exact hstart (mem_visible.2 ⟨_, hf, hvis⟩)
    | call _ hf hcall ih =>
      obtain ⟨ys, hys, hsub⟩ := hclosed _ ih
      cases hys
      exact hsub (mem_calleesOf.2 ⟨_, hf, hcall⟩)

/-! ### The two passes -/

/-- A hidden function that cannot be called. -/
def Uncallable (m : Module) (id : FuncId) (f : Func) : Prop :=
  f.linkage = .hidden ∧ ¬ m.Callable id

/-- A declaration that nobody calls. -/
def Unused (m : Module) (id : FuncId) (f : Func) : Prop :=
  f.isDeclaration = true ∧ ¬ m.IsCalled id

theorem not_callable_iff (hf : m.func? id = some f) : ¬ m.Callable id ↔ m.Uncallable id f := by
  refine ⟨fun hid => ⟨?_, hid⟩, fun h => h.2⟩
  cases hlink : f.linkage with
  | visible => exact absurd (.visible hf hlink) hid
  | hidden => rfl

theorem dropUncallable_spec (m : Module) :
    ∃ m' changed, m.dropUncallable = .ok (m', changed) ∧ m.Loses m.Uncallable m' ∧
      (changed = true ↔ ∃ id f, m.func? id = some f ∧ m.Uncallable id f) := by
  obtain ⟨keep, hkeep⟩ := m.called_returns
  refine ⟨m.removeAll (m.ids.filter (· ∉ keep)), _, ?_, loses_removeAll fun id => ?_⟩
  · unfold dropUncallable
    rw [hkeep]
    rfl
  · simp only [List.mem_filter, ids, List.mem_map, Prod.exists, mem_funcs, decide_eq_true_eq,
      mem_called hkeep]
    constructor
    · rintro ⟨⟨j, f, hf, rfl⟩, hid⟩
      exact ⟨f, hf, (not_callable_iff hf).1 hid⟩
    · rintro ⟨f, hf, hid⟩
      exact ⟨⟨id, f, hf, rfl⟩, (not_callable_iff hf).2 hid⟩

theorem dropPrototypes_spec (m : Module) :
    m.Loses m.Unused m.dropPrototypes.1 ∧
      (m.dropPrototypes.2 = true ↔ ∃ id f, m.func? id = some f ∧ m.Unused id f) := by
  refine loses_removeAll fun id => ?_
  simp only [List.mem_map, List.mem_filter, Prod.exists, mem_funcs, Bool.and_eq_true,
    Bool.not_eq_true', List.contains_eq_mem, decide_eq_false_iff_not, mem_calls]
  constructor
  · rintro ⟨j, f, ⟨hf, hunused⟩, rfl⟩
    exact ⟨f, hf, hunused⟩
  · rintro ⟨f, hf, hunused⟩
    exact ⟨id, f, ⟨hf, hunused⟩, rfl⟩

/-- Where nothing is to be dropped, the module stays as it is. -/
theorem dropUncallable_idle (hall : ∀ id f, m.func? id = some f → ¬ m.Uncallable id f) :
    m.dropUncallable = .ok (m, false) := by
  obtain ⟨m', changed, h, hloses, hchanged⟩ := m.dropUncallable_spec
  have hidle : changed = false := by
    refine Bool.eq_false_iff.2 fun hc => ?_
    obtain ⟨id, f, hf, hgone⟩ := hchanged.1 hc
    exact hall id f hf hgone
  rw [h, hloses.eq_of_none hall, hidle]

/-! ### Functions that stay -/

theorem Loses.isCalled (h : m.Loses gone m') (hcalled : m'.IsCalled callee) : m.IsCalled callee := by
  obtain ⟨id, f, hf, hcall⟩ := hcalled
  exact ⟨id, f, ((h.func?_iff id f).1 hf).1, hcall⟩

/-- Where callers stay, a function that stays and could be called still can. -/
theorem Loses.callable (h : m.Loses gone m')
    (hcaller : ∀ id f callee, m.func? id = some f → m.Callable id → f.Calls callee → ¬ gone id f)
    (hid : m.Callable id) (hf : m'.func? id = some f) : m'.Callable id := by
  induction hid generalizing f with
  | visible hf' hvis =>
    have hsame := ((h.func?_iff _ _).1 hf).1
    rw [hf'] at hsame
    cases hsame
    exact .visible hf hvis
  | call hid hf' hcall ih =>
    have hstays := (h.func?_iff _ _).2 ⟨hf', hcaller _ _ _ hf' hid hcall⟩
    exact .call (ih hstays) hstays hcall

/-- Whatever the first pass leaves could be called and still can. -/
theorem Loses.survivor {m₁ : Module} (h : m.Loses m.Uncallable m₁) (hf : m₁.func? id = some f) :
    m.func? id = some f ∧ m.Callable id ∧ m₁.Callable id := by
  obtain ⟨hf', hkept⟩ := (h.func?_iff id f).1 hf
  have hid : m.Callable id := by
    by_contra hnot
    exact hkept ((not_callable_iff hf').1 hnot)
  exact ⟨hf', hid, h.callable (fun _ _ _ _ hcaller _ hgone => hgone.2 hcaller) hid hf⟩

theorem Loses.callsPresent {m₁ : Module} (h : m.Loses m.Uncallable m₁) (hm : m.CallsPresent) :
    m₁.CallsPresent := by
  rintro callee ⟨id, f, hf, hcall⟩
  obtain ⟨hf', hid, _⟩ := h.survivor hf
  obtain ⟨g, hg⟩ := hm callee ⟨id, f, hf', hcall⟩
  exact ⟨g, (h.func?_iff callee g).2 ⟨hg, fun hgone => hgone.2 (.call hid hf' hcall)⟩⟩

theorem callsPresent_dropPrototypes (hm : m.CallsPresent) : m.dropPrototypes.1.CallsPresent := by
  obtain ⟨hloses, _⟩ := m.dropPrototypes_spec
  intro callee hcalled
  have hbefore := hloses.isCalled hcalled
  obtain ⟨g, hg⟩ := hm callee hbefore
  exact ⟨g, (hloses.func?_iff callee g).2 ⟨hg, fun hgone => hgone.2 hbefore⟩⟩

/-- Both passes take out exactly what is dead and leave the rest as it is: hidden functions that no
chain of calls reaches from a visible one, then declarations that no function calls any more. Where
every call named a present function, every call still does, and what the first pass has left gives it
nothing more to do, also after the second one if declarations, having no body, call nothing. -/
theorem prunes_exactly (m : Module) :
    (∃ m₁ changed, m.dropUncallable = .ok (m₁, changed) ∧ m.Loses m.Uncallable m₁ ∧
      (changed = true ↔ ∃ id f, m.func? id = some f ∧ m.Uncallable id f) ∧
      (m.CallsPresent → m₁.CallsPresent ∧ m₁.dropPrototypes.1.CallsPresent) ∧
      m₁.dropUncallable = .ok (m₁, false) ∧
      ((∀ id f callee, m.func? id = some f → f.isDeclaration = true → ¬ f.Calls callee) →
        m₁.dropPrototypes.1.dropUncallable = .ok (m₁.dropPrototypes.1, false))) ∧
    m.Loses m.Unused m.dropPrototypes.1 ∧
    (m.dropPrototypes.2 = true ↔ ∃ id f, m.func? id = some f ∧ m.Unused id f) := by
  obtain ⟨m₁, changed, hrun, hloses, hchanged⟩ := m.dropUncallable_spec
  refine ⟨⟨m₁, changed, hrun, hloses, hchanged, fun hm => ?_, ?_, fun hdecl => ?_⟩,
    m.dropPrototypes_spec⟩
  · have hm₁ := hloses.callsPresent hm
    exact ⟨hm₁, callsPresent_dropPrototypes hm₁⟩
  · exact dropUncallable_idle fun id f hf hgone => hgone.2 (hloses.survivor hf).2.2
  · obtain ⟨hstripped, _⟩ := m₁.dropPrototypes_spec
    refine dropUncallable_idle fun id f hf hgone => hgone.2 ?_
    have hid := (hloses.survivor ((hstripped.func?_iff id f).1 hf).1).2.2
    -- whoever calls has a body, so the second pass takes no caller out
    refine hstripped.callable (fun j g callee hg _ hcall hunused => ?_) hid hf
    exact hdecl j g callee (hloses.survivor hg).1 hunused.1 hcall

/-- A visible function calls a declaration. Two hidden ones call each other, and one of them another
declaration. -/
def hiddenCycle : Module where
  name := "sample"
  arena := #[
    some {
      name := "main"
      arena := #[⟨⟨.call ⟨1⟩ [], none⟩, some ⟨0⟩⟩]
      blocks := #[some { insts := [⟨0⟩], term := .ret none }]
      entry := some ⟨0⟩ },
    some { name := "used" },
    some {
      name := "left"
      linkage := .hidden
      arena := #[⟨⟨.call ⟨3⟩ [], none⟩, some ⟨0⟩⟩]
      blocks := #[some { insts := [⟨0⟩], term := .ret none }]
      entry := some ⟨0⟩ },
    some {
      name := "right"
      linkage := .hidden
      arena := #[⟨⟨.call ⟨2⟩ [], none⟩, some ⟨0⟩⟩, ⟨⟨.call ⟨4⟩ [], none⟩, some ⟨0⟩⟩]
      blocks := #[some { insts := [⟨0⟩, ⟨1⟩], term := .ret none }]
      entry := some ⟨0⟩ },
    some { name := "unused" }]

/-- The cycle goes, then the declaration that only it called, and there it rests. -/
theorem hiddenCycle_pruned :
    hiddenCycle.CallsPresent ∧
    (∀ id f callee, hiddenCycle.func? id = some f → f.isDeclaration = true → ¬ f.Calls callee) ∧
    ∃ m, hiddenCycle.dropUncallable = .ok (m, true) ∧ m.ids = [⟨0⟩, ⟨1⟩, ⟨4⟩] ∧
      m.dropPrototypes.1.ids = [⟨0⟩, ⟨1⟩] ∧ m.dropPrototypes.1.CallsPresent ∧
      m.dropPrototypes.1.dropUncallable = .ok (m.dropPrototypes.1, false) := by
  have hpresent : hiddenCycle.CallsPresent := by
    have hall : ∀ callee ∈ hiddenCycle.calls, (hiddenCycle.func? callee).isSome = true := by decide
    exact fun callee hcalled => Option.isSome_iff_exists.1 (hall callee (mem_calls.2 hcalled))
  have hdecl : ∀ id f callee, hiddenCycle.func? id = some f → f.isDeclaration = true →
      ¬ f.Calls callee := by
    have hall : ∀ e ∈ hiddenCycle.funcs, e.2.isDeclaration = true → e.2.callees = [] := by decide
    intro id f callee hf hdef hcall
    have hmem := Func.mem_callees.2 hcall
    rw [hall (id, f) (mem_funcs.2 hf) hdef] at hmem
    cases hmem
  obtain ⟨⟨m, changed, hrun, _, _, hcalls, _, hidle⟩, _⟩ := prunes_exactly hiddenCycle
  have hresult : hiddenCycle.dropUncallable.toOption.map
      (fun r => (r.2, r.1.ids, r.1.dropPrototypes.1.ids)) =
      some (true, [⟨0⟩, ⟨1⟩, ⟨4⟩], [⟨0⟩, ⟨1⟩]) := by cbv
  rw [hrun] at hresult
  obtain ⟨rfl, hids⟩ := Prod.mk.inj (Option.some.inj hresult)
  obtain ⟨hfirst, hsecond⟩ := Prod.mk.inj hids
  exact ⟨hpresent, hdecl, m, hrun, hfirst, hsecond, (hcalls hpresent).2, hidle hdecl⟩

end Module

end BinaryLift
