import BinaryLift.Proofs.Pipeline.SsaForm
import BinaryLift.Proofs.Transform.StackPromotion

/-!
# Stack promotion in a module

The pass `promote-pseudo-stack` on a whole module: it changes the one function that it is told of, and that
function does what it did.
-/

namespace BinaryLift.ModulePass

open Func PassStep

variable {img : Image} {m m' : Module} {stack : ArgRef} {f : Func}

/-- If the pass reports no change, the module is what it was. -/
theorem promoteStack_idle (h : ModulePass.run img m (.promoteStack stack) = .ok (m', false)) :
    m' = m := by
  change m.transformOne stack.func (Func.promoteStack stack.value) = _ at h
  cases hf : m.func? stack.func with
  | none =>
    unfold Module.transformOne at h
    rw [hf] at h
    cases h
    rfl
  | some f =>
    obtain ⟨g, hg, rfl⟩ := Module.transformOne_eq_ok hf h
    rw [promoteStack_unchanged hg, Module.put_of_func? hf]

/-- The stack parameter is a pointer to a region that is zero on entry and that nothing else leads to.
Then the function ends as it did, with the same calls and the same memory outside the region. The
slots that it has instead, and that are left, are accessed and nothing else. -/
theorem promoteStack_preserves (img : Image) (m : Module) (stack : ArgRef) :
    (∀ m', ModulePass.run img m (.promoteStack stack) = .ok (m', false) → m' = m) ∧
    ∀ f, m.func? stack.func = some f → f.WellFormed → f.WellTyped → f.WideOffsets stack.value →
      ∃ m' changed g ids, ModulePass.run img m (.promoteStack stack) = .ok (m', changed) ∧
        m'.func? stack.func = some g ∧ (∀ id, id ≠ stack.func → m'.func? id = m.func? id) ∧
        (∀ s ∈ ids, f.arena.size ≤ s.index ∧ g.OnlyAccessed s) ∧
        ∀ (act : Activation) memory region, act.linked = false →
          (∀ s, act.own s = true → f.confines s = true) →
          f.Reserves act memory stack.value region →
          ∀ n e s, f.run act memory n = some (e, s) →
            ∃ s', g.run (act.adopt ids) memory n = some (e, s') ∧ s'.calls = s.calls ∧
              (∀ a, ¬ region a → s'.memory a = s.memory a) ∧
              ∀ id, id ∉ ids → s'.slots id = s.slots id := by
  refine ⟨fun m' h => promoteStack_idle h, fun f hf hwf hty hwide => ?_⟩
  obtain ⟨g, changed, ids, hg, hids, hruns⟩ := promoteStack_refines hwf hty hwide
  refine ⟨m.put stack.func g, changed, g, ids, ?_, Module.func?_put_self hf g,
    fun id hid => Module.func?_put_of_ne (Ne.symm hid) g, hids, hruns⟩
  change m.transformOne stack.func (Func.promoteStack stack.value) = _
  rw [Module.transformOne_of_func? hf, show Func.promoteStack stack.value f = _ from hg]
  rfl

/-! ### A word on the stack -/

/-- The eight bytes that the sample function accesses. -/
def stackBytes (a : Word) : Prop := ∃ i < 8, a = 0x1008 + BitVec.ofNat 64 i

theorem stackWord_access? {id : InstId} {v : Value} {ty : Ty}
    (h : stackWord.access? id = some (v, ty)) :
    ty = .i64 ∧ ∃ j ∈ stackWord.instsOf ⟨0⟩,
      v = .inst j ∧ stackWord.inst? j = some ⟨.ptrAdd (.arg 0) (.int 8 .i64), some .ptr⟩ := by
  obtain ⟨n⟩ := id
  match n with
  | 0 => cases h
  | 1 =>
    cases h
    exact ⟨rfl, ⟨0⟩, by decide, rfl, rfl⟩
  | 2 => cases h
  | 3 =>
    cases h
    exact ⟨rfl, ⟨2⟩, by decide, rfl, rfl⟩
  | n + 4 => cases h

theorem stackWord_reserves :
    stackWord.Reserves (.plain 0x1000) (fun _ => 0) (.arg 0) stackBytes where
  zero := fun _ _ => rfl
  reached := by
    rintro v ty a i ⟨b, pre, id, post, m, _, _, haccess, _⟩ _ _
    obtain ⟨_, j, hj, rfl, hi⟩ := stackWord_access? haccess
    have hnone : stackWord.access? j = none := by simp only [Func.access?, hi]
    exact .inl (.step hj hi hnone List.mem_cons_self .self)
  within := by
    rintro j c o ty a i ⟨b, pre, id, post, m, hvisit, hsplit, haccess, hvalue, _⟩ _ hi
    obtain ⟨rfl, j', hj, hv, hinst⟩ := stackWord_access? haccess
    cases hv
    have hl : (Activation.plain 0x1000).Leaves stackWord := Activation.leaves_of_linked rfl _
    have hb := hvisit.reachable stackWord_wellFormed hl
    obtain ⟨k, hk, hphi, hop⟩ := operand_of_access? haccess
    have hav := stackWord_wellFormed.use hb hsplit hk hphi hop
    have henv := hvisit.env_ptrAdd stackWord_wellFormed hl hinst hav rfl
    have ha : a = 0x1008 := Option.some.inj (hvalue.symm.trans henv)
    exact ⟨i, hi, by rw [ha]⟩
  calls := by
    intro b pre id post m callee args o ws _ _ hi
    exact absurd hi (inst?_ne_call (by decide))

theorem stackWord_wideOffsets : stackWord.WideOffsets (.arg 0) := by
  intro b a c o _ hi
  obtain ⟨n⟩ := a
  match n with
  | 0 =>
    cases hi
    rfl
  | 1 => cases hi
  | 2 =>
    cases hi
    rfl
  | 3 => cases hi
  | n + 4 => cases hi

/-- The word that was put on the stack is returned, before and after. -/
theorem stackWord_returns :
    ∃ m g ids, ModulePass.run {} stackModule (.promoteStack ⟨⟨0⟩, 0⟩) = .ok (m, true) ∧
      m.func? ⟨0⟩ = some g ∧ ∃ s, g.run ((Activation.plain 0x1000).adopt ids) (fun _ => 0) 1 =
        some (.ret (some 5), s) ∧ s.calls = [] := by
  obtain ⟨_, hkeeps⟩ := promoteStack_preserves {} stackModule ⟨⟨0⟩, 0⟩
  obtain ⟨m, changed, g, ids, hrun, hg, _, _, hruns⟩ := hkeeps stackWord rfl stackWord_wellFormed
    (by decide) stackWord_wideOffsets
  have hchanged : (ModulePass.run {} stackModule (.promoteStack ⟨⟨0⟩, 0⟩)).toOption.map (·.2) =
      some true := by cbv
  rw [hrun] at hchanged
  cases hchanged
  have hexit : (stackWord.run (.plain 0x1000) (fun _ => 0) 1).map
      (fun r => (r.1, r.2.calls.length)) = some (.ret (some 5), 0) := by cbv
  obtain ⟨⟨e, s⟩, hold, heq⟩ := Option.map_eq_some_iff.1 hexit
  rw [Prod.mk.injEq] at heq
  obtain ⟨rfl, hcalls⟩ := heq
  obtain ⟨s', hnew, hcalls', _⟩ := hruns (.plain 0x1000) _ stackBytes rfl
    (fun _ hown => absurd hown Bool.false_ne_true) stackWord_reserves 1 _ s hold
  exact ⟨m, g, ids, hrun, hg, s', hnew, hcalls'.trans (List.length_eq_zero_iff.1 hcalls)⟩

end BinaryLift.ModulePass
