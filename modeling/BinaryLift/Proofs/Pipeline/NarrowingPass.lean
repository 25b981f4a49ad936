import BinaryLift.Proofs.Pipeline.SsaForm
import BinaryLift.Proofs.Transform.Narrowing

/-!
# Narrow loads in a module

The pass `replace-trunc-with-load` on a whole module: every function does what it did, provided that live
code names only instructions that have been made. The readers of a load are counted before the first
narrowing. An unreachable block that names an instruction yet to be made therefore counts as the one reader
of a load that a narrowing makes, and this load is taken away from its real readers.
-/

namespace BinaryLift.ModulePass

open Func PassStep

/-- Loads are narrowed in every function of the module, and each function ends as it did: with the
same calls, the same memory and the same contents of its own slots. Indirect jumps leave the
function. -/
theorem narrowLoads_preserves (img : Image) (m : Module)
    (hall : ∀ id f, m.func? id = some f → f.isDeclaration = false →
      f.WellFormed ∧ f.WellTyped ∧ f.NamesMade) :
    ∃ m' changed, ModulePass.run img m .narrowLoads = .ok (m', changed) ∧
      ∀ id f, m.func? id = some f → ∃ g, m'.func? id = some g ∧
        ∀ (act : Activation) (memory : Memory), act.linked = false →
          (∀ s, act.own s = true → f.confines s = true) →
          ∀ n e s, f.run act memory n = some (e, s) →
            ∃ k s', g.run act memory k = some (e, s') ∧ s'.calls = s.calls ∧
              s'.memory = s.memory ∧ s'.slots = s.slots := by
  have hreturns : ∀ id f, m.func? id = some f → f.isDeclaration = false →
      ∃ r, f.narrowLoads = .ok r := by
    intro id f hf hdef
    obtain ⟨hwf, hty, hnames⟩ := hall id f hf hdef
    obtain ⟨g, changed, hg, _⟩ := narrowLoads_refines hwf hty hnames
    exact ⟨_, hg⟩
  obtain ⟨⟨m', changed⟩, hrun⟩ := Module.transformEach_returns hreturns
  refine ⟨m', changed, hrun, fun id f hf => ?_⟩
  obtain ⟨g, hg, hbecomes⟩ := Module.transformEach_becomes hrun hf
  refine ⟨g, hg, fun act memory hlinked hown n e s hexec => ?_⟩
  cases hbecomes with
  | declared _ => exact ⟨n, s, hexec, rfl, rfl, rfl⟩
  | defined hdef hnarrow =>
    obtain ⟨hwf, hty, hnames⟩ := hall id f hf hdef
    obtain ⟨g', _, hg', _, _, hrefines⟩ := narrowLoads_refines hwf hty hnames
    rw [hnarrow] at hg'
    cases hg'
    exact hrefines act hlinked hown memory n e s hexec

/-! ### The low byte of a word -/

/-- A word is read and overwritten; the next block cuts it down to a byte. -/
def byteOfWord : Func where
  name := "sample"
  params := [⟨"p", .ptr⟩]
  ret := some .i8
  arena := #[
    ⟨⟨.load (.arg 0), some .i64⟩, some ⟨0⟩⟩,
    ⟨⟨.store (.arg 0) (.int 0 .i64), none⟩, some ⟨0⟩⟩,
    ⟨⟨.cast .trunc (.inst ⟨0⟩), some .i8⟩, some ⟨1⟩⟩]
  blocks := #[
    some { insts := [⟨0⟩, ⟨1⟩], term := .jump ⟨1⟩ },
    some { insts := [⟨2⟩], term := .ret (some (.inst ⟨2⟩)) }]
  entry := some ⟨0⟩

def byteModule : Module := { name := "sample", arena := #[some byteOfWord] }

/-- Every byte is the low byte of its address. -/
def lowBytes : Memory := fun a => a.setWidth 8

/-- The byte is read before the word is overwritten, and is returned. -/
theorem byteOfWord_returns :
    ∃ m g, ModulePass.run {} byteModule .narrowLoads = .ok (m, true) ∧ m.func? ⟨0⟩ = some g ∧
      g.inst? ⟨3⟩ = some ⟨.load (.arg 0), some .i8⟩ ∧ g.instsOf ⟨0⟩ = [⟨3⟩, ⟨1⟩] ∧
      g.instsOf ⟨1⟩ = [] ∧
      ∃ k s, g.run (.plain 0x1005) lowBytes k = some (.ret (some 5), s) ∧ s.memory 0x1005 = 0 := by
  have haccepts : Survey.accepts [(⟨0⟩, []), (⟨1⟩, [⟨0⟩])] byteOfWord = true := by decide
  have hnames : byteOfWord.NamesMade := fun j u hu =>
    of_decide_eq_true (of_uses (p := fun j => decide (j.index < 3)) (by decide) hu)
  obtain ⟨m, changed, hrun, hkeeps⟩ := narrowLoads_preserves {} byteModule fun id f hf _ => by
    obtain ⟨n⟩ := id
    match n with
    | 0 =>
      cases hf
      exact ⟨Survey.wellFormed_of_accepts haccepts, by decide, hnames⟩
    | n + 1 => cases hf
  obtain ⟨g, hg, hexits⟩ := hkeeps ⟨0⟩ byteOfWord rfl
  have hresult : (ModulePass.run {} byteModule .narrowLoads).toOption.map (fun r =>
      (r.2, (r.1.func? ⟨0⟩).map fun g => (g.inst? ⟨3⟩, g.instsOf ⟨0⟩, g.instsOf ⟨1⟩))) =
      some (true, some (some ⟨.load (.arg 0), some .i8⟩, [⟨3⟩, ⟨1⟩], [])) := by cbv
  rw [hrun] at hresult
  obtain ⟨rfl, hshape⟩ := Prod.mk.inj (Option.some.inj hresult)
  rw [hg] at hshape
  simp only [Option.map_some, Option.some.injEq, Prod.mk.injEq] at hshape
  obtain ⟨hload, hfirst, hsecond⟩ := hshape
  have hexit : (byteOfWord.run (.plain 0x1005) lowBytes 2).map
      (fun r => (r.1, r.2.memory 0x1005)) = some (.ret (some 5), 0) := by cbv
  obtain ⟨⟨e, s⟩, hold, heq⟩ := Option.map_eq_some_iff.1 hexit
  rw [Prod.mk.injEq] at heq
  obtain ⟨rfl, hbyte⟩ := heq
  obtain ⟨k, s', hnew, _, hmemory, _⟩ := hexits (.plain 0x1005) lowBytes rfl
    (fun _ hown => absurd hown Bool.false_ne_true) 2 _ s hold
  exact ⟨m, g, hrun, hg, hload, hfirst, hsecond, k, s', hnew, hmemory ▸ hbyte⟩

/-! ### A reader that was not there -/

theorem runFrom_of_stuck {f : Func} {act : Activation} {prev : Option BlockId} {b : BlockId}
    {data : Block} {m : Machine} (hdata : f.block? b = some data)
    (hstuck : f.runBlock act prev data.insts m = none) (n : Nat) :
    f.runFrom act n prev b m = none := by
  cases n with
  | zero => rfl
  | succ n =>
    rw [runFrom, hdata, Option.bind_eq_bind, Option.bind_some, hstuck]
    rfl

/-- The half that two instructions cut down is taken from the second one, which then has no value to
cut down. Before, the low byte was returned. -/
theorem cutTwice_gets_stuck :
    cutTwice.WellFormed ∧ cutTwice.WellTyped ∧
      (∃ s, cutTwice.run (.plain 0x1005) lowBytes 1 = some (.ret (some 5), s)) ∧
      ∃ m g, ModulePass.run {} { name := "sample", arena := #[some cutTwice] } .narrowLoads =
        .ok (m, true) ∧ m.func? ⟨0⟩ = some g ∧
        ∀ n, g.run (.plain 0x1005) lowBytes n = none := by
  refine ⟨cutTwice_wellFormed, by decide, ?_, ?_⟩
  · have hexit : (cutTwice.run (.plain 0x1005) lowBytes 1).map (·.1) = some (.ret (some 5)) := by cbv
    obtain ⟨⟨e, s⟩, hrun, rfl⟩ := Option.map_eq_some_iff.1 hexit
    exact ⟨s, hrun⟩
  · have hresult : (ModulePass.run {} { name := "sample", arena := #[some cutTwice] }
        .narrowLoads).toOption.map (fun r => (r.2, (r.1.func? ⟨0⟩).map fun g => (g.entry,
          g.block? ⟨0⟩, (g.runBlock (.plain 0x1005) none [⟨5⟩, ⟨3⟩] (.start lowBytes)).isNone))) =
        some (true, some (some ⟨0⟩, some { insts := [⟨5⟩, ⟨3⟩], term := .ret (some (.inst ⟨3⟩)) },
          true)) := by cbv
    obtain ⟨⟨m, changed⟩, hm, heq⟩ := Option.map_eq_some_iff.1 hresult
    obtain ⟨rfl, hshape⟩ := Prod.mk.inj heq
    obtain ⟨g, hg, heq⟩ := Option.map_eq_some_iff.1 hshape
    simp only [Prod.mk.injEq] at heq
    obtain ⟨hentry, hblock, hstuck⟩ := heq
    refine ⟨m, g, ok_of_toOption hm, hg, fun n => ?_⟩
    rw [Func.run, hentry, Option.bind_eq_bind, Option.bind_some]
    exact runFrom_of_stuck hblock (Option.isNone_iff_eq_none.1 hstuck) n

end BinaryLift.ModulePass
