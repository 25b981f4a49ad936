import BinaryLift.Proofs.Target.Solver

/-!
# Speculation without cycles

The speculative evaluation differs from the strict one in two places: a value that leads back to
itself adds nothing, and bytes that may be written are read. Where definitions lead to no cycle and
the view holds no such bytes, both do the same step by step. The candidates are then all payloads
that the destination takes in a run without paths, if there are any.
-/

namespace BinaryLift

open Relation

namespace Func

/-- A live instruction reads the result of another one. -/
def Uses (f : Func) (i j : InstId) : Prop :=
  f.isLive i ∧ ∃ inst, f.inst? i = some inst ∧ .inst j ∈ inst.kind.operands

/-- The operand is used on the way to the instruction's result. -/
def MadeFrom (f : Func) (i : InstId) (v : Value) : Prop := ∀ j, v = .inst j → TransGen f.Uses i j

/-- No definition that the operand leads to leads back to itself. -/
def Acyclic (f : Func) (v : Value) : Prop :=
  ∀ root i, v = .inst root → ReflTransGen f.Uses root i → ¬ TransGen f.Uses i i

variable {f : Func} {i : InstId} {inst : Inst} {v : Value}

theorem madeFrom_operand (hlive : f.isLive i) (hi : f.inst? i = some inst)
    (hv : v ∈ inst.kind.operands) : f.MadeFrom i v := by
  rintro j rfl
  exact .single ⟨hlive, inst, hi, hv⟩

theorem MadeFrom.trans {j : InstId} (h : f.MadeFrom i (.inst j)) (hv : f.MadeFrom j v) :
    f.MadeFrom i v := by
  intro k hk
  exact (h j rfl).trans (hv k hk)

theorem Acyclic.madeFrom (h : f.Acyclic (.inst i)) (hv : f.MadeFrom i v) : f.Acyclic v := by
  rintro root k rfl hk
  exact h i k rfl ((hv root rfl).to_reflTransGen.trans hk)

theorem Acyclic.not_madeFrom (h : f.Acyclic (.inst i)) : ¬ f.MadeFrom i (.inst i) :=
  fun hi => h i i rfl .refl (hi i rfl)

/-- Definitions in an order in which none reads a later one lead to no cycle. -/
theorem acyclic_of_ordered (h : ∀ i j, f.Uses i j → j.index < i.index) (v : Value) :
    f.Acyclic v := by
  intro root i _ _ hcycle
  have hlt : ∀ j, TransGen f.Uses i j → j.index < i.index := by
    intro j hj
    induction hj with
    | single huse => exact h _ _ huse
    | tail _ huse ih => exact Nat.lt_trans (h _ _ huse) ih
  exact Nat.lt_irrefl _ (hlt i hcycle)

end Func

/-! ### The two modes -/

theorem EvalM.lift_bind_congr {α β : Type} {x : Checked α} {g h : α → EvalM β}
    (hsame : ∀ a, x = .ok a → g a = h a) :
    ((liftM x : EvalM α) >>= g) = ((liftM x : EvalM α) >>= h) := by
  cases x with
  | error e => rfl
  | ok a => exact hsame a rfl

/-- All bytes that a load may be evaluated from are read-only. -/
def MemoryView.Constant (m : MemoryView) : Prop := m.image = none ∨ m.readonly = true

namespace EvalQuery

section

variable {f : Func} {mem : MemoryView} {i : InstId} {eval eval' : Value → EvalM ValueSet}

theorem mergeAll_congr {vs : List Value} (h : ∀ v ∈ vs, eval v = eval' v) (acc : ValueSet) :
    mergeAll eval acc vs = mergeAll eval' acc vs := by
  induction vs generalizing acc with
  | nil => rfl
  | cons v vs ih =>
    have hrest := ih fun u hu => h u (List.mem_cons_of_mem _ hu)
    simp only [mergeAll, h v List.mem_cons_self, hrest]

/-- The addresses of a pointer are found from operands that it is made from. -/
theorem address_mode (h : ∀ v, f.MadeFrom i v → eval v = eval' v) (n : Nat) {p : Value}
    (hp : f.MadeFrom i p) :
    address ⟨f, mem, .speculative⟩ eval n p = address ⟨f, mem, .strict⟩ eval' n p := by
  induction n generalizing p with
  | zero => rfl
  | succ n ih =>
    cases p with
    | const c => rfl
    | arg k => rfl
    | inst id =>
      simp only [address]
      split
      · rfl
      · rename_i hdead
        have hlive : f.isLive id := by simpa using hdead
        apply EvalM.lift_bind_congr
        intro k hk
        obtain ⟨inst, hinst, rfl⟩ := Func.kind_eq_ok hk
        have hbelow : ∀ v ∈ inst.kind.operands, f.MadeFrom i v := fun v hv =>
          hp.trans (Func.madeFrom_operand hlive hinst hv)
        split
        · rename_i v hkind
          exact h v (hbelow v (by simp [hkind, Kind.operands]))
        · rename_i base offset hkind
          have hbase := hbelow base (by simp [hkind, Kind.operands])
          have hoffset := hbelow offset (by simp [hkind, Kind.operands])
          simp only [h offset hoffset, ih hbase]
          rfl
        · rfl

theorem load_mode (hmem : mem.Constant) (h : ∀ v, f.MadeFrom i v → eval v = eval' v) {p : Value}
    (hp : f.MadeFrom i p) (ty : Ty) :
    load ⟨f, mem, .speculative⟩ eval p ty = load ⟨f, mem, .strict⟩ eval' p ty := by
  unfold load
  cases himg : mem.image with
  | none => rfl
  | some img =>
    have hreadonly : mem.readonly = true := by
      rcases hmem with hnone | hreadonly
      · rw [himg] at hnone
        cases hnone
      · exact hreadonly
    have hread : ∀ a, readAt ⟨f, mem, .speculative⟩ img ty.bytes a =
        readAt ⟨f, mem, .strict⟩ img ty.bytes a := by
      intro a
      simp only [readAt, hreadonly, or_true, if_true]
    simp only [address_mode h _ hp, funext hread]

/-- An instruction has the same set in both modes if this is so of what it is made from. -/
theorem inst_mode (hmem : mem.Constant) (h : ∀ v, f.MadeFrom i v → eval v = eval' v) {inst : Inst}
    (hlive : f.isLive i) (hi : f.inst? i = some inst) :
    EvalQuery.inst ⟨f, mem, .speculative⟩ eval inst =
      EvalQuery.inst ⟨f, mem, .strict⟩ eval' inst := by
  have hmade : ∀ v ∈ inst.kind.operands, f.MadeFrom i v := fun v hv =>
    Func.madeFrom_operand hlive hi hv
  have heval : ∀ v ∈ inst.kind.operands, eval v = eval' v := fun v hv => h v (hmade v hv)
  obtain ⟨kind, ty⟩ := inst
  cases kind with
  | alloca n => rfl
  | store p v => rfl
  | call g args => rfl
  | load p => exact load_mode hmem h (hmade p List.mem_cons_self) _
  | binary op x y => simp_all [Kind.operands, EvalQuery.inst]
  | icmp p x y => simp_all [Kind.operands, EvalQuery.inst, EvalQuery.ty]
  | cast op x => simp_all [Kind.operands, EvalQuery.inst, EvalQuery.ty]
  | ptrAdd x y => simp_all [Kind.operands, EvalQuery.inst]
  | select c x y => simp_all [Kind.operands, EvalQuery.inst]
  | phi inc => exact mergeAll_congr heval .empty

end

/-- Without cycles and writable bytes the modes agree: by induction on the depth that is left, all
instructions under way being made from the operand. -/
theorem value_mode {f : Func} {mem : MemoryView} (hmem : mem.Constant) (n : Nat)
    (path : List InstId) {v : Value} (hacyclic : f.Acyclic v) (hpath : ∀ j ∈ path, f.MadeFrom j v) :
    value ⟨f, mem, .speculative⟩ n path v = value ⟨f, mem, .strict⟩ n path v := by
  induction n generalizing path v with
  | zero => cases v <;> rfl
  | succ n ih =>
    cases v with
    | const c => rfl
    | arg k => rfl
    | inst id =>
      simp only [value]
      split
      · rfl
      · rename_i hdead
        have hlive : f.isLive id := by simpa using hdead
        have hnew : id ∉ path := fun hid => hacyclic.not_madeFrom (hpath id hid)
        have hbelow : ∀ v, f.MadeFrom id v → value ⟨f, mem, .speculative⟩ n (id :: path) v =
            value ⟨f, mem, .strict⟩ n (id :: path) v := by
          intro v hv
          refine ih (id :: path) (hacyclic.madeFrom hv) ?_
          intro j hj
          rcases List.mem_cons.1 hj with rfl | hj
          · exact hv
          · exact (hpath j hj).trans hv
        apply bind_congr
        intro cache
        split
        · rfl
        · rw [if_neg hnew, if_neg hnew]
          apply EvalM.lift_bind_congr
          intro inst hinst
          rw [inst_mode hmem hbelow hlive (Func.inst_eq_ok hinst)]

theorem run_mode {f : Func} {mem : MemoryView} (hmem : mem.Constant) {v : Value}
    (hacyclic : f.Acyclic v) : run ⟨f, mem, .speculative⟩ v = run ⟨f, mem, .strict⟩ v := by
  have hvalue := value_mode hmem (maxDepth + 1) [] hacyclic fun j hj => by cases hj
  simp only [run, hvalue]

end EvalQuery

/-! ### Candidates -/

theorem mem_ascending {w : Word} {ws : List Word} : w ∈ ascending ws ↔ w ∈ ws := by
  induction ws with
  | nil => rfl
  | cons x xs ih =>
    change w ∈ insertAsc x (ascending xs) ↔ w ∈ x :: xs
    rw [mem_insertAsc, ih, List.mem_cons]

/-- What the strict evaluation finds describes the operand. -/
theorem EvalQuery.run_describes {r : FreeRun} (hagrees : r.func.Agrees)
    (hbits : r.func.NoBitLoad) {v : Value} {k : ValueSet} (h : (strict r).run v = .ok k) :
    r.Describes v k := by
  have hyields := value_yields hagrees hbits (maxDepth + 1) [] v
  have hempty : r.CacheSound [] := by
    intro id k h
    cases h
  cases hrun : (strict r).value (maxDepth + 1) [] v [] with
  | error e =>
    simp only [run, StateT.run, hrun] at h
    cases h
  | ok p =>
    simp only [run, StateT.run, hrun] at h
    cases h
    exact (hyields [] p.1 p.2 hempty hrun).1

theorem enumerate_eq_ok {mem : MemoryView} {f : Func} {v : Value} {s : AddressSet}
    (h : enumerate mem f v = .ok s) (hsome : s.toList ≠ []) :
    ∃ vs, EvalQuery.run ⟨f, mem, .speculative⟩ v = .ok (.known vs) ∧
      ∀ w, w ∈ s.toList ↔ w ∈ vs := by
  unfold enumerate at h
  cases hrun : EvalQuery.run ⟨f, mem, .speculative⟩ v with
  | error e =>
    rw [hrun] at h
    cases h
  | ok k =>
    rw [hrun] at h
    cases h
    cases k with
    | unknown => exact absurd rfl hsome
    | known vs => exact ⟨vs, rfl, fun w => mem_ascending⟩

/-- Only a live instruction or a constant has candidates. -/
theorem isLive_of_enumerate {mem : MemoryView} {f : Func} {v : Value} {s : AddressSet}
    (h : enumerate mem f v = .ok s) (hsome : s.toList ≠ []) (hconst : ∀ c, v ≠ .const c) :
    ∃ id, v = .inst id ∧ f.isLive id := by
  obtain ⟨vs, hrun, _⟩ := enumerate_eq_ok h hsome
  cases v with
  | const c => exact absurd rfl (hconst c)
  | arg n => cases hrun
  | inst id =>
    refine ⟨id, rfl, ?_⟩
    by_contra hlive
    have hdead : f.isLive id = false := by simpa using hlive
    simp only [EvalQuery.run, EvalQuery.value, hdead, Bool.not_false, if_true] at hrun
    cases hrun

/-- The candidates of a destination without cycles are complete, unless there are none, and they are
words of its type. -/
theorem enumerate_complete {r : FreeRun} (hmem : r.memory.Constant) (hagrees : r.func.Agrees)
    (hbits : r.func.NoBitLoad) {v : Value} (hacyclic : r.func.Acyclic v) {cands : AddressSet}
    (h : enumerate r.memory r.func v = .ok cands) (hsome : cands.toList ≠ []) :
    (∀ s w, r.Reachable s → r.operand s v = some w → w ∈ cands.toList) ∧
      ∀ a ∈ cands.toList, (r.func.wordTy v).Fits a := by
  obtain ⟨vs, hrun, hlist⟩ := enumerate_eq_ok h hsome
  rw [EvalQuery.run_mode hmem hacyclic] at hrun
  have hdesc := EvalQuery.run_describes hagrees hbits hrun
  refine ⟨fun s w hs hw => (hlist w).2 (hdesc.mem hs hw), ?_⟩
  intro a ha
  exact hdesc.fits vs a rfl ((hlist a).1 ha)

end BinaryLift
