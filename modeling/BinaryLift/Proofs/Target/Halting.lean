import BinaryLift.Proofs.Target.Recomputation

/-!
# Where an evaluation halts

Definitions are followed to a fixed depth, and never twice on one chain. The base of a pointer is
followed without either check. So an evaluation halts for all operands if the pointers of all loads lead
from base to base to an end. A load through a pointer that is counted from itself is not evaluated in any
number of steps.
-/

namespace BinaryLift

namespace EvalM

variable {α β : Type} {a : α}

/-- The computation has a result, whatever is stored. -/
def Halts (m : EvalM α) : Prop := ∀ c, ∃ a c', m c = .ok (a, c')

theorem halts_pure (a : α) : Halts (pure a) := fun c => ⟨a, c, rfl⟩

theorem halts_bind {m : EvalM α} {k : α → EvalM β} (hm : Halts m) (hk : ∀ a, Halts (k a)) :
    Halts (m >>= k) := by
  intro c
  obtain ⟨a, c', hrun⟩ := hm c
  obtain ⟨b, c'', hrest⟩ := hk a c'
  refine ⟨b, c'', ?_⟩
  change (m c >>= fun p => k p.1 p.2) = _
  rw [hrun]
  exact hrest

theorem Returns.halts {m : EvalM α} (h : Returns (fun _ => True) m a) : Halts m := by
  intro c
  obtain ⟨c', hrun, _⟩ := h c trivial
  exact ⟨a, c', hrun⟩

/-- A result of two computations in a row has one of the first. -/
theorem bind_eq_ok {m : EvalM α} {k : α → EvalM β} {c : Table InstId ValueSet}
    {r : β × Table InstId ValueSet} (h : (m >>= k) c = .ok r) :
    ∃ a c', m c = .ok (a, c') ∧ k a c' = .ok r := by
  change (m c >>= fun p => k p.1 p.2) = _ at h
  cases hm : m c with
  | error e =>
    rw [hm] at h
    cases h
  | ok p =>
    rw [hm] at h
    exact ⟨p.1, p.2, rfl, h⟩

end EvalM

open EvalM Relation

namespace Func

/-- The pointers that live loads read through lead from base to base to an end. -/
def LoadsEnd (f : Func) : Prop :=
  ∀ id p ty, f.isLive id = true → f.inst? id = some ⟨.load p, ty⟩ → ∃ n, Ends f.pointerBase? n p

/-- So do those of the loads that the set of an operand is made from. -/
def LoadsEndFrom (f : Func) (v : Value) : Prop :=
  ∀ root id p ty, v = .inst root → ReflTransGen f.Follows root id → f.isLive id = true →
    f.inst? id = some ⟨.load p, ty⟩ → ∃ n, Ends f.pointerBase? n p

theorem LoadsEndFrom.consulted {f : Func} {id : InstId} {i : Inst} {v : Value}
    (h : f.LoadsEndFrom (.inst id)) (hlive : f.isLive id = true) (hi : f.inst? id = some i)
    (hv : f.Consults i.kind v) : f.LoadsEndFrom v := by
  rintro root k p ty rfl hk
  exact h id k p ty rfl (.head ⟨hlive, i, hi, hv⟩ hk)

end Func

namespace EvalQuery

variable {q : EvalQuery} {eval : Value → EvalM ValueSet} {i : Inst} {p v : Value} {n k : Nat}
  {c : Table InstId ValueSet} {id : InstId}

/-! ### Addresses -/

theorem address_of_inst? (eval : Value → EvalM ValueSet) (n : Nat) (hlive : q.func.isLive id = true)
    (hi : q.func.inst? id = some i) :
    q.address eval (n + 1) (.inst id) =
      match i.kind with
      | .cast .inttoptr v => eval v
      | .ptrAdd base offset =>
        if q.isMemory base then eval offset
        else do
          let b ← q.address eval n base
          let o ← eval offset
          return b.product o fun x y => some (x + y)
      | _ => return .unknown := by
  simp only [address, hlive, Bool.not_true, Bool.false_eq_true, if_false, Func.kind_of_inst? hi]
  rfl

/-- The addresses of a pointer are found at once, and it leads no further than to the memory parameter,
or they are those of its base and an offset. -/
theorem address_cases (q : EvalQuery) (eval : Value → EvalM ValueSet) (p : Value) :
    (Ends q.func.pointerBase? 1 p ∧
      ∃ m, (m = pure .unknown ∨ ∃ v, q.func.AddressPart p v ∧ m = eval v) ∧
        ∀ n, q.address eval (n + 1) p = m) ∨
    ∃ base offset, q.func.pointerBase? p = some base ∧ q.func.AddressPart p offset ∧
      (∀ v, q.func.AddressPart base v → q.func.AddressPart p v) ∧
      ∀ n, q.address eval (n + 1) p = do
        let b ← q.address eval n base
        let o ← eval offset
        return b.product o fun x y => some (x + y) := by
  cases p with
  | const c => exact .inl ⟨.stop rfl, _, .inl rfl, fun _ => rfl⟩
  | arg a => exact .inl ⟨.stop rfl, _, .inl rfl, fun _ => rfl⟩
  | inst id =>
    cases hlive : q.func.isLive id with
    | false =>
      refine .inl ⟨.stop ?_, pure .unknown, .inl rfl, fun n => ?_⟩
      · simp only [Func.pointerBase?, hlive]
      · simp only [address, hlive]
        rfl
    | true =>
      obtain ⟨⟨kind, ty⟩, hi⟩ := Func.exists_inst?_of_lt (Func.index_lt_of_isLive hlive)
      have hstep := fun n => address_of_inst? eval n hlive hi
      cases kind with
      | ptrAdd base offset =>
        have hbase := Func.pointerBase?_eq hlive hi
        cases hmem : q.isMemory base with
        | true =>
          refine .inl ⟨.link hbase (.stop ?_), eval offset, .inr ⟨_, .offset hlive hi, rfl⟩,
            fun n => ?_⟩
          · cases base with
            | arg a => rfl
            | const c => rfl
            | inst j => cases hmem
          · rw [hstep]
            exact if_pos hmem
        | false =>
          refine .inr ⟨base, offset, hbase, .offset hlive hi, fun v hv => .base hlive hi hv, fun n => ?_⟩
          rw [hstep]
          exact if_neg (Bool.eq_false_iff.1 hmem)
      | cast op x =>
        have hends : Ends q.func.pointerBase? 1 (.inst id) := .stop (by simp [Func.pointerBase?, hi])
        cases op with
        | inttoptr => exact .inl ⟨hends, _, .inr ⟨x, .converted hlive hi, rfl⟩, hstep⟩
        | _ => exact .inl ⟨hends, _, .inl rfl, hstep⟩
      | _ => exact .inl ⟨.stop (by simp [Func.pointerBase?, hi]), _, .inl rfl, hstep⟩

theorem address_halts (heval : ∀ v, q.func.AddressPart p v → Halts (eval v))
    (hends : Ends q.func.pointerBase? k p) (hk : k < n) : Halts (q.address eval n p) := by
  induction n generalizing k p with
  | zero => omega
  | succ n ih =>
    rcases q.address_cases eval p with
      ⟨_, m, hm, hstep⟩ | ⟨base, offset, hbase, hoffset, hparts, hstep⟩
    · rw [hstep]
      rcases hm with rfl | ⟨v, hv, rfl⟩
      · exact halts_pure _
      · exact heval v hv
    · obtain ⟨k, rfl, hrest⟩ := hends.tail hbase
      have hbase' := ih (fun v hv => heval v (hparts v hv)) hrest (by omega)
      rw [hstep]
      exact halts_bind hbase' fun b => halts_bind (heval offset hoffset) fun o => halts_pure _

/-- Without an end, no bound is enough. -/
theorem address_of_not_ends (h : ∀ k, ¬ Ends q.func.pointerBase? k p) (n : Nat) :
    q.address eval n p c = .error .stepLimit := by
  induction n generalizing p with
  | zero => rfl
  | succ n ih =>
    rcases q.address_cases eval p with ⟨hends, _⟩ | ⟨base, offset, hbase, _, _, hstep⟩
    · exact absurd hends (h 1)
    · have hrest := ih fun k hends => h (k + 1) (.link hbase hends)
      rw [hstep]
      change (q.address eval n base c >>= fun _ => _) = _
      rw [hrest]
      rfl

/-! ### Instructions -/

theorem mergeAll_halts (vs : List Value) (heval : ∀ v ∈ vs, Halts (eval v)) (acc : ValueSet) :
    Halts (mergeAll eval acc vs) := by
  induction vs generalizing acc with
  | nil => exact halts_pure _
  | cons v vs ih =>
    refine halts_bind (heval v List.mem_cons_self) fun s => ?_
    dsimp only
    split
    · exact halts_pure _
    · exact ih (fun u hu => heval u (List.mem_cons_of_mem _ hu)) _

theorem inst_halts (heval : ∀ v, q.func.Consults i.kind v → Halts (eval v))
    (hmade : ∀ j, .inst j ∈ i.kind.operands → j.index < q.func.arena.size)
    (hload : ∀ p, i.kind = .load p → q.memory.image = none ∨ ∃ n, Ends q.func.pointerBase? n p) :
    Halts (q.inst eval i) := by
  have hty : ∀ v ∈ i.kind.operands, Halts (q.ty v) := by
    intro v hv
    refine (ty_returns fun j hj => hmade j ?_).halts
    rwa [← hj]
  obtain ⟨kind, ty⟩ := i
  cases kind with
  | alloca a => exact halts_pure _
  | store p v => exact halts_pure _
  | call g args => exact halts_pure _
  | binary op x y =>
    have hx := heval x List.mem_cons_self
    have hy := heval y (List.mem_cons_of_mem _ List.mem_cons_self)
    exact halts_bind hx fun a => halts_bind hy fun b => halts_pure _
  | icmp p x y =>
    have hx := heval x List.mem_cons_self
    have hy := heval y (List.mem_cons_of_mem _ List.mem_cons_self)
    exact halts_bind (hty x List.mem_cons_self) fun t =>
      halts_bind hx fun a => halts_bind hy fun b => halts_pure _
  | cast op x =>
    have hx := heval x List.mem_cons_self
    exact halts_bind (hty x List.mem_cons_self) fun t => halts_bind hx fun a => halts_pure _
  | ptrAdd x y =>
    have hx := heval x List.mem_cons_self
    have hy := heval y (List.mem_cons_of_mem _ List.mem_cons_self)
    exact halts_bind hx fun a => halts_bind hy fun b => halts_pure _
  | select c x y =>
    have hc := heval c List.mem_cons_self
    have hx := heval x (List.mem_cons_of_mem _ List.mem_cons_self)
    have hy := heval y (List.mem_cons_of_mem _ (List.mem_cons_of_mem _ List.mem_cons_self))
    refine halts_bind hc fun s => ?_
    split
    · exact hx
    · split
      · exact hy
      · exact halts_bind hx fun a => halts_bind hy fun b => halts_pure _
  | phi inc => exact mergeAll_halts _ heval _
  | load p =>
    simp only [inst, load]
    rcases hload p rfl with hnone | ⟨n, hends⟩
    · rw [hnone]
      exact halts_pure _
    · cases q.memory.image with
      | none => exact halts_pure _
      | some img =>
        have hwithin := Func.pointerBase_within hends
        exact halts_bind (address_halts heval hwithin (Nat.lt_succ_self _)) fun s => halts_pure _

/-! ### Operands -/

theorem value_halts (hmade : q.func.OperandsMade) (n : Nat) (path : List InstId) (v : Value)
    (hloads : q.memory.image = none ∨ q.func.LoadsEndFrom v) : Halts (q.value n path v) := by
  -- on the number of definitions that may still be followed, with the chain that led here
  induction n generalizing path v with
  | zero => cases v <;> exact halts_pure _
  | succ n ih =>
    cases v with
    | const c => exact halts_pure _
    | arg a => exact halts_pure _
    | inst id =>
      cases hlive : q.func.isLive id with
      | false =>
        rw [value_of_dead hlive]
        exact halts_pure _
      | true =>
        obtain ⟨i, hi⟩ := Func.exists_inst?_of_lt (Func.index_lt_of_isLive hlive)
        have hinst : Halts (q.inst (q.value n (id :: path)) i) := by
          refine inst_halts (fun v hv => ?_) (hmade id i hlive hi) fun p hp => ?_
          · exact ih _ v (hloads.imp_right fun hends => hends.consulted hlive hi hv)
          · refine hloads.imp_right fun hends => hends id id p i.ty rfl .refl hlive ?_
            rw [hi, ← hp]
        intro c
        rw [value_of_live hlive hi]
        split
        · exact ⟨_, _, rfl⟩
        · split
          · exact ⟨_, _, rfl⟩
          · obtain ⟨a, c', hrun⟩ := hinst c
            rw [hrun]
            exact ⟨_, _, rfl⟩

theorem run_of_halts (h : Halts (q.value (maxDepth + 1) [] v)) : ∃ s, q.run v = .ok s := by
  obtain ⟨s, c, hrun⟩ := h []
  refine ⟨s, ?_⟩
  simp only [run, StateT.run, hrun]
  rfl

/-- A load with no end to its bases is not evaluated. -/
theorem run_load_of_not_ends {img : Image} {ty : Option Ty} (himg : q.memory.image = some img)
    (hlive : q.func.isLive id = true) (hi : q.func.inst? id = some ⟨.load p, ty⟩)
    (h : ∀ k, ¬ Ends q.func.pointerBase? k p) : q.run (.inst id) = .error .stepLimit := by
  have hload : q.inst (q.value maxDepth [id]) ⟨.load p, ty⟩ [] = .error .stepLimit := by
    simp only [inst, load, himg]
    change (q.address (q.value maxDepth [id]) (q.func.arena.size + 1) p [] >>= fun _ => _) = _
    rw [address_of_not_ends h]
    rfl
  simp only [run, StateT.run]
  rw [value_of_live hlive hi, Table.get?]
  simp only [List.not_mem_nil, if_false, hload]
  rfl

end EvalQuery

/-! ### Both evaluations -/

namespace Func

variable {f : Func}

/-- Both evaluations come to a result for an operand if there is no image to read from or the pointers of
the loads that it leads to have an end. They do for every operand only if those of all loads have one. -/
theorem oracles_return (hmade : f.OperandsMade) (memory : MemoryView) :
    (∀ v, memory.image = none ∨ f.LoadsEndFrom v →
      (∃ w, solve memory f v = .ok w) ∧ ∃ s, enumerate memory f v = .ok s) ∧
    ((∀ v, (∃ w, solve memory f v = .ok w) ∧ ∃ s, enumerate memory f v = .ok s) ↔
      memory.image = none ∨ f.LoadsEnd) := by
  have hreturn : ∀ v, memory.image = none ∨ f.LoadsEndFrom v →
      (∃ w, solve memory f v = .ok w) ∧ ∃ s, enumerate memory f v = .ok s := by
    intro v hloads
    have hrun : ∀ mode, ∃ s, EvalQuery.run ⟨f, memory, mode⟩ v = .ok s := fun mode =>
      EvalQuery.run_of_halts (EvalQuery.value_halts hmade _ _ v hloads)
    obtain ⟨s, hs⟩ := hrun .strict
    obtain ⟨t, ht⟩ := hrun .speculative
    refine ⟨⟨s.single?, ?_⟩, ⟨.ofList (t.values?.getD []), ?_⟩⟩
    · rw [solve, hs]
      rfl
    · rw [enumerate, ht]
      rfl
  refine ⟨hreturn, fun h => ?_, fun hloads v => hreturn v ?_⟩
  · cases himg : memory.image with
    | none => exact .inl rfl
    | some img =>
      refine .inr fun id p ty hlive hi => ?_
      by_contra hends
      obtain ⟨⟨w, hw⟩, _⟩ := h (.inst id)
      rw [solve, EvalQuery.run_load_of_not_ends himg hlive hi fun k hk => hends ⟨k, hk⟩] at hw
      cases hw
  · exact hloads.imp_right fun hends root id p ty _ _ => hends id p ty

/-! ### A pointer in a loop -/

/-- A loop that nothing leads to: a pointer, eight bytes behind `base`, and a load through it. -/
def steppedLoad (base : Value) : Func where
  name := "step"
  arena := #[
    ⟨⟨.phi [(⟨1⟩, .inst ⟨1⟩)], some .ptr⟩, some ⟨1⟩⟩,
    ⟨⟨.ptrAdd base (.int 8 .i64), some .ptr⟩, some ⟨1⟩⟩,
    ⟨⟨.load (.inst ⟨1⟩), some .i64⟩, some ⟨1⟩⟩]
  blocks := #[
    some { term := .ret none },
    some { insts := [⟨0⟩, ⟨1⟩, ⟨2⟩], term := .jump ⟨1⟩ }]
  entry := some ⟨0⟩

theorem steppedLoad_inst? {base : Value} {id : InstId} {i : Inst}
    (h : (steppedLoad base).inst? id = some i) :
    i = ⟨.phi [(⟨1⟩, .inst ⟨1⟩)], some .ptr⟩ ∨ i = ⟨.ptrAdd base (.int 8 .i64), some .ptr⟩ ∨
      i = ⟨.load (.inst ⟨1⟩), some .i64⟩ := by
  obtain ⟨n⟩ := id
  match n with
  | 0 => exact .inl (Option.some.inj h).symm
  | 1 => exact .inr (.inl (Option.some.inj h).symm)
  | 2 => exact .inr (.inr (Option.some.inj h).symm)
  | n + 3 => cases h

theorem steppedLoad_operandsMade {k : InstId} (hk : k.index < 3) :
    (steppedLoad (.inst k)).OperandsMade := by
  intro id i _ hi j hj
  rcases steppedLoad_inst? hi with rfl | rfl | rfl
  · cases List.mem_singleton.1 hj
    exact (by decide : 1 < 3)
  · rcases List.mem_cons.1 hj with heq | hj
    · cases heq
      exact hk
    · cases List.mem_singleton.1 hj
  · cases List.mem_singleton.1 hj
    exact (by decide : 1 < 3)

/-- Behind the phi the pointer has an end. -/
theorem steppedLoad_returns :
    ((steppedLoad (.inst ⟨0⟩)).OperandsMade ∧ (steppedLoad (.inst ⟨0⟩)).LoadsEnd) ∧
    (∃ w, solve (.readonlyImage {} none) (steppedLoad (.inst ⟨0⟩)) (.inst ⟨2⟩) = .ok w) ∧
    ∃ s, enumerate (.readonlyImage {} none) (steppedLoad (.inst ⟨0⟩)) (.inst ⟨2⟩) = .ok s := by
  have hmade : (steppedLoad (.inst ⟨0⟩)).OperandsMade := steppedLoad_operandsMade (by decide)
  have hloads : (steppedLoad (.inst ⟨0⟩)).LoadsEnd := by
    intro id p ty _ hi
    rcases steppedLoad_inst? hi with h | h | h <;> cases h
    exact ⟨1, .link rfl (.stop rfl)⟩
  exact ⟨⟨hmade, hloads⟩,
    (oracles_return hmade (.readonlyImage {} none)).2.2 (.inr hloads) (.inst ⟨2⟩)⟩

/-- Behind itself the pointer has none: the load is not evaluated, however many steps are taken from
base to base. -/
theorem steppedLoad_unfinished :
    (steppedLoad (.inst ⟨1⟩)).OperandsMade ∧
    solve (.readonlyImage {} none) (steppedLoad (.inst ⟨1⟩)) (.inst ⟨2⟩) = .error .stepLimit ∧
    enumerate (.readonlyImage {} none) (steppedLoad (.inst ⟨1⟩)) (.inst ⟨2⟩) = .error .stepLimit ∧
    ∀ mode eval n c, EvalQuery.address
      ⟨steppedLoad (.inst ⟨1⟩), .readonlyImage {} none, mode⟩ eval n (.inst ⟨1⟩) c =
        .error .stepLimit :=
  ⟨steppedLoad_operandsMade (by decide), by cbv, by cbv, fun _ _ n _ =>
    EvalQuery.address_of_not_ends (not_ends_of_self rfl) n⟩

end Func

end BinaryLift
