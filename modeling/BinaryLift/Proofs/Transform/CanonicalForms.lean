import BinaryLift.Proofs.Run.Orderly
import BinaryLift.Proofs.Transform.CombinedValues

/-!
# Canonical forms

Where the operands of an instruction are settled, its canonical form is typed like it and computes
what it computes.
-/

namespace BinaryLift.Func

variable {act : Activation} {f : Func} {m : Machine} {id : InstId} {i : Inst} {x y v : Value}
  {ty : Ty} {a c w : Word} {op : BinOp}

/-- What a kind has to be in order to be the canonical form of an instruction. -/
structure Canonical (f : Func) (id : InstId) (i : Inst) (k : Kind) : Prop where
  pure : i.kind.isPure = true
  isPure : k.isPure = true
  noCast : ∀ op v, k ≠ .cast op v
  words : k.WholeWords f i.ty
  derives : ∀ v ∈ k.operands, f.Derives i.kind v
  typed : i.kind.Typed f i.ty → (∀ j i', .inst j ∈ i.kind.operands → f.inst? j = some i' →
    i'.kind.isPure = true → i'.kind.Typed f i'.ty) → k.Typed f i.ty
  value : i.kind.Typed f i.ty → ∀ (act : Activation) (m : Machine) (w : Word) (g : Func),
    g.inst? id = some ⟨k, i.ty⟩ → (∀ v, g.typeOf v = f.typeOf v) → m.Ready act f i.kind →
    m.compute act f id = some w → m.compute act g id = some w

theorem chainLink?_eq_some {j : InstId} {base : Value} {c : Constant}
    (h : f.chainLink? op j = .ok (some (base, c))) :
    ∃ o, f.inst? j = some ⟨.binary op base (.const c), o⟩ := by
  unfold chainLink? at h
  cases hkind : f.kind j with
  | error e =>
    rw [hkind] at h
    cases h
  | ok kind =>
    obtain ⟨⟨k, o⟩, hj, rfl⟩ := kind_eq_ok hkind
    rw [hkind] at h
    simp only [bind, Except.bind, pure, Except.pure] at h
    split at h
    · simp only [Except.ok.injEq] at h
      split at h
      · rename_i hop
        cases h
        rw [hop] at hj
        exact ⟨o, hj⟩
      · cases h
    · cases h

/-- What a canonical form of a binary operation is. -/
theorem canonicalBinary?_cases {k : Kind} (h : f.canonicalBinary? op x y ty = .ok (some k)) :
    (op.isCommutative = true ∧ x.isConst = true ∧ y.isConst = false ∧ k = .binary op y x) ∨
    (∃ c, y = .const c ∧ op = .sub ∧ x.isConst = false ∧
      k = .binary .add x (.int (0 - c.bits) ty)) ∨
    ∃ j base c c' o u, x = .inst j ∧ y = .const c ∧ op.isAssociative = true ∧
      f.inst? j = some ⟨.binary op base (.const c'), o⟩ ∧ op.fold c'.bits c.bits ty = some u ∧
      k = .binary op base (.int u ty) := by
  unfold canonicalBinary? at h
  simp only [pure, Except.pure] at h
  split at h
  · rename_i hcomm
    cases h
    simp only [Bool.and_eq_true, Bool.not_eq_true'] at hcomm
    exact .inl ⟨hcomm.1.1, hcomm.1.2, hcomm.2, rfl⟩
  · cases y with
    | const c =>
      simp only at h
      split at h
      · rename_i hsub
        split at h
        · rename_i hmoves
          simp only [Bool.and_eq_true, Bool.not_eq_true'] at hmoves
          cases h
          exact .inr (.inl ⟨c, rfl, hsub, hmoves.1, rfl⟩)
        · cases h
      · cases x with
        | inst j =>
          simp only at h
          split at h
          · rename_i hassoc
            cases hlink : f.chainLink? op j with
            | error e =>
              rw [hlink] at h
              cases h
            | ok link =>
              rw [hlink] at h
              simp only [bind, Except.bind] at h
              cases link with
              | none => cases h
              | some e =>
                obtain ⟨base, c'⟩ := e
                obtain ⟨o, hj⟩ := chainLink?_eq_some hlink
                obtain ⟨u, hu, rfl⟩ := Option.map_eq_some_iff.1 (Except.ok.inj h)
                exact .inr (.inr ⟨j, base, c, c', o, u, rfl, rfl, hassoc, hj, hu, rfl⟩)
          · cases h
        | _ => cases h
    | _ => cases h

theorem canonicalBinary?_canonical {k : Kind} {o : Option Ty}
    (hi : f.inst? id = some ⟨.binary op x y, o⟩)
    (h : f.canonicalBinary? op x y (o.getD .i64) = .ok (some k)) :
    f.Canonical id ⟨.binary op x y, o⟩ k := by
  rcases canonicalBinary?_cases h with ⟨hcomm, _, _, rfl⟩ | ⟨c, rfl, rfl, _, rfl⟩ |
    ⟨j, base, c, c', o', u, rfl, rfl, hassoc, hj, hu, rfl⟩
  · refine ⟨rfl, rfl, by rintro _ _ ⟨⟩, trivial, fun v hv => ?_,
      fun hty _ => ⟨hty.1, hty.2.2, hty.2.1⟩, ?_⟩
    · refine .inr (.inl ?_)
      simp only [Kind.operands, List.mem_cons, List.not_mem_nil, or_false] at hv ⊢
      exact hv.symm
    · rintro ⟨hsome, _, _⟩ act m w g hg hty _ hw
      obtain ⟨ty, rfl⟩ := Option.isSome_iff_exists.1 hsome
      obtain ⟨a, b, ha, hb, hw⟩ := (Machine.compute_binary hi).1 hw
      rw [Machine.compute_binary hg, Machine.eval_of_typeOf hty]
      exact ⟨b, a, hb, ha, (BinOp.fold_comm hcomm b a ty).trans hw⟩
  · refine ⟨rfl, rfl, by rintro _ _ ⟨⟩, trivial, fun v hv => ?_, fun hty _ => ?_, ?_⟩
    · simp only [Kind.operands, List.mem_cons, List.not_mem_nil, or_false] at hv
      rcases hv with rfl | rfl
      · exact .inr (.inl List.mem_cons_self)
      · exact .inl ⟨_, rfl⟩
    · obtain ⟨hsome, hx, _⟩ := hty
      obtain ⟨ty, rfl⟩ := Option.isSome_iff_exists.1 hsome
      exact ⟨rfl, hx, rfl⟩
    · rintro ⟨hsome, _, _⟩ act m w g hg hty _ hw
      obtain ⟨ty, rfl⟩ := Option.isSome_iff_exists.1 hsome
      obtain ⟨a, b, ha, hb, hw⟩ := (Machine.compute_binary hi).1 hw
      cases hb
      rw [Machine.compute_binary hg, Machine.eval_of_typeOf hty]
      exact ⟨a, _, ha, rfl, (BinOp.fold_sub_eq_add a c.bits ty).symm.trans hw⟩
  · refine ⟨rfl, rfl, by rintro _ _ ⟨⟩, trivial, fun v hv => ?_, fun hty hinner => ?_, ?_⟩
    · simp only [Kind.operands, List.mem_cons, List.not_mem_nil, or_false] at hv
      rcases hv with rfl | rfl
      · exact .inr (.inr ⟨j, _, List.mem_cons_self, hj, rfl, List.mem_cons_self⟩)
      · exact .inl ⟨_, rfl⟩
    · obtain ⟨hsome, hx, _⟩ := hty
      have hx' : o' = o := (typeOf_inst hj).symm.trans hx
      obtain ⟨_, hbase, _⟩ := hinner j _ List.mem_cons_self hj rfl
      obtain ⟨ty, rfl⟩ := Option.isSome_iff_exists.1 hsome
      exact ⟨rfl, hbase.trans hx', rfl⟩
    · rintro ⟨hsome, hx, _⟩ act m w g hg hty hready hw
      obtain ⟨ty, rfl⟩ := Option.isSome_iff_exists.1 hsome
      have hx' : o' = some ty := (typeOf_inst hj).symm.trans hx
      subst hx'
      obtain ⟨a, b, ha, hb, hw⟩ := (Machine.compute_binary hi).1 hw
      cases hb
      -- the inner operation has been executed on the base
      obtain ⟨u', hu', hcompute⟩ := hready.settled j _ List.mem_cons_self hj rfl
      rw [show m.eval act f (.inst j) = m.env j from rfl, hu'] at ha
      cases ha
      obtain ⟨e, b, he, hb, hinner⟩ := (Machine.compute_binary hj).1 hcompute
      cases hb
      have hassoc' := BinOp.fold_assoc hassoc e c'.bits c.bits ty
      rw [hinner, Option.bind_some, hw] at hassoc'
      rw [show op.fold c'.bits c.bits ty = some u from hu, Option.bind_some] at hassoc'
      rw [Machine.compute_binary hg, Machine.eval_of_typeOf hty]
      exact ⟨e, u, he, Machine.eval_int (BinOp.fits_of_fold hu), hassoc'.symm⟩

theorem canonicalPtrAdd?_cases {k : Kind} {o : Option Ty}
    (h : f.canonical? ⟨.ptrAdd x y, o⟩ = .ok (some k)) :
    ∃ j base c c' o', x = .inst j ∧ y = .const c ∧
      f.inst? j = some ⟨.ptrAdd base (.const c'), o'⟩ ∧
      k = .ptrAdd base (.int (c'.bits + c.bits) .i64) := by
  cases x with
  | inst j =>
    cases y with
    | const c =>
      simp only [canonical?] at h
      cases hkind : f.kind j with
      | error e =>
        rw [hkind] at h
        cases h
      | ok kind =>
        obtain ⟨⟨k', o'⟩, hj, rfl⟩ := kind_eq_ok hkind
        rw [hkind] at h
        simp only [bind, Except.bind, pure, Except.pure] at h
        split at h
        · cases h
          exact ⟨j, _, c, _, o', rfl, rfl, hj, rfl⟩
        · cases h
    | _ => cases h
  | _ => cases h

theorem canonical?_canonical {k : Kind} (hi : f.inst? id = some i)
    (h : f.canonical? i = .ok (some k)) : f.Canonical id i k := by
  obtain ⟨kind, o⟩ := i
  cases kind with
  | binary op x y => exact canonicalBinary?_canonical hi h
  | icmp p x y =>
    simp only [canonical?, pure, Except.pure, Except.ok.injEq] at h
    split at h
    · cases h
      refine ⟨rfl, rfl, by rintro _ _ ⟨⟩, trivial, fun v hv => ?_, fun hty _ => ?_, ?_⟩
      · refine .inr (.inl ?_)
        simp only [Kind.operands, List.mem_cons, List.not_mem_nil, or_false] at hv ⊢
        exact hv.symm
      · exact ⟨by rw [hty.2.1]; exact hty.1, hty.2.1.symm, hty.2.2⟩
      · rintro ⟨_, hxy, hbit⟩ act m w g hg hty _ hw
        cases hbit
        obtain ⟨a, b, ha, hb, rfl⟩ := (Machine.compute_icmp hi).1 hw
        rw [Machine.compute_icmp hg, Machine.eval_of_typeOf hty]
        refine ⟨b, a, hb, ha, ?_⟩
        have hword : g.wordTy y = f.wordTy x := by simp only [wordTy, hty, hxy]
        rw [hword, Predicate.fold_swapped]
    · cases h
  | ptrAdd x y =>
    obtain ⟨j, base, c, c', o', rfl, rfl, hj, rfl⟩ := canonicalPtrAdd?_cases h
    refine ⟨rfl, rfl, by rintro _ _ ⟨⟩, rfl, fun v hv => ?_, fun hty hinner => ?_, ?_⟩
    · simp only [Kind.operands, List.mem_cons, List.not_mem_nil, or_false] at hv
      rcases hv with rfl | rfl
      · exact .inr (.inr ⟨j, _, List.mem_cons_self, hj, rfl, List.mem_cons_self⟩)
      · exact .inl ⟨_, rfl⟩
    · obtain ⟨hbase, _, _⟩ := hinner j _ List.mem_cons_self hj rfl
      exact ⟨hbase, rfl, hty.2.2⟩
    · rintro ⟨hx, _, hptr⟩ act m w g hg hty hready hw
      cases hptr
      have hx' : o' = some .ptr := (typeOf_inst hj).symm.trans hx
      subst hx'
      obtain ⟨a, b, ha, hb, rfl⟩ := (Machine.compute_ptrAdd hi).1 hw
      cases hb
      obtain ⟨u, hu, hcompute⟩ := hready.settled j _ List.mem_cons_self hj rfl
      rw [show m.eval act f (.inst j) = m.env j from rfl, hu] at ha
      cases ha
      obtain ⟨e, b, he, hb, rfl⟩ := (Machine.compute_ptrAdd hj).1 hcompute
      cases hb
      rw [Machine.compute_ptrAdd hg, Machine.eval_of_typeOf hty]
      refine ⟨e, c'.bits + c.bits, he, Machine.eval_int (Ty.fits_of_bits_eq rfl _), ?_⟩
      rw [BitVec.add_assoc]
  | _ => cases h

end BinaryLift.Func
