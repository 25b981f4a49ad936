import BinaryLift.Proofs.Run.Computed

/-!
# Values of combined instructions

What the rules of combination rely on is a state in which the operands of an instruction are settled.
There the value that replaces an instruction is equal to it.
-/

namespace BinaryLift

namespace Machine

variable {act : Activation} {f : Func} {m : Machine} {id : InstId} {x y : Value} {ty : Ty} {w : Word}

/-- The operands of `kind` that are pure instructions are typed, have the values that their own
operands give them, and are full words where they come from pointers. -/
structure Ready (act : Activation) (f : Func) (m : Machine) (kind : Kind) : Prop where
  tame : m.Tame f
  typed : ∀ j i, .inst j ∈ kind.operands → f.inst? j = some i → i.kind.isPure = true →
    i.kind.Typed f i.ty
  settled : ∀ j i, .inst j ∈ kind.operands → f.inst? j = some i → i.kind.isPure = true →
    ∃ w, m.env j = some w ∧ m.compute act f j = some w
  wide : ∀ j v t, .inst j ∈ kind.operands → f.inst? j = some ⟨.cast .ptrtoint v, some t⟩ →
    t.bits = 64

theorem Tame.fits_typeOf (h : m.Tame f) (hx : f.typeOf x = some ty) (ha : m.eval act f x = some w) :
    ty.Fits w := by
  have hfits := h.eval ha
  rwa [Func.wordTy, hx] at hfits

theorem eval_int (hw : ty.Fits w) : m.eval act f (.int w ty) = some w := congrArg some hw

end Machine

/-- The types that suit a conversion: what cuts does not widen, what extends does not narrow, and
pointers are converted to and from integers of any width. -/
def CastOp.Admits (op : CastOp) (source target : Ty) : Prop :=
  match op with
  | .trunc => target.bits ≤ source.bits
  | .zext => source.bits ≤ target.bits
  | .sext => source.bits ≤ target.bits
  | .ptrtoint => source = .ptr ∧ target ≠ .ptr
  | .inttoptr => source ≠ .ptr ∧ target = .ptr

theorem Kind.CastTyped.admits {op : CastOp} {source target : Ty}
    (h : Kind.CastTyped op (some source) (some target)) : op.Admits source target := by
  cases op with
  | trunc => exact Nat.le_of_lt h.1
  | zext => exact Nat.le_of_lt h.1
  | sext => exact Nat.le_of_lt h.1
  | ptrtoint => exact h
  | inttoptr => exact h

namespace Func

variable {act : Activation} {f : Func} {m : Machine} {id : InstId} {i : Inst} {x y v : Value}
  {ty : Ty} {a c w : Word} {op : BinOp}

/-- The value is a constant, an operand of the kind, or an operand of a pure instruction that is an
operand of the kind. -/
def Derives (f : Func) (k : Kind) (v : Value) : Prop :=
  (∃ c, v = .const c) ∨ v ∈ k.operands ∨
  ∃ j i, .inst j ∈ k.operands ∧ f.inst? j = some i ∧ i.kind.isPure = true ∧ v ∈ i.kind.operands

/-! ### Binary operations and comparisons -/

/-- Either the left operand is kept or the result is a constant. -/
theorem absorb?_spec {k : Constant} (h : absorb? op x k ty = some v) :
    (v = x ∧ (k.ty = ty → ∀ a, ty.Fits a → op.fold a k.bits ty = some a)) ∨
      ∃ w, v = .int w ty ∧ ty.Fits w ∧ (k.ty = ty → ∀ a, op.fold a k.bits ty = some w) := by
  have hzero : k.isZero = true → k.bits = 0 := fun hz => by simpa [Constant.isZero] using hz
  have hones : k.isAllOnes = true → k.ty = ty → k.bits = ty.mask := fun ho hk => by
    simpa [Constant.isAllOnes, hk] using ho
  have hkeep : op.keepsAtZero = true → k.isZero = true →
      ∀ a, ty.Fits a → op.fold a k.bits ty = some a := by
    intro hop hz a ha
    rw [hzero hz]
    exact BinOp.fold_zero hop ha
  cases op with
  | udiv =>
    obtain ⟨hone, rfl⟩ : k.bits = 1 ∧ x = v := by simpa [absorb?] using h
    exact .inl ⟨rfl, fun _ a ha => by rw [hone, BinOp.fold_udiv_one ha]⟩
  | sdiv =>
    obtain ⟨hone, rfl⟩ : k.bits = 1 ∧ x = v := by simpa [absorb?] using h
    exact .inl ⟨rfl, fun _ a ha => by rw [hone, BinOp.fold_sdiv_one ha]⟩
  | urem => cases h
  | srem => cases h
  | or =>
    simp only [absorb?] at h
    split at h
    · rename_i hz
      exact .inl ⟨(Option.some.inj h).symm, fun _ => hkeep rfl hz⟩
    · split at h
      · rename_i ho
        refine .inr ⟨ty.mask, (Option.some.inj h).symm, BitVec.and_self, fun hk a => ?_⟩
        rw [hones ho hk, BinOp.fold_or_mask]
      · cases h
  | mul =>
    simp only [absorb?] at h
    split at h
    · rename_i hz
      refine .inr ⟨0, (Option.some.inj h).symm, ty.fits_zero, fun _ a => ?_⟩
      rw [hzero hz, BinOp.fold_mul_zero]
    · split at h
      · rename_i hone
        exact .inl ⟨(Option.some.inj h).symm, fun _ a ha => by rw [hone, BinOp.fold_mul_one ha]⟩
      · cases h
  | and =>
    simp only [absorb?] at h
    split at h
    · rename_i hz
      refine .inr ⟨0, (Option.some.inj h).symm, ty.fits_zero, fun _ a => ?_⟩
      rw [hzero hz, BinOp.fold_and_zero]
    · split at h
      · rename_i ho
        refine .inl ⟨(Option.some.inj h).symm, fun hk a ha => ?_⟩
        rw [hones ho hk, BinOp.fold_and_mask ha]
      · cases h
  | _ =>
    obtain ⟨hz, rfl⟩ : k.isZero = true ∧ x = v := by simpa [absorb?] using h
    exact .inl ⟨rfl, fun _ => hkeep rfl hz⟩

theorem selfApplied?_spec (h : selfApplied? op x ty = some v) :
    (v = x ∧ ∀ a, ty.Fits a → op.fold a a ty = some a) ∨
      ∃ w, v = .int w ty ∧ ty.Fits w ∧ ∀ a, op.fold a a ty = some w := by
  cases op with
  | sub => exact .inr ⟨0, (Option.some.inj h).symm, ty.fits_zero, fun a => BinOp.fold_sub_self a ty⟩
  | xor => exact .inr ⟨0, (Option.some.inj h).symm, ty.fits_zero, fun a => BinOp.fold_xor_self a ty⟩
  | and => exact .inl ⟨(Option.some.inj h).symm, fun a ha => BinOp.fold_and_self ha⟩
  | or => exact .inl ⟨(Option.some.inj h).symm, fun a ha => BinOp.fold_or_self ha⟩
  | _ => cases h

/-- What a replacement of a binary operation is. -/
theorem simplifyBinary?_cases (h : simplifyBinary? op x y ty = some v) :
    (∃ k l u, x = .const k ∧ y = .const l ∧ op.fold k.bits l.bits ty = some u ∧ v = .int u ty) ∨
    (∃ k, y = .const k ∧ absorb? op x k ty = some v) ∨ (x = y ∧ selfApplied? op x ty = some v) := by
  have hrest : ((y.const?.bind fun c => absorb? op x c ty) <|>
      (if x = y then selfApplied? op x ty else none)) = some v →
      (∃ k, y = .const k ∧ absorb? op x k ty = some v) ∨ (x = y ∧ selfApplied? op x ty = some v) := by
    intro hor
    rw [Option.orElse_eq_orElse, Option.orElse_eq_or, Option.or_eq_some_iff] at hor
    rcases hor with hleft | ⟨_, hright⟩
    · obtain ⟨k, hk, habsorb⟩ := Option.bind_eq_some_iff.1 hleft
      cases y with
      | const l =>
        cases hk
        exact .inl ⟨_, rfl, habsorb⟩
      | _ => cases hk
    · split at hright
      · rename_i heq
        exact .inr ⟨heq, hright⟩
      · cases hright
  unfold simplifyBinary? at h
  split at h
  · obtain ⟨u, hu, rfl⟩ := Option.map_eq_some_iff.1 h
    exact .inl ⟨_, _, u, rfl, rfl, hu, rfl⟩
  · exact .inr (hrest h)

/-- What a value has to be in order to replace an instruction that is typed: it derives from the
operands, has the type of the result and is equal to it. -/
structure Replaces (f : Func) (id : InstId) (i : Inst) (v : Value) : Prop where
  pure : i.kind.isPure = true
  derives : f.Derives i.kind v
  typeOf : i.kind.Typed f i.ty → f.typeOf v = i.ty
  value : i.kind.Typed f i.ty → ∀ (act : Activation) (m : Machine) (w : Word),
    m.Ready act f i.kind → m.compute act f id = some w → m.eval act f v = some w

theorem simplifyBinary?_shape (h : simplifyBinary? op x y ty = some v) :
    v = x ∨ ∃ w, v = .int w ty := by
  rcases simplifyBinary?_cases h with ⟨_, _, u, _, _, _, rfl⟩ | ⟨k, rfl, hv⟩ | ⟨rfl, hv⟩
  · exact .inr ⟨u, rfl⟩
  · exact (absorb?_spec hv).imp (·.1) fun ⟨w, hw, _⟩ => ⟨w, hw⟩
  · exact (selfApplied?_spec hv).imp (·.1) fun ⟨w, hw, _⟩ => ⟨w, hw⟩

theorem simplifyBinary?_replaces (hi : f.inst? id = some ⟨.binary op x y, some ty⟩)
    (h : simplifyBinary? op x y ty = some v) :
    f.Replaces id ⟨.binary op x y, some ty⟩ v where
  pure := rfl
  derives := by
    rcases simplifyBinary?_shape h with rfl | ⟨w, rfl⟩
    · exact .inr (.inl List.mem_cons_self)
    · exact .inl ⟨_, rfl⟩
  typeOf := by
    rintro ⟨_, hx, _⟩
    rcases simplifyBinary?_shape h with rfl | ⟨w, rfl⟩
    · exact hx
    · rfl
  value := by
    rintro ⟨_, hx, hy⟩ act m w hready hw
    obtain ⟨a, c, ha, hc, hw⟩ := (Machine.compute_binary hi).1 hw
    have hfits := hready.tame.fits_typeOf hx ha
    rcases simplifyBinary?_cases h with ⟨k, l, u, rfl, rfl, hu, rfl⟩ | ⟨k, rfl, hv⟩ | ⟨rfl, hv⟩
    · cases ha
      cases hc
      rw [hw] at hu
      cases hu
      exact Machine.eval_int (BinOp.fits_of_fold hw)
    · cases hc
      rcases absorb?_spec hv with ⟨rfl, hkeep⟩ | ⟨u, rfl, hu, hconst⟩
      · rw [ha, ← hw, hkeep (Option.some.inj hy) a hfits]
      · rw [hconst (Option.some.inj hy) a] at hw
        cases hw
        exact Machine.eval_int hu
    · rw [ha] at hc
      cases hc
      rcases selfApplied?_spec hv with ⟨rfl, hkeep⟩ | ⟨u, rfl, hu, hconst⟩
      · rw [ha, ← hw, hkeep a hfits]
      · rw [hconst a] at hw
        cases hw
        exact Machine.eval_int hu

theorem simplifyIcmp?_replaces {p : Predicate} (hi : f.inst? id = some ⟨.icmp p x y, some ty⟩)
    (h : simplifyIcmp? p x y = some v) : f.Replaces id ⟨.icmp p x y, some ty⟩ v := by
  have hshape : ∃ r : Bool, v = .bool r ∧ ((∃ k l, x = .const k ∧ y = .const l ∧
      r = p.fold k.bits l.bits k.ty) ∨ (x = y ∧ r = p.isReflexive)) := by
    unfold simplifyIcmp? at h
    split at h
    · exact ⟨_, (Option.some.inj h).symm, .inl ⟨_, _, rfl, rfl, rfl⟩⟩
    · split at h
      · rename_i heq
        exact ⟨_, (Option.some.inj h).symm, .inr ⟨heq, rfl⟩⟩
      · cases h
  obtain ⟨r, rfl, hr⟩ := hshape
  refine ⟨rfl, .inl ⟨_, rfl⟩, fun hty => hty.2.2.symm, ?_⟩
  rintro ⟨_, _, hi1⟩ act m w hready hw
  cases hi1
  obtain ⟨a, c, ha, hc, rfl⟩ := (Machine.compute_icmp hi).1 hw
  have hvalue : p.fold a c (f.wordTy x) = r := by
    rcases hr with ⟨k, l, rfl, rfl, rfl⟩ | ⟨rfl, rfl⟩
    · cases ha
      cases hc
      rfl
    · rw [ha] at hc
      cases hc
      exact p.fold_self a _
  rw [hvalue]
  exact Machine.eval_int (Ty.fits_bool _ _)

theorem simplifyPtrAdd_replaces (hi : f.inst? id = some ⟨.ptrAdd x y, some ty⟩)
    (h : y.bits? = some 0) : f.Replaces id ⟨.ptrAdd x y, some ty⟩ x where
  pure := rfl
  derives := .inr (.inl List.mem_cons_self)
  typeOf := fun hty => hty.1.trans hty.2.2.symm
  value := by
    rintro ⟨_, _, hptr⟩ act m w hready hw
    cases hptr
    obtain ⟨a, c, ha, hc, rfl⟩ := (Machine.compute_ptrAdd hi).1 hw
    cases y with
    | const k =>
      cases hc
      have hzero : k.bits = 0 := Option.some.inj h
      rw [ha, hzero]
      simp
    | _ => cases h

theorem simplifySelect_replaces {cond : Value} {k : Word}
    (hi : f.inst? id = some ⟨.select cond x y, some ty⟩) (h : cond.bits? = some k) :
    f.Replaces id ⟨.select cond x y, some ty⟩ (if k = 0 then y else x) where
  pure := rfl
  derives := by
    refine .inr (.inl ?_)
    split <;> simp [Kind.operands]
  typeOf := by
    rintro ⟨_, _, hx, hy⟩
    split
    · exact hy
    · exact hx
  value := by
    rintro ⟨_, _, hx, hy⟩ act m w hready hw
    obtain ⟨k', a, b, hk', ha, hb, rfl⟩ := (Machine.compute_select hi).1 hw
    cases cond with
    | const l =>
      cases hk'
      have hbits : l.bits = k := Option.some.inj h
      rw [hbits]
      by_cases hzero : k = 0
      · rw [if_pos hzero, if_neg (not_not.2 hzero), hb]
        exact congrArg some (hready.tame.fits_typeOf hy hb).symm
      · rw [if_neg hzero, if_pos hzero, ha]
        exact congrArg some (hready.tame.fits_typeOf hx ha).symm
    | _ => cases h

theorem simplifySame_replaces {cond : Value} (hi : f.inst? id = some ⟨.select cond x x, some ty⟩) :
    f.Replaces id ⟨.select cond x x, some ty⟩ x where
  pure := rfl
  derives := .inr (.inl (by simp [Kind.operands]))
  typeOf := fun hty => hty.2.2.1
  value := by
    rintro ⟨_, _, hx, _⟩ act m w hready hw
    obtain ⟨k, a, b, _, ha, hb, rfl⟩ := (Machine.compute_select hi).1 hw
    rw [ha] at hb
    cases hb
    rw [ite_self, ha]
    exact congrArg some (hready.tame.fits_typeOf hx ha).symm

/-- What a replacement of a conversion is. -/
theorem simplifyCast?_cases {op : CastOp} (h : f.simplifyCast? op x ty = .ok (some v)) :
    (∃ k, x = .const k ∧ v = .int (op.fold k.bits k.ty ty) ty) ∨
    (v = x ∧ f.typeOf x = some ty ∧ op.resizes = true) ∨
    ∃ j inner o, x = .inst j ∧ f.inst? j = some ⟨.cast inner v, o⟩ ∧ f.typeOf v = some ty ∧
      undoes inner op = true := by
  unfold simplifyCast? at h
  cases hsource : f.valueTy x with
  | error e =>
    rw [hsource] at h
    cases h
  | ok source =>
    rw [hsource] at h
    have htyx := valueTy_eq_ok hsource
    simp only [bind, Except.bind] at h
    cases source with
    | none => cases h
    | some source =>
      cases x with
      | const k =>
        simp only [pure, Except.pure, Except.ok.injEq] at h
        cases htyx
        split at h
        · cases h
        · exact .inl ⟨k, rfl, (Option.some.inj h).symm⟩
      | arg n =>
        simp only [pure, Except.pure, Except.ok.injEq] at h
        split at h
        · rename_i hsame
          cases h
          exact .inr (.inl ⟨rfl, hsame.1 ▸ htyx.symm, hsame.2⟩)
        · cases h
      | inst j =>
        simp only [pure, Except.pure] at h
        split at h
        · rename_i hsame
          cases h
          exact .inr (.inl ⟨rfl, hsame.1 ▸ htyx.symm, hsame.2⟩)
        · cases hkind : f.kind j with
          | error e =>
            rw [hkind] at h
            cases h
          | ok kind =>
            obtain ⟨⟨k, o⟩, hj, rfl⟩ := kind_eq_ok hkind
            rw [hkind] at h
            cases k with
            | cast inner u =>
              simp only at h
              cases hinner : f.valueTy u with
              | error e =>
                rw [hinner] at h
                cases h
              | ok t =>
                rw [hinner] at h
                simp only [Except.ok.injEq] at h
                split at h
                · rename_i hback
                  cases h
                  refine .inr (.inr ⟨j, inner, o, rfl, hj, ?_, hback.2⟩)
                  rw [← valueTy_eq_ok hinner, hback.1]
                · cases h
            | _ => cases h

/-- What one conversion makes wider the other one cuts again. -/
theorem undoes_bits {inner op : CastOp} {source target : Ty} (hundoes : undoes inner op = true)
    (hadmits : inner.Admits source target) (hwide : inner = .ptrtoint → target.bits = 64) :
    op ≠ .sext ∧ source.bits ≤ target.bits := by
  cases inner with
  | trunc => cases hundoes
  | zext =>
    cases op with
    | trunc => exact ⟨nofun, hadmits⟩
    | _ => cases hundoes
  | sext =>
    cases op with
    | trunc => exact ⟨nofun, hadmits⟩
    | _ => cases hundoes
  | ptrtoint =>
    cases op with
    | inttoptr => exact ⟨nofun, hwide rfl ▸ source.bits_le⟩
    | _ => cases hundoes
  | inttoptr =>
    cases op with
    | ptrtoint => exact ⟨nofun, hadmits.2 ▸ source.bits_le⟩
    | _ => cases hundoes

theorem not_resizes_of_typed {op : CastOp} (htyped : Kind.CastTyped op (some ty) (some ty)) :
    op.resizes = false := by
  cases op with
  | trunc => exact absurd htyped.1 (Nat.lt_irrefl _)
  | zext => exact absurd htyped.1 (Nat.lt_irrefl _)
  | sext => exact absurd htyped.1 (Nat.lt_irrefl _)
  | ptrtoint => rfl
  | inttoptr => rfl

theorem simplifyCast?_replaces {op : CastOp} (hi : f.inst? id = some ⟨.cast op x, some ty⟩)
    (h : f.simplifyCast? op x ty = .ok (some v)) : f.Replaces id ⟨.cast op x, some ty⟩ v where
  pure := rfl
  derives := by
    rcases simplifyCast?_cases h with ⟨k, _, rfl⟩ | ⟨rfl, _⟩ | ⟨j, inner, o, rfl, hj, _⟩
    · exact .inl ⟨_, rfl⟩
    · exact .inr (.inl List.mem_cons_self)
    · exact .inr (.inr ⟨j, _, List.mem_cons_self, hj, rfl, List.mem_cons_self⟩)
  typeOf := by
    intro _
    rcases simplifyCast?_cases h with ⟨k, _, rfl⟩ | ⟨rfl, hty, _⟩ | ⟨j, inner, o, rfl, hj, hty, _⟩
    · rfl
    · exact hty
    · exact hty
  value := by
    intro htyped act m w hready hw
    obtain ⟨a, ha, rfl⟩ := (Machine.compute_cast hi).1 hw
    rcases simplifyCast?_cases h with ⟨k, rfl, rfl⟩ | ⟨rfl, hty, hresizes⟩ |
      ⟨j, inner, o, rfl, hj, hty, hundoes⟩
    · cases ha
      exact Machine.eval_int (CastOp.fits_fold op _ _ ty)
    · -- a typed conversion between equal types is none that resizes
      have htyped' : Kind.CastTyped op (some ty) (some ty) := hty ▸ htyped
      rw [not_resizes_of_typed htyped'] at hresizes
      cases hresizes
    · obtain ⟨u, hu, hcompute⟩ := hready.settled j _ List.mem_cons_self hj rfl
      rw [show m.eval act f (.inst j) = m.env j from rfl, hu] at ha
      cases ha
      have hinner := hready.typed j _ List.mem_cons_self hj rfl
      simp only [Kind.Typed, hty] at hinner
      cases o with
      | none => exact hinner.elim
      | some target =>
        obtain ⟨d, hd, rfl⟩ := (Machine.compute_cast hj).1 hcompute
        have hwide : inner = .ptrtoint → target.bits = 64 := by
          rintro rfl
          exact hready.wide j v target List.mem_cons_self hj
        obtain ⟨hback, hle⟩ := undoes_bits hundoes hinner.admits hwide
        have hsource : f.wordTy v = ty := by rw [wordTy, hty]; rfl
        have htarget : f.wordTy (.inst j) = target := by rw [wordTy_inst hj]; rfl
        rw [hd, hsource, htarget, CastOp.fold_back hback (hready.tame.fits_typeOf hty hd) hle]

/-- Every replacement but that of a phi. -/
theorem simplify?_replaces {d : DomTree} (hi : f.inst? id = some i) (hphi : i.kind.isPhi = false)
    (h : f.simplify? d id = .ok (some v)) : f.Replaces id i v := by
  obtain ⟨kind, o⟩ := i
  unfold simplify? inst at h
  rw [hi] at h
  simp only [bind, Except.bind] at h
  cases o with
  | none => cases h
  | some ty =>
    cases kind with
    | binary op x y => exact simplifyBinary?_replaces hi (Except.ok.inj h)
    | icmp p x y => exact simplifyIcmp?_replaces hi (Except.ok.inj h)
    | cast op x => exact simplifyCast?_replaces hi h
    | ptrAdd x y =>
      simp only [pure, Except.pure, Except.ok.injEq] at h
      split at h
      · rename_i hzero
        cases h
        exact simplifyPtrAdd_replaces hi hzero
      · cases h
    | select c x y =>
      simp only at h
      split at h
      · rename_i k hk
        cases h
        exact simplifySelect_replaces hi hk
      · simp only [pure, Except.pure, Except.ok.injEq] at h
        split at h
        · rename_i heq
          cases h
          subst heq
          exact simplifySame_replaces hi
        · cases h
    | phi inc => cases hphi
    | _ => cases h

end Func

end BinaryLift
