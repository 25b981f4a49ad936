import BinaryLift.Proofs.Transform.CombinedValues

/-!
# Conversions that are left out

A conversion between equal types, one of a constant and one that undoes another are replaced. The
replacement has the same payload with one exception: of two conversions that take a pointer to an
integer and back only the outer types are compared, so what does not fit the integer in between is
lost by the conversions but not by the replacement.
-/

namespace BinaryLift

instance (op : CastOp) (source target : Ty) : Decidable (op.Admits source target) :=
  match op with
  | .trunc => inferInstanceAs (Decidable (_ ≤ _))
  | .zext => inferInstanceAs (Decidable (_ ≤ _))
  | .sext => inferInstanceAs (Decidable (_ ≤ _))
  | .ptrtoint => inferInstanceAs (Decidable (_ ∧ _))
  | .inttoptr => inferInstanceAs (Decidable (_ ∧ _))

namespace CastOp

theorem fold_same (op : CastOp) {ty : Ty} {a : Word} (h : ty.Fits a) : op.fold a ty ty = a := by
  have ha : a &&& ty.mask = a := h
  cases op with
  | sext => simp only [fold, Ty.signExtend_and_mask, ha]
  | _ => simp only [fold, ha]

/-- A pointer as an integer and back keeps what fits the integer. -/
theorem fold_pointer (a : Word) (ty : Ty) :
    inttoptr.fold (ptrtoint.fold a .ptr ty) ty .ptr = a &&& ty.mask := by
  have hptr : ∀ w : Word, w &&& Ty.ptr.mask = w := Ty.fits_of_bits_eq rfl
  simp only [fold, hptr, BitVec.and_assoc, BitVec.and_self]

end CastOp

namespace Func

variable {f : Func} {op inner : CastOp} {x u v : Value} {j : InstId} {source target ty : Ty}
  {a : Word} {ρ : Value → Word}

/-- Payloads of values as a conversion of `x` can find them: a constant has its own, a typed value
has one that fits, and if `x` is the result of a conversion it has what that gives. -/
structure PayloadsAt (f : Func) (x : Value) (ρ : Value → Word) : Prop where
  const : ∀ c, ρ (.const c) = c.bits
  fits : ∀ v ty, f.typeOf v = some ty → ty.Fits (ρ v)
  converted : ∀ j inner u source target, x = .inst j →
    f.inst? j = some ⟨.cast inner u, some target⟩ → f.typeOf u = some source →
    ρ x = inner.fold (ρ u) source target

/-- The pointer that is taken back from an integer has fitted into it. -/
def KeepsPointer (f : Func) (op : CastOp) (x : Value) (ρ : Value → Word) : Prop :=
  ∀ j u ty, x = .inst j → f.inst? j = some ⟨.cast .ptrtoint u, some ty⟩ → op = .inttoptr →
    ty.Fits (ρ u)

/-- The conversion whose result is converted again suits its types. -/
def SourceAdmits (f : Func) (x : Value) : Prop :=
  ∀ j inner u source target, x = .inst j → f.inst? j = some ⟨.cast inner u, some target⟩ →
    f.typeOf u = some source → inner.Admits source target

/-- Every payload of what is converted first occurs. -/
theorem exists_payloadsAt (hj : f.inst? j = some ⟨.cast inner u, some target⟩)
    (hu : f.typeOf u = some source) (hconst : u.isConst = false) (hne : u ≠ .inst j)
    (ha : source.Fits a) : ∃ ρ, f.PayloadsAt (.inst j) ρ ∧ ρ u = a := by
  refine ⟨fun v => if v = u then a else if v = .inst j then inner.fold a source target
    else v.bits?.getD 0, ⟨?_, ?_, ?_⟩, if_pos rfl⟩
  · intro c
    have hcu : Value.const c ≠ u := by
      rintro rfl
      cases hconst
    rw [if_neg hcu, if_neg (by simp)]
    rfl
  · intro v ty hty
    by_cases hvu : v = u
    · subst hvu
      rw [hu] at hty
      cases hty
      rwa [if_pos rfl]
    · rw [if_neg hvu]
      by_cases hvj : v = .inst j
      · subst hvj
        rw [if_pos rfl]
        rw [typeOf_inst hj] at hty
        cases hty
        exact CastOp.fits_fold _ _ _ _
      · rw [if_neg hvj]
        cases v with
        | const c =>
          cases hty
          exact c.masked
        | _ => exact ty.fits_zero
  · rintro j' inner' u' source' target' hx hi hu'
    cases hx
    rw [hj] at hi
    cases hi
    rw [hu] at hu'
    cases hu'
    rw [if_neg hne.symm, if_pos rfl, if_pos rfl]

theorem keepsPointer_iff (hj : f.inst? j = some ⟨.cast .ptrtoint v, some source⟩) :
    f.KeepsPointer .inttoptr (.inst j) ρ ↔ source.Fits (ρ v) := by
  constructor
  · intro hkeeps
    exact hkeeps j v source rfl hj rfl
  · rintro hfits j' u ty ⟨⟩ hi -
    rw [hj] at hi
    cases hi
    exact hfits

theorem keepsPointer_of_ne {o : Option Ty} (hj : f.inst? j = some ⟨.cast inner v, o⟩)
    (hinner : inner ≠ .ptrtoint) : f.KeepsPointer op (.inst j) ρ := by
  rintro j' u ty ⟨⟩ hi -
  rw [hj] at hi
  cases hi
  exact absurd rfl hinner

/-- The replacement of a conversion has the payload that the conversion gives, except for a pointer
that has not fitted. -/
theorem simplifyCast?_payload (hx : f.typeOf x = some source) (hop : op.Admits source target)
    (hinner : f.SourceAdmits x) (h : f.simplifyCast? op x target = .ok (some v))
    (hρ : f.PayloadsAt x ρ) : ρ v = op.fold (ρ x) source target ↔ f.KeepsPointer op x ρ := by
  rcases simplifyCast?_cases h with ⟨k, rfl, rfl⟩ | ⟨rfl, hty, hresizes⟩ |
    ⟨j, inner, o, rfl, hj, hv, hundoes⟩
  · cases hx
    apply iff_of_true
    · rw [Value.int, hρ.const, hρ.const]
      exact CastOp.fits_fold op k.bits k.ty target
    · rintro j u ty ⟨⟩
  · rw [hx] at hty
    cases hty
    apply iff_of_true
    · exact (CastOp.fold_same op (hρ.fits v source hx)).symm
    · rintro j u ty - - rfl
      cases hresizes
  · have ho : o = some source := by rw [← hx, typeOf_inst hj]
    subst ho
    have hadmits := hinner j inner v target source rfl hj hv
    have hfits := hρ.fits v target hv
    rw [hρ.converted j inner v target source rfl hj hv]
    by_cases hpointer : inner = .ptrtoint
    · subst hpointer
      obtain rfl : target = .ptr := hadmits.1
      cases op with
      | inttoptr =>
        rw [CastOp.fold_pointer, keepsPointer_iff hj]
        exact eq_comm
      | _ => cases hundoes
    · obtain ⟨hback, hle⟩ := undoes_bits hundoes hadmits (fun h => absurd h hpointer)
      apply iff_of_true
      · exact (CastOp.fold_back hback hfits hle).symm
      · exact keepsPointer_of_ne hj hpointer

/-- A pointer as an integer of the given type and back. -/
def pointerTrip (ty : Ty) : Func where
  name := "sample"
  params := [⟨"p", .ptr⟩]
  ret := some .ptr
  arena := #[
    ⟨⟨.cast .ptrtoint (.arg 0), some ty⟩, some ⟨0⟩⟩,
    ⟨⟨.cast .inttoptr (.inst ⟨0⟩), some .ptr⟩, some ⟨0⟩⟩]
  blocks := #[some { insts := [⟨0⟩, ⟨1⟩], term := .ret (some (.inst ⟨1⟩)) }]
  entry := some ⟨0⟩

theorem pointerTrip_inst? (ty : Ty) :
    (pointerTrip ty).inst? ⟨0⟩ = some ⟨.cast .ptrtoint (.arg 0), some ty⟩ :=
  rfl

theorem pointerTrip_sourceAdmits (hty : ty ≠ .ptr) : (pointerTrip ty).SourceAdmits (.inst ⟨0⟩) := by
  rintro j inner u source target ⟨⟩ hi hu
  rw [pointerTrip_inst?] at hi
  cases hi
  cases hu
  exact ⟨rfl, hty⟩

theorem pointerTrip_payloads (ty : Ty) (a : Word) :
    ∃ ρ, (pointerTrip ty).PayloadsAt (.inst ⟨0⟩) ρ ∧ ρ (.arg 0) = a :=
  exists_payloadsAt (pointerTrip_inst? ty) rfl rfl (by simp) (Ty.fits_of_bits_eq rfl a)

/-- Through a full word the pointer comes back. -/
theorem pointerTrip_kept : ∃ ρ, (pointerTrip .i64).PayloadsAt (.inst ⟨0⟩) ρ ∧
    ρ (.arg 0) = 0x100000000 ∧
    ρ (.arg 0) = CastOp.inttoptr.fold (ρ (.inst ⟨0⟩)) .i64 .ptr := by
  obtain ⟨ρ, hρ, ha⟩ := pointerTrip_payloads .i64 0x100000000
  refine ⟨ρ, hρ, ha, (simplifyCast?_payload rfl (by decide) (pointerTrip_sourceAdmits (by decide))
    rfl hρ).2 ?_⟩
  rintro j u ty ⟨⟩ hi -
  rw [pointerTrip_inst?] at hi
  cases hi
  exact Ty.fits_of_bits_eq rfl _

/-- Through half a word it comes back cut, and is replaced all the same. -/
theorem pointerTrip_not_equal : ¬ ∀ (f : Func) (op : CastOp) (x v : Value) (source target : Ty)
    (ρ : Value → Word), f.typeOf x = some source → op.Admits source target → f.SourceAdmits x →
    f.simplifyCast? op x target = .ok (some v) → f.PayloadsAt x ρ →
    ρ v = op.fold (ρ x) source target := by
  intro h
  obtain ⟨ρ, hρ, ha⟩ := pointerTrip_payloads .i32 0x100000000
  have hcut : ρ (.inst ⟨0⟩) = 0 := by
    rw [hρ.converted _ _ _ .ptr _ rfl (pointerTrip_inst? .i32) rfl, ha]
    decide
  have hequal := h (pointerTrip .i32) .inttoptr (.inst ⟨0⟩) (.arg 0) .i32 .ptr ρ rfl (by decide)
    (pointerTrip_sourceAdmits (by decide)) rfl hρ
  rw [ha, hcut] at hequal
  exact absurd hequal (by decide)

end Func

end BinaryLift
