import BinaryLift.Proofs.Run.Visits
import BinaryLift.Proofs.Scalar.Laws

/-!
# What pure instructions compute

For every kind of pure instruction the value that it computes, in terms of the values of its
operands.
-/

namespace BinaryLift.Machine

variable {act : Activation} {f : Func} {m : Machine} {id : InstId} {x y : Value} {ty : Ty} {w : Word}
  {k : Kind} {o : Option Ty}

/-- What a pure instruction of the given kind and result type would compute now. -/
def worth (act : Activation) (f : Func) (m : Machine) (ty : Ty) : Kind → Option Word
  | .binary op x y => do op.fold (← m.eval act f x) (← m.eval act f y) ty
  | .icmp p x y => do
    let a ← m.eval act f x
    let b ← m.eval act f y
    return if p.fold a b (f.wordTy x) then 1 else 0
  | .cast op x => do return op.fold (← m.eval act f x) (f.wordTy x) ty
  | .ptrAdd x y => do return ((← m.eval act f x) + (← m.eval act f y)) &&& ty.mask
  | .select c x y => do
    let k ← m.eval act f c
    let a ← m.eval act f x
    let b ← m.eval act f y
    return (if k ≠ 0 then a else b) &&& ty.mask
  | _ => none

theorem compute_eq_worth (hi : f.inst? id = some ⟨k, o⟩) (hpure : k.isPure = true) :
    m.compute act f id = m.worth act f (o.getD .i64) k := by
  have hty : f.wordTy (.inst id) = o.getD .i64 := Func.wordTy_inst hi
  have hbind : ∀ {x : Value} {g h : Word → Option Word}, (∀ a, g a = h a) →
      (m.eval act f x).bind g = (m.eval act f x).bind h := fun h => by rw [funext h]
  cases k with
  | binary op x y =>
    simp only [compute, worth, hi, Kind.operands, List.mapM_cons, List.mapM_nil, Option.bind_eq_bind,
      Option.bind_assoc, Option.bind_some, Option.pure_def, action, hty]
    refine hbind fun a => hbind fun b => ?_
    cases hw : op.fold a b (o.getD .i64) with
    | none => rfl
    | some w => exact congrArg some (BinOp.fits_of_fold hw)
  | icmp p x y =>
    simp only [compute, worth, hi, Kind.operands, List.mapM_cons, List.mapM_nil, Option.bind_eq_bind,
      Option.bind_assoc, Option.bind_some, Option.pure_def, action, hty]
    exact hbind fun a => hbind fun b => congrArg some (Ty.fits_bool _ _)
  | cast op x =>
    simp only [compute, worth, hi, Kind.operands, List.mapM_cons, List.mapM_nil, Option.bind_eq_bind,
      Option.bind_assoc, Option.bind_some, Option.pure_def, action, hty]
    exact hbind fun a => congrArg some (CastOp.fits_fold _ _ _ _)
  | ptrAdd x y =>
    simp only [compute, worth, hi, Kind.operands, List.mapM_cons, List.mapM_nil, Option.bind_eq_bind,
      Option.bind_assoc, Option.bind_some, Option.pure_def, action, hty]
  | select c x y =>
    simp only [compute, worth, hi, Kind.operands, List.mapM_cons, List.mapM_nil, Option.bind_eq_bind,
      Option.bind_assoc, Option.bind_some, Option.pure_def, action, hty]
  | _ => cases hpure

/-- Operands may be exchanged for others of the same types and values. -/
theorem worth_mapOperands {ρ : Value → Value}
    (hty : ∀ v ∈ k.operands, f.wordTy (ρ v) = f.wordTy v)
    (heval : ∀ v ∈ k.operands, ∀ w, m.eval act f v = some w → m.eval act f (ρ v) = some w)
    (h : m.worth act f ty k = some w) : m.worth act f ty (k.mapOperands ρ) = some w := by
  cases k with
  | binary op x y =>
    simp only [worth, Kind.mapOperands, Option.bind_eq_bind, Option.bind_eq_some_iff] at h ⊢
    obtain ⟨a, ha, b, hb, hw⟩ := h
    exact ⟨a, heval x (by simp [Kind.operands]) a ha, b, heval y (by simp [Kind.operands]) b hb, hw⟩
  | icmp p x y =>
    simp only [worth, Kind.mapOperands, Option.bind_eq_bind, Option.bind_eq_some_iff] at h ⊢
    obtain ⟨a, ha, b, hb, hw⟩ := h
    refine ⟨a, heval x (by simp [Kind.operands]) a ha, b, heval y (by simp [Kind.operands]) b hb, ?_⟩
    rw [hty x (by simp [Kind.operands])]
    exact hw
  | cast op x =>
    simp only [worth, Kind.mapOperands, Option.bind_eq_bind, Option.bind_eq_some_iff] at h ⊢
    obtain ⟨a, ha, hw⟩ := h
    refine ⟨a, heval x (by simp [Kind.operands]) a ha, ?_⟩
    rw [hty x (by simp [Kind.operands])]
    exact hw
  | ptrAdd x y =>
    simp only [worth, Kind.mapOperands, Option.bind_eq_bind, Option.bind_eq_some_iff] at h ⊢
    obtain ⟨a, ha, b, hb, hw⟩ := h
    exact ⟨a, heval x (by simp [Kind.operands]) a ha, b, heval y (by simp [Kind.operands]) b hb, hw⟩
  | select c x y =>
    simp only [worth, Kind.mapOperands, Option.bind_eq_bind, Option.bind_eq_some_iff] at h ⊢
    obtain ⟨d, hd, a, ha, b, hb, hw⟩ := h
    exact ⟨d, heval c (by simp [Kind.operands]) d hd, a, heval x (by simp [Kind.operands]) a ha, b,
      heval y (by simp [Kind.operands]) b hb, hw⟩
  | _ => cases h

/-- What an instruction computes is all that it does. -/
theorem exec_of_compute (hw : m.compute act f id = some w) :
    m.exec act f id = some (m.define id (f.wordTy (.inst id)) w) := by
  simp only [compute, Option.bind_eq_bind, Option.bind_eq_some_iff] at hw
  obtain ⟨i, hi, ws, hws, a, ha, hw⟩ := hw
  cases a with
  | result u =>
    refine exec_eq_some.2 ⟨i, ws, _, hi, hws, ha, ?_⟩
    rw [← Option.some.inj hw]
    simp only [define, perform, BitVec.and_assoc, BitVec.and_self]
  | _ => cases hw

/-! ### Accesses -/

theorem read_fits (m : Machine) (ty : Ty) (p : Place) : ty.Fits (m.read ty p) := by
  cases p with
  | slot s => exact Memory.read_fits _ _ _
  | guest a => exact Memory.read_fits _ _ _

/-- What has been written is read back. -/
theorem read_write (m : Machine) (hw : ty.Fits w) (p : Place) : (m.write ty w p).read ty p = w := by
  cases p with
  | slot s =>
    simp only [read, write, if_true]
    exact Memory.read_write _ _ hw
  | guest a => exact Memory.read_write _ _ hw

/-! ### Kind by kind -/

theorem compute_binary {op : BinOp} (hi : f.inst? id = some ⟨.binary op x y, some ty⟩) :
    m.compute act f id = some w ↔ ∃ a c, m.eval act f x = some a ∧ m.eval act f y = some c ∧
      op.fold a c ty = some w := by
  rw [compute_eq_worth hi rfl]
  simp [worth, Option.bind_eq_some_iff]

theorem compute_icmp {p : Predicate} (hi : f.inst? id = some ⟨.icmp p x y, some .i1⟩) :
    m.compute act f id = some w ↔ ∃ a c, m.eval act f x = some a ∧ m.eval act f y = some c ∧
      w = if p.fold a c (f.wordTy x) then 1 else 0 := by
  rw [compute_eq_worth hi rfl]
  simp [worth, Option.bind_eq_some_iff, eq_comm (a := w)]

theorem compute_cast {op : CastOp} (hi : f.inst? id = some ⟨.cast op x, some ty⟩) :
    m.compute act f id = some w ↔ ∃ a, m.eval act f x = some a ∧ w = op.fold a (f.wordTy x) ty := by
  rw [compute_eq_worth hi rfl]
  simp [worth, Option.bind_eq_some_iff, eq_comm (a := w)]

theorem compute_ptrAdd (hi : f.inst? id = some ⟨.ptrAdd x y, some .ptr⟩) :
    m.compute act f id = some w ↔ ∃ a c, m.eval act f x = some a ∧ m.eval act f y = some c ∧
      w = a + c := by
  have hfits : ∀ u : Word, u &&& Ty.ptr.mask = u := Ty.fits_of_bits_eq rfl
  rw [compute_eq_worth hi rfl]
  simp [worth, Option.bind_eq_some_iff, hfits, eq_comm (a := w)]

theorem compute_select {c : Value} (hi : f.inst? id = some ⟨.select c x y, some ty⟩) :
    m.compute act f id = some w ↔ ∃ k a b, m.eval act f c = some k ∧ m.eval act f x = some a ∧
      m.eval act f y = some b ∧ w = (if k ≠ 0 then a else b) &&& ty.mask := by
  rw [compute_eq_worth hi rfl]
  simp [worth, Option.bind_eq_some_iff, eq_comm (a := w)]

end BinaryLift.Machine
