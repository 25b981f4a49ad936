import BinaryLift.Proofs.Run.Regions
import BinaryLift.Proofs.Scalar.Laws
import BinaryLift.Transform.Stack

/-!
# Stack slots in memory

Two states, one with the stack slots in a reserved region of memory and one with local slots instead.
They agree on calls and on all other memory, and each byte of a local slot is what the region holds at
its place. An action that stays clear of the region and of the local slots keeps this.
-/

namespace BinaryLift

/-- Byte `i` of what lies `offset` bytes behind `p`. -/
def behind (p : Word) (offset : Int) (i : Nat) : Word :=
  p + BitVec.ofInt 64 offset + BitVec.ofNat 64 i

theorem behind_eq (p : Word) (offset : Int) (i : Nat) :
    behind p offset i = p + BitVec.ofInt 64 (offset + i) := by
  rw [behind, BitVec.add_assoc, ← BitVec.ofInt_natCast, ← BitVec.ofInt_add]

/-- Bytes are told apart as long as offsets do not wrap around. -/
theorem behind_inj {p : Word} {x y : Int} {i j : Nat} (hx : -Func.signedSpan ≤ x + i)
    (hx' : x + i < Func.signedSpan) (hy : -Func.signedSpan ≤ y + j) (hy' : y + j < Func.signedSpan)
    (h : behind p x i = behind p y j) : x + i = y + j := by
  rw [behind_eq, behind_eq, BitVec.add_right_inj] at h
  have hint := congrArg BitVec.toInt h
  rw [BitVec.toInt_ofInt, BitVec.toInt_ofInt] at hint
  unfold Func.signedSpan at hx hx' hy hy'
  rwa [Int.bmod_eq_of_le (by omega) (by omega), Int.bmod_eq_of_le (by omega) (by omega)] at hint

theorem Constant.ofInt_signed {c : Constant} (h : c.ty = .i64) :
    BitVec.ofInt 64 c.signed = c.bits := by
  have hbits : c.ty.bits = 64 := by
    rw [h]
    rfl
  rw [Constant.signed, BitVec.ofInt_toInt, ← Ty.fits_of_bits_eq hbits (signExtend c.bits c.ty),
    Ty.signExtend_and_mask, c.masked]

/-! ### States -/

/-- With some more own slots. -/
def Activation.adopt (act : Activation) (ids : List InstId) : Activation :=
  { act with own := fun s => act.own s || decide (s ∈ ids) }

/-- Everything that the action reads or writes is outside the region and none of the slots. -/
def Action.Clear (act : Activation) (region : Word → Prop) (ids : List InstId) (ty : Ty)
    (m : Machine) : Action → Prop
  | .result _ => True
  | .load q => q.Clear region ids ty.bytes
  | .store q t _ => q.Clear region ids t.bytes
  | .call c => act.Avoids region m.calls c m.memory

namespace Machine

/-- Outside the region and the local slots the states look the same, and the local slots hold what the
region holds behind `p`. -/
structure Stacked (region : Word → Prop) (p : Word) (slots : StackSlots)
    (made : List (InstId × StackSlot)) (m m' : Machine) : Prop where
  calls : m'.calls = m.calls
  memory : ∀ a, ¬ region a → m'.memory a = m.memory a
  others : ∀ s, s ∉ made.map (·.1) → m'.slots s = m.slots s
  bytes : ∀ (n : Nat) y x, slots[n]? = some y → made[n]? = some x → ∀ i < x.2.width,
    region (behind p y.1 i) → m'.slots x.1 (BitVec.ofNat 64 i) = m.memory (behind p y.1 i)

variable {act : Activation} {region : Word → Prop} {p : Word} {slots : StackSlots}
  {made : List (InstId × StackSlot)} {m m' : Machine} {id : InstId} {ty : Ty} {a : Action} {q : Place}
  {w : Word} {ids : List InstId}

theorem eval_adopt (m : Machine) (f : Func) : m.eval (act.adopt ids) f = m.eval act f := by
  funext v
  cases v <;> rfl

/-- Pointers other than the adopted slots lead where they did. -/
theorem place_adopt {v : Value} (h : ∀ s, v = .inst s → s ∉ ids) (x : Word) :
    (act.adopt ids).place v x = act.place v x := by
  cases v with
  | const c => rfl
  | arg n => rfl
  | inst s => simp [Activation.place, Activation.adopt, h s rfl]

theorem place_adopted {s : InstId} (hs : s ∈ ids) (x : Word) :
    (act.adopt ids).place (.inst s) x = .slot s := by
  simp [Activation.place, Activation.adopt, hs]

namespace Stacked

theorem read (h : Stacked region p slots made m m') (hq : q.Clear region (made.map (·.1)) ty.bytes) :
    m'.read ty q = m.read ty q := by
  cases q with
  | slot s => simp only [Machine.read, h.others s hq]
  | guest x => exact Memory.read_congr fun i hi => h.memory _ (hq i hi)

/-- What a local slot is read as lies behind `p`. -/
theorem read_slot (h : Stacked region p slots made m m') {n : Nat} {y : Int × StackSlot}
    {x : InstId × StackSlot} (hy : slots[n]? = some y) (hx : made[n]? = some x)
    (hbytes : ty.bytes = x.2.width) (hregion : ∀ k < ty.bytes, region (behind p y.1 k)) :
    m'.read ty (.slot x.1) = m.read ty (.guest (p + BitVec.ofInt 64 y.1)) := by
  refine Memory.read_congr fun k hk => ?_
  rw [show (0 : Word) + BitVec.ofNat 64 k = BitVec.ofNat 64 k from BitVec.zero_add _]
  exact h.bytes n y x hy hx k (hbytes ▸ hk) (hregion k hk)

theorem write (h : Stacked region p slots made m m')
    (hq : q.Clear region (made.map (·.1)) ty.bytes) (w : Word) :
    Stacked region p slots made (m.write ty w q) (m'.write ty w q) := by
  cases q with
  | slot s =>
    refine ⟨h.calls, h.memory, fun t ht => ?_, fun n y x hy hx i hi hr => ?_⟩
    · simp only [Machine.write, h.others s hq, h.others t ht]
    · have hne : x.1 ≠ s := by
        rintro rfl
        exact hq (List.mem_map.2 ⟨x, List.mem_of_getElem? hx, rfl⟩)
      simp only [Machine.write, if_neg hne]
      exact h.bytes n y x hy hx i hi hr
  | guest a =>
    refine ⟨h.calls, fun b hb => Memory.write_congr (h.memory b hb), h.others,
      fun n y x hy hx i hi hr => ?_⟩
    have hsame : m.memory.write a ty w (behind p y.1 i) = m.memory (behind p y.1 i) := by
      refine Memory.write_of_ne fun j hj heq => ?_
      rw [heq] at hr
      exact hq j hj hr
    exact (h.bytes n y x hy hx i hi hr).trans hsame.symm

/-- An action that stays clear of the region does the same in both states. -/
theorem perform (h : Stacked region p slots made m m')
    (ha : a.Clear act region (made.map (·.1)) ty m) :
    Stacked region p slots made (m.perform act id ty a) (m'.perform (act.adopt ids) id ty a) := by
  cases a with
  | result w => exact ⟨h.calls, h.memory, h.others, h.bytes⟩
  | load q => exact ⟨h.calls, h.memory, h.others, h.bytes⟩
  | store q t w => exact h.write ha w
  | call c =>
    obtain ⟨hother, hkept⟩ := ha
    obtain ⟨_, hmemory⟩ := hother m'.memory h.memory
    refine ⟨congrArg (· ++ [c]) h.calls, fun x hx => ?_, h.others, fun n y x hy hx i hi hr => ?_⟩
    · show (act.answer m'.calls c m'.memory).2 x = (act.answer m.calls c m.memory).2 x
      rw [h.calls, hmemory x hx]
    · show m'.slots x.1 (BitVec.ofNat 64 i) = (act.answer m.calls c m.memory).2 (behind p y.1 i)
      rw [hkept _ hr]
      exact h.bytes n y x hy hx i hi hr

theorem env_perform (h : Stacked region p slots made m m')
    (ha : a.Clear act region (made.map (·.1)) ty m)
    (hstore : ∀ q t u, a = .store q t u → m.env id = none)
    (hw : (m.perform act id ty a).env id = some w) :
    (m'.perform (act.adopt ids) id ty a).env id = some w := by
  cases a with
  | result u =>
    simp only [Machine.perform, Machine.define, if_true] at hw ⊢
    exact hw
  | load q =>
    simp only [Machine.perform, Machine.define, if_true] at hw ⊢
    rw [h.read ha]
    exact hw
  | store q t u =>
    simp only [Machine.perform, env_write, hstore q t u rfl] at hw
    cases hw
  | call c =>
    obtain ⟨hanswer, _⟩ := ha.1 m'.memory h.memory
    simp only [Machine.perform, Machine.define, if_true] at hw ⊢
    rw [← hw, h.calls]
    exact congrArg (fun u => some (u &&& ty.mask)) hanswer

end Stacked

end Machine

end BinaryLift
