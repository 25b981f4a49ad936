/-!
# Machine words

Addresses and constant payloads are 64-bit words. Plain `+` and `-` wrap; the operations here say
what happens at the ends of the address space instead. A word is written in lower-case hexadecimal
with a `0x` mark and no leading zeros.
-/

namespace BinaryLift

/-- A 64-bit machine word. -/
abbrev Word := BitVec 64

/-- An octet of a loaded image. -/
abbrev Byte := BitVec 8

namespace Word

/-- The largest word. -/
def top : Word := BitVec.allOnes 64

/-- The sum, if it is a word. -/
def add? (a b : Word) : Option Word :=
  if a.uaddOverflow b then none else some (a + b)

/-- The difference, if it is a word. -/
def sub? (a b : Word) : Option Word :=
  if b ≤ a then some (a - b) else none

/-- The sum, cut off at the largest word. -/
def addSat (a b : Word) : Word := (add? a b).getD top

/-- The difference, cut off at zero. -/
def subSat (a b : Word) : Word := (sub? a b).getD 0

theorem add?_eq_some {a b c : Word} :
    add? a b = some c ↔ c.toNat = a.toNat + b.toNat := by
  simp only [add?, BitVec.uaddOverflow, decide_eq_true_eq]
  constructor
  · intro h
    split at h
    · cases h
    · rename_i hlt
      cases h
      rw [BitVec.toNat_add, Nat.mod_eq_of_lt (Nat.lt_of_not_le hlt)]
  · intro h
    have hlt : a.toNat + b.toNat < 2 ^ 64 := h ▸ c.isLt
    rw [if_neg (Nat.not_le_of_lt hlt)]
    congr 1
    apply BitVec.eq_of_toNat_eq
    rw [BitVec.toNat_add, Nat.mod_eq_of_lt hlt, h]

theorem toNat_top : top.toNat = 0xffffffffffffffff := rfl

theorem add?_eq_none {a b : Word} : add? a b = none ↔ top.toNat < a.toNat + b.toNat := by
  simp only [add?, BitVec.uaddOverflow, decide_eq_true_eq, ite_eq_left_iff, reduceCtorEq, imp_false,
    Nat.not_le, Nat.not_lt, toNat_top]
  omega

theorem sub?_eq_some {a b c : Word} :
    sub? a b = some c ↔ b.toNat + c.toNat = a.toNat := by
  unfold sub?
  constructor
  · intro h
    split at h
    · rename_i hle
      cases h
      have hle' : b.toNat ≤ a.toNat := hle
      rw [BitVec.toNat_sub_of_le hle]
      omega
    · cases h
  · intro h
    have hle : b ≤ a := by
      show b.toNat ≤ a.toNat
      omega
    rw [if_pos hle]
    congr 1
    apply BitVec.eq_of_toNat_eq
    rw [BitVec.toNat_sub_of_le hle]
    omega

theorem toNat_addSat (a b : Word) :
    (addSat a b).toNat = min (a.toNat + b.toNat) top.toNat := by
  cases h : add? a b with
  | some c =>
    have hsum := add?_eq_some.1 h
    have hlt := c.isLt
    simp only [addSat, h, Option.getD_some, toNat_top]
    omega
  | none =>
    have hover := add?_eq_none.1 h
    simp only [addSat, h, Option.getD_none]
    omega

/-- The written form of a word. -/
def hex (w : Word) : String := "0x" ++ String.ofList (Nat.toDigits 16 w.toNat)

/-- Value of one hexadecimal digit of either case. -/
def digit? (c : Char) : Option Nat :=
  if '0' ≤ c ∧ c ≤ '9' then some (c.toNat - '0'.toNat)
  else if 'a' ≤ c ∧ c ≤ 'f' then some (c.toNat - 'a'.toNat + 10)
  else if 'A' ≤ c ∧ c ≤ 'F' then some (c.toNat - 'A'.toNat + 10)
  else none

/-- Value of a digit string in the given base, most significant digit first. -/
def number? (base : Nat) (cs : List Char) : Option Nat :=
  if cs.isEmpty then none
  else cs.foldlM (fun n c => do
    let d ← digit? c
    if d < base then some (n * base + d) else none) 0

/-- Read a word written with the `0x` mark. -/
def ofHex? (s : String) : Option Word :=
  match s.toList with
  | '0' :: 'x' :: cs => do
    let n ← number? 16 cs
    if n ≤ top.toNat then some (BitVec.ofNat 64 n) else none
  | _ => none

end Word

/-- Read a decimal number. -/
def decimal? (cs : List Char) : Option Nat := Word.number? 10 cs

/-- Read the bytes written as pairs of hexadecimal digits. -/
def bytes? : List Char → Option (List Byte)
  | [] => some []
  | hi :: lo :: rest => do
    let h ← Word.digit? hi
    let l ← Word.digit? lo
    let tail ← bytes? rest
    return BitVec.ofNat 8 (16 * h + l) :: tail
  | [_] => none

/-- The pair of digits of one byte. -/
def Byte.hex (b : Byte) : String :=
  String.ofList [Nat.digitChar (b.toNat / 16), Nat.digitChar (b.toNat % 16)]

end BinaryLift
