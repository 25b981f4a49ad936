import BinaryLift.Word

/-!
# Value sets

What is known of a computed value: nothing, or that it is one of a few words. A set that would grow
beyond `maxSize` words becomes unknown. The empty set says that no value arrives (yet). The words of a set
are a strictly ascending list, so that a set has one form.
-/

namespace BinaryLift

/-! ### Ascending lists -/

/-- Insert into a strictly ascending list. -/
def insertAsc (w : Word) : List Word → List Word
  | [] => [w]
  | x :: xs => if w < x then w :: x :: xs else if w = x then x :: xs else x :: insertAsc w xs

/-- The distinct words of a list, ascending. -/
def ascending (ws : List Word) : List Word := ws.foldr insertAsc []

theorem mem_insertAsc {w x : Word} {xs : List Word} :
    x ∈ insertAsc w xs ↔ x = w ∨ x ∈ xs := by
  induction xs with
  | nil => simp [insertAsc]
  | cons y ys ih =>
    unfold insertAsc
    split
    · simp
    · split
      · rename_i h
        subst h
        simp
      · simp [ih]
        constructor
        · rintro (h | h | h) <;> simp [h]
        · rintro (h | h | h) <;> simp [h]

theorem pairwise_insertAsc {w : Word} {xs : List Word} (h : xs.Pairwise (· < ·)) :
    (insertAsc w xs).Pairwise (· < ·) := by
  induction xs with
  | nil => simp [insertAsc]
  | cons y ys ih =>
    obtain ⟨hy, hys⟩ := List.pairwise_cons.1 h
    unfold insertAsc
    split
    · rename_i hlt
      refine List.pairwise_cons.2 ⟨?_, h⟩
      intro z hz
      rcases List.mem_cons.1 hz with rfl | hz
      · exact hlt
      · exact BitVec.lt_trans hlt (hy z hz)
    · split
      · exact h
      · rename_i hge hne
        refine List.pairwise_cons.2 ⟨?_, ih hys⟩
        intro z hz
        rcases mem_insertAsc.1 hz with rfl | hz
        · exact BitVec.lt_of_le_ne (BitVec.not_lt.1 hge) (Ne.symm hne)
        · exact hy z hz

/-- A set of addresses, ascending. -/
structure AddressSet where
  toList : List Word
  ordered : toList.Pairwise (· < ·)

/-- The distinct members of a list. -/
def AddressSet.ofList (ws : List Word) : AddressSet where
  toList := ascending ws
  ordered := by
    unfold ascending
    induction ws with
    | nil => simp
    | cons w ws ih => exact pairwise_insertAsc ih

/-! ### Value sets -/

/-- Merge two strictly ascending lists into one. -/
def mergeAsc : List Word → List Word → List Word
  | [], ys => ys
  | x :: xs, [] => x :: xs
  | x :: xs, y :: ys =>
    if x < y then x :: mergeAsc xs (y :: ys)
    else if y < x then y :: mergeAsc (x :: xs) ys
    else x :: mergeAsc xs ys

/-- A bounded set of words, ascending, or no knowledge. -/
inductive ValueSet where
  | unknown
  | known (values : List Word)
deriving DecidableEq

namespace ValueSet

/-- The largest set that is tracked. -/
def maxSize : Nat := 16

def empty : ValueSet := known []

def single (w : Word) : ValueSet := known [w]

/-- Keep a list of values if it is short enough. -/
def bounded (values : List Word) : ValueSet :=
  if values.length ≤ maxSize then known values else unknown

def isUnknown : ValueSet → Bool
  | unknown => true
  | known _ => false

def values? : ValueSet → Option (List Word)
  | unknown => none
  | known vs => some vs

/-- The value, if there is exactly one. -/
def single? : ValueSet → Option Word
  | known [w] => some w
  | _ => none

/-- Add one value. -/
def add (s : ValueSet) (w : Word) : ValueSet :=
  match s with
  | unknown => unknown
  | known vs => if vs.contains w then known vs else bounded (insertAsc w vs)

def ofList (ws : List Word) : ValueSet := ws.foldl add empty

/-- Union. -/
def merge : ValueSet → ValueSet → ValueSet
  | known a, known b => bounded (mergeAsc a b)
  | _, _ => unknown

/-- Add the value an operation gives; without one nothing is known any more. -/
def addResult (s : ValueSet) : Option Word → ValueSet
  | some w => s.add w
  | none => unknown

/-- The image under an operation. -/
def map (s : ValueSet) (g : Word → Option Word) : ValueSet :=
  match s with
  | unknown => unknown
  | known vs => vs.foldl (fun out v => out.addResult (g v)) empty

/-- The image of all pairs under an operation. -/
def product (s t : ValueSet) (g : Word → Word → Option Word) : ValueSet :=
  match s, t with
  | known a, known b =>
    if a.length * b.length > maxSize * maxSize then unknown
    else a.foldl (fun out x => b.foldl (fun out y => out.addResult (g x y)) out) empty
  | _, _ => unknown

end ValueSet

end BinaryLift
