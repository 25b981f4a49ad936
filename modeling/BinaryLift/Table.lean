/-!
# Keyed tables

A table keeps its entries in the order in which their keys first came in. Writing to a key that is
present replaces its entry in place. Lookup after a write is `get?_insert`.
-/

namespace BinaryLift

/-- Entries with distinct keys, oldest key first. -/
abbrev Table (κ ν : Type) := List (κ × ν)

namespace Table

variable {κ ν : Type} [DecidableEq κ]

/-- The entry under a key. -/
def get? : Table κ ν → κ → Option ν
  | [], _ => none
  | (k, v) :: rest, key => if k = key then some v else get? rest key

/-- Whether a key has an entry. -/
def has (t : Table κ ν) (key : κ) : Bool := (t.get? key).isSome

/-- Write an entry, in place if the key is present. -/
def insert : Table κ ν → κ → ν → Table κ ν
  | [], key, value => [(key, value)]
  | (k, v) :: rest, key, value =>
    if k = key then (k, value) :: rest else (k, v) :: insert rest key value

/-- Change the entry under a key, which starts as `start` when the key is new. -/
def update (t : Table κ ν) (key : κ) (start : ν) (f : ν → ν) : Table κ ν :=
  t.insert key (f ((t.get? key).getD start))

/-- The keys, oldest first. -/
def keys (t : Table κ ν) : List κ := t.map (·.1)

theorem get?_insert (t : Table κ ν) (key other : κ) (value : ν) :
    (t.insert key value).get? other = if key = other then some value else t.get? other := by
  induction t with
  | nil => simp [insert, get?]
  | cons e rest ih =>
    obtain ⟨k, v⟩ := e
    by_cases hk : k = key
    · subst hk
      by_cases ho : k = other <;> simp [insert, get?, ho]
    · by_cases ho : k = other
      · subst ho
        simp [insert, get?, hk, Ne.symm hk]
      · simp [insert, get?, hk, ho, ih]

theorem get?_eq_none_iff (t : Table κ ν) (key : κ) : t.get? key = none ↔ key ∉ t.keys := by
  induction t with
  | nil => simp [get?, keys]
  | cons e rest ih =>
    obtain ⟨k, v⟩ := e
    by_cases hk : k = key
    · subst hk
      simp [get?, keys]
    · simp only [keys] at ih
      simp [get?, keys, hk, ih, Ne.symm hk]

theorem keys_insert (t : Table κ ν) (key : κ) (value : ν) :
    (t.insert key value).keys = if key ∈ t.keys then t.keys else t.keys ++ [key] := by
  induction t with
  | nil => simp [insert, keys]
  | cons e rest ih =>
    obtain ⟨k, v⟩ := e
    simp only [keys] at ih
    by_cases hk : k = key
    · subst hk
      simp [insert, keys]
    · by_cases hm : key ∈ rest.map (·.1)
      · simp [insert, keys, hk, ih, hm]
      · simp [insert, keys, hk, ih, hm, Ne.symm hk]

end Table

end BinaryLift
