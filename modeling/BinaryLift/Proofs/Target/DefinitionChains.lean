import BinaryLift.Proofs.Closed.Endings
import BinaryLift.Proofs.Closed.Functions
import BinaryLift.Proofs.Target.Speculation

/-!
# Chains of definitions

What an evaluation follows: from an instruction to the instructions that its set is made from, a load
to those that its address is counted from. A set of definitions is reducible from a root if every
cycle is entered at one definition, through which all chains from the root to the cycle go. On a chain
without repetition a definition is then met again exactly if all chains go through it.
-/

namespace BinaryLift.Func

variable {f : Func} {root i j k : InstId} {p : List InstId} {v : Value} {n : Nat}

/-- The operands that the addresses of a pointer are made from: the integer that was converted, and
the offsets on the way from it. -/
inductive AddressPart (f : Func) : Value → Value → Prop
  | converted {id : InstId} {v : Value} {ty : Option Ty} (hlive : f.isLive id = true)
      (hi : f.inst? id = some ⟨.cast .inttoptr v, ty⟩) : AddressPart f (.inst id) v
  | offset {id : InstId} {base v : Value} {ty : Option Ty} (hlive : f.isLive id = true)
      (hi : f.inst? id = some ⟨.ptrAdd base v, ty⟩) : AddressPart f (.inst id) v
  | base {id : InstId} {base offset v : Value} {ty : Option Ty} (hlive : f.isLive id = true)
      (hi : f.inst? id = some ⟨.ptrAdd base offset, ty⟩) (hbase : AddressPart f base v) :
      AddressPart f (.inst id) v

/-- The operands whose sets the set of an instruction is made from. -/
def Consults (f : Func) : Kind → Value → Prop
  | .alloca _, _ => False
  | .store .., _ => False
  | .call .., _ => False
  | .load p, v => f.AddressPart p v
  | kind, v => v ∈ kind.operands

/-- The set of a live instruction is made from that of another one. -/
def Follows (f : Func) (i j : InstId) : Prop :=
  f.isLive i = true ∧ ∃ inst, f.inst? i = some inst ∧ f.Consults inst.kind (.inst j)

/-- The definitions followed from a root, the last one first. -/
inductive DefChain (f : Func) (root : InstId) : List InstId → InstId → Prop
  | root : DefChain f root [root] root
  | step {p : List InstId} {i j : InstId} :
    DefChain f root p i → f.Follows i j → DefChain f root (j :: p) j

/-- Every chain from the root to `i` goes through `j`. -/
def Heads (f : Func) (root j i : InstId) : Prop := ∀ p, f.DefChain root p i → j ∈ p

/-- What is followed from the root either goes down or goes back to where all chains came from, so each
cycle is entered at one definition. -/
def Reducible (f : Func) (root : InstId) : Prop :=
  ∃ rank : InstId → Nat, ∀ p i j, f.DefChain root p i → f.Follows i j →
    f.Heads root j i ∨ rank j < rank i

/-- A chain is at most `n` definitions long until it comes to its end or back to one of them. -/
def ChainsWithin (f : Func) (root : InstId) (n : Nat) : Prop :=
  ∀ p i j, f.DefChain root p i → p.Nodup → f.Follows i j → p.length ≤ n

/-- The pointer that a pointer is counted from. -/
def pointerBase? (f : Func) : Value → Option Value
  | .inst id =>
    match f.isLive id, f.inst? id with
    | true, some ⟨.ptrAdd base _, _⟩ => some base
    | _, _ => none
  | _ => none

/-- No pointer is counted from itself: going from base to base comes to an end. -/
def BasesEnd (f : Func) : Prop := ∀ p, ∃ n, Ends f.pointerBase? n p

/-- Live instructions name only instructions that have been made. -/
def OperandsMade (f : Func) : Prop :=
  ∀ id i, f.isLive id = true → f.inst? id = some i →
    ∀ j, .inst j ∈ i.kind.operands → j.index < f.arena.size

/-! ### Chains -/

theorem DefChain.last_mem (h : f.DefChain root p i) : i ∈ p := by
  cases h with
  | root => exact List.mem_singleton_self _
  | step _ _ => exact List.mem_cons_self

/-- Without repetition a chain never goes back, so it goes down all the way. -/
theorem DefChain.rank_lt {rank : InstId → Nat}
    (hrank : ∀ p i j, f.DefChain root p i → f.Follows i j → f.Heads root j i ∨ rank j < rank i)
    (h : f.DefChain root p i) (hnodup : p.Nodup) : ∀ k ∈ p, k ≠ i → rank i < rank k := by
  induction h with
  | root =>
    intro k hk hne
    exact absurd (List.mem_singleton.1 hk) hne
  | @step p i j hp hfollows ih =>
    obtain ⟨hnew, hnodup⟩ := List.nodup_cons.1 hnodup
    have hlt : rank j < rank i := (hrank p i j hp hfollows).resolve_left fun hheads =>
      hnew (hheads p hp)
    intro k hk hne
    have hkp := (List.mem_cons.1 hk).resolve_left hne
    by_cases hki : k = i
    · rwa [hki]
    · exact Nat.lt_trans hlt (ih hnodup k hkp hki)

/-- Coming back to a definition on the chain is going through one that all chains go through. -/
theorem Reducible.mem_iff (h : f.Reducible root) (hp : f.DefChain root p i) (hnodup : p.Nodup)
    (hfollows : f.Follows i j) : j ∈ p ↔ f.Heads root j i := by
  obtain ⟨rank, hrank⟩ := h
  refine ⟨fun hj => ?_, fun hheads => hheads p hp⟩
  rcases hrank p i j hp hfollows with hheads | hlt
  · exact hheads
  · by_cases hji : j = i
    · rw [hji] at hlt
      exact absurd hlt (Nat.lt_irrefl _)
    · exact absurd hlt (Nat.lt_asymm (hp.rank_lt hrank hnodup j hj hji))

theorem DefChain.live (h : f.DefChain root p i) (hi : f.isLive i = true) :
    ∀ k ∈ p, f.isLive k = true := by
  induction h with
  | root =>
    intro k hk
    rwa [List.mem_singleton.1 hk]
  | step _ hfollows ih =>
    intro k hk
    rcases List.mem_cons.1 hk with rfl | hk
    · exact hi
    · exact ih hfollows.1 k hk

/-- No chain is longer than the arena. -/
theorem chainsWithin_of_size_le (h : f.arena.size ≤ n) (root : InstId) : f.ChainsWithin root n := by
  intro p i j hp hnodup hfollows
  have hsub : p ⊆ (List.range f.arena.size).map InstId.mk := by
    intro k hk
    have hlt := index_lt_of_isLive (hp.live hfollows.1 k hk)
    exact List.mem_map.2 ⟨k.index, List.mem_range.2 hlt, rfl⟩
  have hle := (List.subperm_of_subset hnodup hsub).length_le
  rw [List.length_map, List.length_range] at hle
  exact Nat.le_trans hle h

/-! ### Pointers -/

theorem pointerBase?_eq {id : InstId} {base offset : Value} {ty : Option Ty}
    (hlive : f.isLive id = true) (hi : f.inst? id = some ⟨.ptrAdd base offset, ty⟩) :
    f.pointerBase? (.inst id) = some base := by
  simp only [pointerBase?, hlive, hi]

/-- From base to base there are at most as many steps as instructions. -/
theorem pointerBase_within {p : Value} (h : Ends f.pointerBase? n p) :
    Ends f.pointerBase? f.arena.size p := by
  have hwithin := h.within (l := (List.range f.arena.size).map fun k => .inst ⟨k⟩) fun w hw => by
    unfold pointerBase? at hw
    split at hw
    · rename_i id
      split at hw
      · rename_i hi
        exact List.mem_map.2 ⟨id.index, List.mem_range.2 (index_lt_of_inst? hi), rfl⟩
      · cases hw
    · cases hw
  rwa [List.length_map, List.length_range] at hwithin

theorem BasesEnd.within (h : f.BasesEnd) (p : Value) : Ends f.pointerBase? f.arena.size p := by
  obtain ⟨n, hn⟩ := h p
  exact pointerBase_within hn

end BinaryLift.Func
