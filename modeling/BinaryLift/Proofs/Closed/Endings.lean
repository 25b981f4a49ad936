import BinaryLift.Proofs.Transform.Chains
import BinaryLift.Proofs.Transform.DeadCode
import BinaryLift.Transform.Memory
import Mathlib.Data.List.Perm.Subperm

/-!
# Chains that end

Two loops follow a chain through a table or through operands and are bounded by the number of its
possible links. A chain that is not at its end by then comes back to itself: it has no end, and no
larger bound would help.
-/

namespace BinaryLift

section

variable {α : Type} {next : α → Option α} {n k : Nat} {x y : α}

/-- There are at most `n` links behind an element. -/
inductive Ends (next : α → Option α) : Nat → α → Prop
  | stop {n : Nat} {x : α} (hx : next x = none) : Ends next n x
  | link {n : Nat} {x y : α} (hx : next x = some y) (hy : Ends next n y) : Ends next (n + 1) x

theorem Ends.mono (h : Ends next n x) (hk : n ≤ k) : Ends next k x := by
  induction h generalizing k with
  | stop hx => exact .stop hx
  | link hx _ ih =>
    obtain ⟨k, rfl⟩ : ∃ j, k = j + 1 := ⟨k - 1, by omega⟩
    exact .link hx (ih (by omega))

/-- Behind a link there is one link less. -/
theorem Ends.tail (h : Ends next n x) (hx : next x = some y) : ∃ k, n = k + 1 ∧ Ends next k y := by
  cases h with
  | stop hnone =>
    rw [hx] at hnone
    cases hnone
  | link hx' hy =>
    rw [hx] at hx'
    cases hx'
    exact ⟨_, rfl, hy⟩

/-- An element that is linked to itself has no end. -/
theorem not_ends_of_self (hx : next x = some x) (n : Nat) : ¬ Ends next n x := by
  intro h
  induction n with
  | zero =>
    obtain ⟨k, hk, _⟩ := h.tail hx
    cases hk
  | succ n ih =>
    obtain ⟨k, hk, hrest⟩ := h.tail hx
    cases hk
    exact ih hrest

/-- The elements on a chain of exactly `n` links are distinct, since the chains behind them differ in
length. -/
theorem Ends.exists_nodup {l : List α} (hl : ∀ x, (next x).isSome = true → x ∈ l)
    (h : Ends next n x) (hleast : ∀ k < n, ¬ Ends next k x) :
    ∃ path : List α, path.Nodup ∧ path ⊆ l ∧ path.length = n ∧ ∀ y ∈ path, Ends next n y := by
  induction n generalizing x with
  | zero => exact ⟨[], List.nodup_nil, List.nil_subset l, rfl, nofun⟩
  | succ n ih =>
    cases h with
    | stop hx => exact absurd (.stop hx) (hleast 0 (Nat.succ_pos n))
    | link hx hy =>
      obtain ⟨path, hnodup, hsub, hlength, hends⟩ :=
        ih hy fun k hk hyk => hleast (k + 1) (Nat.succ_lt_succ hk) (.link hx hyk)
      have hnot : x ∉ path := fun hmem => hleast n (Nat.lt_succ_self n) (hends x hmem)
      refine ⟨x :: path, List.nodup_cons.2 ⟨hnot, hnodup⟩, ?_, by rw [List.length_cons, hlength], ?_⟩
      · exact List.cons_subset.2 ⟨hl x (by rw [hx]; rfl), hsub⟩
      · intro y hy'
        rcases List.mem_cons.1 hy' with rfl | hy'
        · exact .link hx hy
        · exact (hends y hy').mono (Nat.le_succ n)

theorem Ends.within {l : List α} (hl : ∀ x, (next x).isSome = true → x ∈ l) (h : Ends next n x) :
    Ends next l.length x := by
  classical
  have hexists : ∃ n, Ends next n x := ⟨n, h⟩
  obtain ⟨path, hnodup, hsub, hlength, _⟩ :=
    (Nat.find_spec hexists).exists_nodup hl fun k hk => Nat.find_min hexists hk
  refine (Nat.find_spec hexists).mono ?_
  rw [← hlength]
  exact (List.subperm_of_subset hnodup hsub).length_le

end

/-! ### Replacements -/

namespace Replacements

variable {t : Replacements} {v : Value} {n : Nat}

/-- What stands in for a value. -/
def link? (t : Replacements) : Value → Option Value
  | .inst id => t.get? id
  | _ => none

theorem covers_eq (t : Replacements) (v : Value) : t.covers v = (t.link? v).isSome := by
  cases v <;> rfl

theorem ends_iff : Ends t.link? n v ↔ t.covers (t.follow n v) = false := by
  induction n generalizing v with
  | zero =>
    rw [covers_eq, follow, Option.isSome_eq_false_iff, Option.isNone_iff_eq_none]
    constructor
    · intro h
      cases h with
      | stop hv => exact hv
    · exact .stop
  | succ n ih =>
    cases hv : t.link? v with
    | none =>
      have hcovers : t.covers v = false := by rw [covers_eq, hv]; rfl
      rw [follow_of_covers hcovers]
      exact ⟨fun _ => hcovers, fun _ => .stop hv⟩
    | some next =>
      cases v with
      | inst id =>
        have hfollow : t.follow (n + 1) (.inst id) = t.follow n next := by
          rw [follow, show t.get? id = some next from hv]
        rw [hfollow, ← ih]
        constructor
        · intro h
          cases h with
          | stop hv' =>
            rw [hv] at hv'
            cases hv'
          | link hv' hnext =>
            rw [hv] at hv'
            cases hv'
            exact hnext
        · exact .link hv
      | const c => cases hv
      | arg k => cases hv

/-- A chain that ends after any number of links is resolved. -/
theorem resolve_of_follow (h : t.covers (t.follow n v) = false) : ∃ w, t.resolve v = .ok w := by
  have hends : Ends t.link? t.length v := by
    have hwithin := (ends_iff.2 h).within (l := t.keys.map .inst) fun w hw => by
      cases w with
      | inst id =>
        refine List.mem_map.2 ⟨id, ?_, rfl⟩
        by_contra hnot
        rw [link?, (Table.get?_eq_none_iff t id).2 hnot] at hw
        cases hw
      | const c => cases hw
      | arg k => cases hw
    rwa [List.length_map, Table.keys, List.length_map] at hwithin
  have hchase : t.covers (t.chase v) = false := ends_iff.1 (hends.mono (Nat.le_succ _))
  exact ⟨t.chase v, by simp [resolve, hchase]⟩

end Replacements

/-! ### Addresses -/

namespace Func

variable {f : Func} {memory n k : Nat} {v : Value} {r : Option Word}

/-- The pointer that a pointer is a constant offset from, if that is not the memory parameter. -/
def offsetBase? (f : Func) (memory : Nat) : Value → Option Value
  | .inst id =>
    match f.isLive id, f.inst? id with
    | true, some ⟨.ptrAdd base (.const _), _⟩ => if base = .arg memory then none else some base
    | _, _ => none
  | _ => none

/-- Either an address is found at once or it is that of the base and a constant. -/
theorem constantAddressIn_cases (f : Func) (memory : Nat) (v : Value) :
    (f.offsetBase? memory v = none ∧
      ∃ found, ∀ n, f.constantAddressIn memory (n + 1) v = found) ∨
    ∃ base, f.offsetBase? memory v = some base ∧ ∃ c : Constant, ∀ n,
      f.constantAddressIn memory (n + 1) v =
        (f.constantAddressIn memory n base).map (·.map (· + c.bits)) := by
  cases v with
  | const c => exact .inl ⟨rfl, _, fun _ => rfl⟩
  | arg j => exact .inl ⟨rfl, _, fun _ => rfl⟩
  | inst id =>
    cases hlive : f.isLive id with
    | false =>
      refine .inl ⟨by simp [offsetBase?, hlive], .ok none, fun n => ?_⟩
      simp only [constantAddressIn, hlive]
      rfl
    | true =>
      cases hi : f.inst? id with
      | none =>
        refine .inl ⟨by simp [offsetBase?, hlive, hi], .error (.noSuchInst id), fun n => ?_⟩
        simp only [constantAddressIn, hlive, kind, inst, hi]
        rfl
      | some i =>
        obtain ⟨k, ty⟩ := i
        by_cases hlink : ∃ base c, k = .ptrAdd base (.const c) ∧ base ≠ .arg memory
        · obtain ⟨base, c, rfl, hbase⟩ := hlink
          refine .inr ⟨base, by simp [offsetBase?, hlive, hi, hbase], c, fun n => ?_⟩
          simp only [constantAddressIn, hlive, kind_of_inst? hi, bind, Except.bind, hbase]
          cases f.constantAddressIn memory n base <;> rfl
        · refine .inl ⟨?_, ?_⟩
          · simp only [offsetBase?, hlive, hi]
            split
            · rename_i base c _ _ heq
              cases heq
              rw [if_pos (by_contra fun hbase => hlink ⟨base, c, rfl, hbase⟩)]
            · rfl
          · refine ⟨f.constantAddressIn memory 1 (.inst id), fun n => ?_⟩
            simp only [constantAddressIn, hlive, kind_of_inst? hi, bind, Except.bind]
            cases k with
            | ptrAdd base offset =>
              cases offset with
              | const c =>
                have hbase : base = .arg memory :=
                  by_contra fun hbase => hlink ⟨base, c, rfl, hbase⟩
                simp only [hbase, if_true]
              | _ => rfl
            | cast op x => cases op <;> cases x <;> rfl
            | _ => rfl

theorem ends_of_constantAddressIn (h : f.constantAddressIn memory (n + 1) v = .ok r) :
    Ends (f.offsetBase? memory) n v := by
  induction n generalizing v r with
  | zero =>
    rcases f.constantAddressIn_cases memory v with ⟨hnone, _⟩ | ⟨base, _, c, hstep⟩
    · exact .stop hnone
    · rw [hstep] at h
      cases h
  | succ n ih =>
    rcases f.constantAddressIn_cases memory v with ⟨hnone, _⟩ | ⟨base, hbase, c, hstep⟩
    · exact .stop hnone
    · rw [hstep] at h
      cases hrest : f.constantAddressIn memory (n + 1) base with
      | error e =>
        rw [hrest] at h
        cases h
      | ok r' => exact .link hbase (ih hrest)

/-- Beyond the end of a chain the bound makes no difference. -/
theorem constantAddressIn_of_ends (h : Ends (f.offsetBase? memory) n v) (hk : n ≤ k) :
    f.constantAddressIn memory (k + 1) v = f.constantAddressIn memory (n + 1) v := by
  induction h generalizing k with
  | @stop n x hx =>
    rcases f.constantAddressIn_cases memory x with ⟨_, found, hfound⟩ | ⟨base, hbase, _⟩
    · rw [hfound, hfound]
    · rw [hx] at hbase
      cases hbase
  | @link n x y hx _ ih =>
    rcases f.constantAddressIn_cases memory x with ⟨hnone, _⟩ | ⟨base, hbase, c, hstep⟩
    · rw [hx] at hnone
      cases hnone
    · rw [hx] at hbase
      cases hbase
      obtain ⟨k, rfl⟩ : ∃ j, k = j + 1 := ⟨k - 1, by omega⟩
      rw [hstep, hstep, ih (by omega)]

/-- An address that is found with any bound is found. -/
theorem constantAddress_of_in (h : f.constantAddressIn memory n v = .ok r) :
    f.constantAddress memory v = .ok r := by
  cases n with
  | zero => cases h
  | succ n =>
    have hends := ends_of_constantAddressIn h
    have hwithin := hends.within (l := (List.range f.arena.size).map fun j => .inst ⟨j⟩) fun w hw => by
      unfold offsetBase? at hw
      split at hw
      · rename_i id
        split at hw
        · rename_i hi
          exact List.mem_map.2 ⟨id.index, List.mem_range.2 (index_lt_of_inst? hi), rfl⟩
        · cases hw
      · cases hw
    rw [List.length_map, List.length_range] at hwithin
    unfold constantAddress
    -- both bounds are beyond the end
    rw [← constantAddressIn_of_ends hwithin (Nat.le_max_right n _),
      constantAddressIn_of_ends hends (Nat.le_max_left _ _)]
    exact h

end Func

end BinaryLift
