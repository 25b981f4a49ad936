import BinaryLift.Program.Func.Editing
import Mathlib.Algebra.Order.Ring.Nat
import Mathlib.Tactic.Common

/-!
# Chains of replacements

Following a table ends at the end of the chain if the replaced instructions can be numbered so that
every link goes down.
-/

namespace BinaryLift.Replacements

variable {t : Replacements}

/-- The chain from a value ends at another one after at most `n` links. -/
inductive Leads (t : Replacements) : Nat → Value → Value → Prop
  | stop {n : Nat} {v : Value} : t.covers v = false → Leads t n v v
  | link {n : Nat} {id : InstId} {next v : Value} : t.get? id = some next → Leads t n next v →
    Leads t (n + 1) (.inst id) v

theorem follow_of_covers {v : Value} (h : t.covers v = false) (n : Nat) : t.follow n v = v := by
  cases n with
  | zero => rfl
  | succ n =>
    cases v with
    | inst id =>
      have hnone : t.get? id = none := by simpa [covers, Table.has] using h
      simp only [follow, hnone]
    | const c => rfl
    | arg k => rfl

theorem Leads.follow {n : Nat} {v u : Value} (h : t.Leads n v u) :
    ∀ k, n ≤ k → t.follow k v = u := by
  induction h with
  | stop hv =>
    intro k _
    exact follow_of_covers hv k
  | link hget _ ih =>
    intro k hk
    obtain ⟨k, rfl⟩ : ∃ j, k = j + 1 := ⟨k - 1, by omega⟩
    simp only [Replacements.follow, hget]
    exact ih k (by omega)

theorem Leads.mono {n k : Nat} {v u : Value} (h : t.Leads n v u) (hk : n ≤ k) : t.Leads k v u := by
  induction h generalizing k with
  | stop hv => exact .stop hv
  | link hget _ ih =>
    obtain ⟨k, rfl⟩ : ∃ j, k = j + 1 := ⟨k - 1, by omega⟩
    exact .link hget (ih (by omega))

theorem Leads.covers {n : Nat} {v u : Value} (h : t.Leads n v u) : t.covers u = false := by
  induction h with
  | stop hv => exact hv
  | link _ _ ih => exact ih

theorem countP_lt_countP {α : Type} {p q : α → Bool} {l : List α} (hpq : ∀ a, p a = true → q a = true)
    {a : α} (ha : a ∈ l) (hp : p a = false) (hq : q a = true) : l.countP p < l.countP q := by
  obtain ⟨l₁, l₂, rfl⟩ := List.append_of_mem ha
  have h₁ := List.countP_mono_left (l := l₁) fun x _ => hpq x
  have h₂ := List.countP_mono_left (l := l₂) fun x _ => hpq x
  rw [List.countP_append, List.countP_append, List.countP_cons_of_neg (by simp [hp]),
    List.countP_cons_of_pos hq]
  omega

variable {rank : InstId → Nat}

theorem exists_leads (hrank : ∀ i j, t.get? i = some (.inst j) → t.has j = true → rank j < rank i)
    (i : InstId) : ∃ v, t.Leads (t.keys.countP fun k => rank k ≤ rank i) (.inst i) v := by
  induction hn : rank i using Nat.strongRecOn generalizing i with
  | ind n ih =>
    subst hn
    cases hget : t.get? i with
    | none => exact ⟨.inst i, .stop (by simp [covers, Table.has, hget])⟩
    | some next =>
      have hi : i ∈ t.keys := by
        by_contra hnot
        rw [(Table.get?_eq_none_iff t i).2 hnot] at hget
        cases hget
      have hpos : 0 < t.keys.countP fun k => rank k ≤ rank i :=
        List.countP_pos_iff.2 ⟨i, hi, by simp⟩
      obtain ⟨n, hn⟩ : ∃ n, (t.keys.countP fun k => rank k ≤ rank i) = n + 1 :=
        ⟨_, (Nat.succ_pred_eq_of_pos hpos).symm⟩
      rw [hn]
      cases hcov : t.covers next with
      | false => exact ⟨next, .link hget (.stop hcov)⟩
      | true =>
        obtain ⟨j, rfl, hj⟩ : ∃ j, next = .inst j ∧ t.has j = true := by
          cases next with
          | inst j => exact ⟨j, rfl, hcov⟩
          | const c => cases hcov
          | arg k => cases hcov
        have hlt := hrank i j hget hj
        obtain ⟨v, hv⟩ := ih (rank j) hlt j rfl
        have hcount : (t.keys.countP fun k => rank k ≤ rank j) <
            t.keys.countP fun k => rank k ≤ rank i := by
          refine countP_lt_countP ?_ hi ?_ ?_
          · intro k hk
            rw [decide_eq_true_eq] at hk ⊢
            omega
          · rw [decide_eq_false_iff_not]
            omega
          · exact decide_eq_true (Nat.le_refl _)
        exact ⟨v, .link hget (hv.mono (by omega))⟩

theorem leads_chase (hrank : ∀ i j, t.get? i = some (.inst j) → t.has j = true → rank j < rank i)
    (v : Value) : t.Leads t.length v (t.chase v) := by
  have hexists : ∃ u, t.Leads t.length v u := by
    cases v with
    | const c => exact ⟨_, .stop rfl⟩
    | arg k => exact ⟨_, .stop rfl⟩
    | inst i =>
      obtain ⟨u, hu⟩ := exists_leads hrank i
      refine ⟨u, hu.mono ?_⟩
      have hle := List.countP_le_length (p := fun k => decide (rank k ≤ rank i)) (l := t.keys)
      rwa [Table.keys, List.length_map] at hle
  obtain ⟨u, hu⟩ := hexists
  have hchase : t.chase v = u := hu.follow _ (Nat.le_succ _)
  rwa [hchase]

/-- The end of a chain is that of its rest. -/
theorem chase_of_get? (hrank : ∀ i j, t.get? i = some (.inst j) → t.has j = true → rank j < rank i)
    {i : InstId} {next : Value} (h : t.get? i = some next) : t.chase (.inst i) = t.chase next :=
  (Leads.link h (leads_chase hrank next)).follow _ (Nat.le_refl _)

theorem chase_of_covers {v : Value} (h : t.covers v = false) : t.chase v = v :=
  follow_of_covers h _

end BinaryLift.Replacements

namespace BinaryLift.Func

theorem block?_mapOperands (f : Func) (k : Value → Value) (b : BlockId) :
    (f.mapOperands k).block? b =
      (f.block? b).map fun data => { data with term := data.term.mapOperands k } := by
  simp only [mapOperands, block?, Array.getElem?_map]
  cases f.blocks[b.index]? <;> rfl

theorem instBlock_mapOperands (f : Func) (k : Value → Value) (id : InstId) :
    (f.mapOperands k).instBlock id = f.instBlock id := by
  simp only [mapOperands, instBlock, Array.getElem?_map]
  cases f.arena[id.index]? with
  | none => rfl
  | some s =>
    simp only [Option.map_some, Option.bind_some]
    split <;> rfl

theorem inst?_mapOperands {f : Func} {id : InstId} {i : Inst} (k : Value → Value)
    (hi : f.inst? id = some i) :
    (f.mapOperands k).inst? id =
      some ⟨if f.isLive id then i.kind.mapOperands k else i.kind, i.ty⟩ := by
  simp only [inst?] at hi
  obtain ⟨s, hs, rfl⟩ := Option.map_eq_some_iff.1 hi
  simp only [mapOperands, inst?, isLive, instBlock, Array.getElem?_map, hs, Option.map_some,
    Option.bind_some]
  split <;> rfl

theorem mapOperands_of_id {k : Value → Value} (hk : ∀ v, k v = v) (f : Func) : f.mapOperands k = f := by
  have hid : k = id := funext hk
  subst hid
  simp [mapOperands, Kind.mapOperands_id, Terminator.mapOperands_id]

theorem applyReplacements_eq (f : Func) (t : Replacements) :
    f.applyReplacements t = f.mapOperands t.chase := by
  unfold applyReplacements
  split
  · rename_i hempty
    have ht : t = [] := List.isEmpty_iff.1 hempty
    subst ht
    refine (mapOperands_of_id (fun v => Replacements.chase_of_covers ?_) f).symm
    cases v <;> rfl
  · rfl

end BinaryLift.Func
