import BinaryLift.Proofs.Graph.Dominance
import BinaryLift.Proofs.Run.Availability
import BinaryLift.Proofs.Transform.Rounds
import BinaryLift.Transform.Promote

/-!
# Slots that can be promoted

A promoted slot is read and written by loads and stores of one type, all in reachable blocks, and is
used in no other way. So nothing but these accesses can know where it is.
-/

namespace BinaryLift

theorem filterMapM_eq_ok {ε α β : Type} {g : α → Except ε (Option β)} {k : α → Option β}
    (l : List α) (h : ∀ a ∈ l, g a = .ok (k a)) : l.filterMapM g = .ok (l.filterMap k) := by
  induction l with
  | nil => rfl
  | cons a l ih =>
    have hrest := ih fun b hb => h b (List.mem_cons_of_mem _ hb)
    rw [List.filterMapM_cons, h a List.mem_cons_self]
    show (match k a with | none => _ | some b => _ : Except ε (List β)) = _
    cases hk : k a with
    | none =>
      rw [List.filterMap_cons_none hk]
      exact hrest
    | some b =>
      rw [List.filterMap_cons_some hk]
      show (List.filterMapM g l).bind _ = _
      rw [hrest]
      rfl

namespace Func

variable {f : Func}

/-- A load from the slot `s` or a store to it, at type `ty`. -/
inductive Accesses (f : Func) (s : InstId) (ty : Ty) : Inst → Prop
  | load : Accesses f s ty ⟨.load (.inst s), some ty⟩
  | store {v : Value} {o : Option Ty} : v ≠ .inst s → f.typeOf v = some ty →
    Accesses f s ty ⟨.store (.inst s) v, o⟩

/-- A slot all of whose uses are accesses at one type in reachable blocks. -/
structure IsSlot (f : Func) (s : InstId) (ty : Ty) : Prop where
  home : ∃ b, f.instBlock s = some b ∧ f.Reachable b
  users : ∀ b data id i, f.block? b = some data → id ∈ data.insts → f.inst? id = some i →
    .inst s ∈ i.kind.operands → f.Reachable b ∧ f.Accesses s ty i
  terms : ∀ b data, f.block? b = some data → .inst s ∉ data.term.operands

/-- The operands of reachable instructions exist, other than those of phis. -/
def Grounded (f : Func) : Prop :=
  ∀ b data id i, f.Reachable b → f.block? b = some data → id ∈ data.insts → f.inst? id = some i →
    i.kind.isPhi = false → ∀ j, .inst j ∈ i.kind.operands → ∃ k, f.inst? j = some k

theorem grounded_of_wellFormed (hwf : f.WellFormed) : f.Grounded := by
  intro b data id i hb hdata hid hi hphi j hj
  obtain ⟨pre, post, hsplit⟩ := List.append_of_mem hid
  rw [← instsOf_eq hdata] at hsplit
  obtain ⟨c, hjc, _⟩ := hwf.consistent.home_of_available hb (prefix_of_split hsplit).subset
    (hwf.use hb hsplit hi hphi hj)
  exact hwf.consistent.inst?_of_mem (hwf.consistent.mem_instsOf.2 hjc)

theorem valueTy_eq_ok_of {v : Value} (h : ∀ j, v = .inst j → ∃ k, f.inst? j = some k) :
    f.valueTy v = .ok (f.typeOf v) := by
  cases v with
  | const c => rfl
  | arg n => rfl
  | inst j =>
    obtain ⟨k, hk⟩ := h j rfl
    simp only [valueTy, inst, hk, typeOf]
    rfl

theorem slotAccess_spec {s id : InstId} {i : Inst} (hi : f.inst? id = some i)
    (hops : i.kind.isPhi = false → ∀ j, .inst j ∈ i.kind.operands → ∃ k, f.inst? j = some k) :
    ∃ o, f.slotAccess (.inst s) id = .ok o ∧ ∀ ty, o = some ty → f.Accesses s ty i := by
  have hinst : f.inst id = .ok i := by simp only [inst, hi]
  obtain ⟨kind, ity⟩ := i
  unfold slotAccess
  have hnone : ∃ o, (pure none : Checked (Option Ty)) = .ok o ∧
      ∀ ty, o = some ty → f.Accesses s ty ⟨kind, ity⟩ := by
    refine ⟨none, rfl, ?_⟩
    rintro ty ⟨⟩
  rw [hinst]
  cases kind with
  | load p =>
    by_cases hp : p = .inst s
    · subst hp
      simp only [bind, Except.bind, if_true]
      refine ⟨ity, rfl, ?_⟩
      rintro ty rfl
      exact .load
    · simp only [bind, Except.bind, if_neg hp]
      exact hnone
  | store p v =>
    by_cases hp : p = .inst s ∧ v ≠ .inst s
    · obtain ⟨rfl, hv⟩ := hp
      have hty : f.valueTy v = .ok (f.typeOf v) := by
        apply valueTy_eq_ok_of
        rintro j rfl
        exact hops rfl j (by simp [Kind.operands])
      simp only [bind, Except.bind, hv, ne_eq, not_false_eq_true, and_self, if_true]
      exact ⟨f.typeOf v, hty, fun ty h => .store hv h⟩
    · simp only [bind, Except.bind, if_neg hp]
      exact hnone
  | _ => exact hnone

theorem accessTy_spec {d : DomTree} {s : InstId} (users : List User)
    (hinst : ∀ id, User.inst id ∈ users → (f.instBlock id).any d.isReachable = true →
      ∃ i, f.inst? id = some i ∧
        (i.kind.isPhi = false → ∀ j, .inst j ∈ i.kind.operands → ∃ k, f.inst? j = some k)) :
    ∀ acc, ∃ o, f.accessTy d (.inst s) acc users = .ok o ∧
      ∀ ty, o = some ty → (∀ t, acc = some t → t = ty) ∧
        ∀ u ∈ users, ∃ id i, u = .inst id ∧ (f.instBlock id).any d.isReachable = true ∧
          f.inst? id = some i ∧ f.Accesses s ty i := by
  induction users with
  | nil =>
    intro acc
    refine ⟨acc, rfl, fun ty h => ⟨fun t ht => ?_, by simp⟩⟩
    rw [ht] at h
    exact Option.some.inj h
  | cons u users ih =>
    intro acc
    have hrest : ∀ id, User.inst id ∈ users → (f.instBlock id).any d.isReachable = true →
        ∃ i, f.inst? id = some i ∧
          (i.kind.isPhi = false → ∀ j, .inst j ∈ i.kind.operands → ∃ k, f.inst? j = some k) :=
      fun id hid => hinst id (List.mem_cons_of_mem _ hid)
    cases u with
    | term b => exact ⟨none, rfl, fun ty h => nomatch h⟩
    | inst id =>
      by_cases hreach : (f.instBlock id).any d.isReachable = true
      · obtain ⟨i, hi, hops⟩ := hinst id List.mem_cons_self hreach
        obtain ⟨o, ho, haccess⟩ := slotAccess_spec (s := s) hi hops
        unfold accessTy
        simp only [hreach, Bool.not_true, Bool.false_eq_true, if_false, ho]
        cases o with
        | none => exact ⟨none, rfl, fun ty h => nomatch h⟩
        | some t =>
          show ∃ o, (if acc.all (· = t) then _ else _ : Checked _) = _ ∧ _
          by_cases hacc : acc.all (· = t) = true
          · rw [if_pos hacc]
            obtain ⟨o', ho', hall⟩ := ih hrest (some t)
            refine ⟨o', ho', fun ty hty => ?_⟩
            obtain ⟨hsame, hothers⟩ := hall ty hty
            have htty := hsame t rfl
            subst htty
            refine ⟨?_, ?_⟩
            · rintro t' rfl
              simpa using hacc
            · intro u hu
              rcases List.mem_cons.1 hu with rfl | hu
              · exact ⟨id, i, rfl, hreach, hi, haccess t rfl⟩
              · exact hothers u hu
          · rw [if_neg hacc]
            exact ⟨none, rfl, fun ty h => nomatch h⟩
      · unfold accessTy
        simp only [hreach, Bool.not_false, if_true]
        exact ⟨none, rfl, fun ty h => nomatch h⟩

variable {e : BlockId} {d : DomTree}

theorem isReachable_iff (hd : d.Correct f e) {b : BlockId} :
    d.isReachable b = true ↔ f.Reachable b := by
  rw [DomTree.isReachable, List.contains_iff_mem, hd.ordered.mem_iff]

theorem any_isReachable_iff (hd : d.Correct f e) {id : InstId} :
    (f.instBlock id).any d.isReachable = true ↔ ∃ b, f.instBlock id = some b ∧ f.Reachable b := by
  cases hb : f.instBlock id with
  | none => simp
  | some b => simp [isReachable_iff hd]

theorem promotableTy_spec (hd : d.Correct f e) (hc : f.Consistent) (hg : f.Grounded)
    (s : InstId) :
    ∃ o, f.promotableTy d s = .ok o ∧ ∀ ty, o = some ty → f.IsSlot s ty := by
  unfold promotableTy
  by_cases hreach : (f.instBlock s).any d.isReachable = true
  · rw [if_pos hreach]
    have hinst : ∀ id, User.inst id ∈ f.usersOf (.inst s) →
        (f.instBlock id).any d.isReachable = true →
        ∃ i, f.inst? id = some i ∧
          (i.kind.isPhi = false → ∀ j, .inst j ∈ i.kind.operands → ∃ k, f.inst? j = some k) := by
      intro id hid hr
      obtain ⟨b, data, hdata, ⟨id', i, hid', hi, _, heq⟩ | ⟨_, heq⟩⟩ := mem_usersOf.1 hid
      · cases heq
        obtain ⟨b', hb', hreach'⟩ := (any_isReachable_iff hd).1 hr
        rw [(hc.mem_iff b data hdata id).1 hid'] at hb'
        cases hb'
        exact ⟨i, hi, hg b data id i hreach' hdata hid' hi⟩
      · cases heq
    obtain ⟨o, ho, hspec⟩ := accessTy_spec (f.usersOf (.inst s)) hinst none
    refine ⟨o, ho, fun ty hty => ⟨(any_isReachable_iff hd).1 hreach, ?_, ?_⟩⟩
    · intro b data id i hdata hid hi hs
      obtain ⟨id', i', heq, hr, hi', hacc⟩ := (hspec ty hty).2 (.inst id)
        (mem_usersOf.2 ⟨b, data, hdata, .inl ⟨id, i, hid, hi, hs, rfl⟩⟩)
      cases heq
      rw [hi] at hi'
      cases hi'
      obtain ⟨b', hb', hreach'⟩ := (any_isReachable_iff hd).1 hr
      rw [(hc.mem_iff b data hdata id).1 hid] at hb'
      cases hb'
      exact ⟨hreach', hacc⟩
    · intro b data hdata hs
      obtain ⟨_, _, heq, _⟩ := (hspec ty hty).2 (.term b)
        (mem_usersOf.2 ⟨b, data, hdata, .inr ⟨hs, rfl⟩⟩)
      cases heq
  · rw [if_neg hreach]
    exact ⟨none, rfl, fun ty h => nomatch h⟩

theorem map_filterMap_sublist {α β : Type} {k : α → Option (α × β)}
    (hk : ∀ a x, k a = some x → x.1 = a) (l : List α) : ((l.filterMap k).map (·.1)).Sublist l := by
  induction l with
  | nil => exact .refl _
  | cons a l ih =>
    cases ha : k a with
    | none =>
      rw [List.filterMap_cons_none ha]
      exact ih.cons _
    | some x =>
      rw [List.filterMap_cons_some ha, List.map_cons, hk a x ha]
      exact ih.cons_cons _

/-- The slots that will be promoted, in the order in which they were offered. -/
theorem promotable_spec (hd : d.Correct f e) (hc : f.Consistent) (hg : f.Grounded)
    (allocas : List InstId) :
    ∃ slots, f.promotable d allocas = .ok slots ∧ (∀ x ∈ slots, f.IsSlot x.1 x.2) ∧
      (slots.map (·.1)).Sublist allocas := by
  choose ty hty hslot using promotableTy_spec hd hc hg
  have hstep : ∀ s ∈ allocas, (do
      let t ← f.promotableTy d s
      return t.map fun ty => (s, ty) : Checked (Option (InstId × Ty))) =
        .ok ((ty s).map fun t => (s, t)) := by
    intro s _
    rw [hty s]
    rfl
  refine ⟨_, filterMapM_eq_ok allocas hstep, ?_, ?_⟩
  · intro x hx
    obtain ⟨s, _, hs⟩ := List.mem_filterMap.1 hx
    obtain ⟨t, ht, rfl⟩ := Option.map_eq_some_iff.1 hs
    exact hslot s t ht
  · refine map_filterMap_sublist ?_ allocas
    intro s x hs
    obtain ⟨t, _, rfl⟩ := Option.map_eq_some_iff.1 hs
    rfl

theorem IsSlot.confined {s : InstId} {ty : Ty} (h : f.IsSlot s ty) {n : Nat} {o : Option Ty}
    (hs : f.inst? s = some ⟨.alloca n, o⟩) : f.confines s = true := by
  obtain ⟨b, hb, _⟩ := h.home
  unfold confines
  rw [Bool.and_eq_true, Bool.and_eq_true, List.all_eq_true]
  refine ⟨⟨by rw [isLive, hb]; rfl, by rw [hs]; rfl⟩, fun u hu => ?_⟩
  obtain ⟨b, data, hdata, ⟨id, i, hid, hi, hop, rfl⟩ | ⟨hop, _⟩⟩ := mem_usersOf.1 hu
  · obtain ⟨_, hacc⟩ := h.users b data id i hdata hid hi hop
    cases hacc with
    | load => simp only [accesses, hi]
    | store hv _ => simpa only [accesses, hi, decide_eq_true_eq] using hv
  · exact absurd hop (h.terms b data hdata)

end Func

end BinaryLift
