import BinaryLift.Proofs.Transform.CurrentValues
import Mathlib.Data.List.Induction

/-!
# Where current values come from

Every current value is zero, a phi of a dominating block or what a store on every way has written.
So it is defined before the place at which it is current, and it is never a slot that only direct
accesses can reach.
-/

namespace BinaryLift.Promotion

open Func

variable {f : Func} {P : Promotion f}

/-- Where the value of slot `n` comes from in block `b` behind `pre`. -/
inductive Source (P : Promotion f) (b : BlockId) (pre : List InstId) (n : Nat) : Value → Prop
  | zero {s : InstId} {ty : Ty} : P.slots[n]? = some (s, ty) → Source P b pre n (.int 0 ty)
  | phi {c : BlockId} {p : InstId} : (n, p) ∈ P.phis.ofBlock c → f.Dominates c b →
    Source P b pre n (.inst p)
  | store {c : BlockId} {before after : List InstId} {id s : InstId} {v : Value} {o : Option Ty}
    {ty : Ty} : f.instsOf c = before ++ id :: after → f.inst? id = some ⟨.store (.inst s) v, o⟩ →
    P.slots[n]? = some (s, ty) → (c = b ∧ before ++ [id] <+: pre) ∨ f.StrictlyDominates c b →
    Source P b pre n v

variable {b c : BlockId} {pre : List InstId} {n : Nat} {v : Value}

theorem Source.mono {pre' : List InstId} (h : P.Source b pre n v) (hpre : pre <+: pre') :
    P.Source b pre' n v := by
  cases h with
  | zero hs => exact .zero hs
  | phi hp hdom => exact .phi hp hdom
  | store hsplit hi hs hwhere =>
    refine .store hsplit hi hs (hwhere.imp_left ?_)
    rintro ⟨rfl, hprefix⟩
    exact ⟨rfl, hprefix.trans hpre⟩

theorem Source.down {pre' : List InstId} (h : P.Source b pre n v) (hc : f.Reachable c)
    (hbc : f.StrictlyDominates b c) : P.Source c pre' n v := by
  cases h with
  | zero hs => exact .zero hs
  | phi hp hdom => exact .phi hp (hdom.trans hbc.2)
  | store hsplit hi hs hwhere =>
    refine .store hsplit hi hs (.inr ?_)
    rcases hwhere with ⟨rfl, _⟩ | hdom
    · exact hbc
    · exact hdom.trans_dominates hc hbc.2

theorem Sound.source_entered (h : P.Sound)
    (hhead : P.Source b [] n (valueOf (P.head b) n)) :
    P.Source b [] n (valueOf (P.entered b (P.head b)) n) := by
  by_cases hphi : ∃ p, (n, p) ∈ P.phis.ofBlock b
  · obtain ⟨p, hp⟩ := hphi
    rw [h.valueOf_entered hp]
    exact .phi hp (.refl f b)
  · rw [valueOf_entered_of_not fun p hp => hphi ⟨p, hp⟩]
    exact hhead

theorem Sound.track_cases (h : P.Sound) (cur : List Value) (id : InstId) :
    P.track cur id = cur ∨ ∃ s v o n ty, f.inst? id = some ⟨.store (.inst s) v, o⟩ ∧
      P.slots[n]? = some (s, ty) ∧ P.track cur id = cur.set n v := by
  by_cases hstore : ∃ p v o n, f.inst? id = some ⟨.store p v, o⟩ ∧ slotNumber? P.slots p = some n
  · obtain ⟨p, v, o, n, hi, hn⟩ := hstore
    obtain ⟨s, ty, rfl, hs⟩ := h.slotNumber?_iff.1 hn
    exact .inr ⟨s, v, o, n, ty, hi, hs, track_store hi hn⟩
  · refine .inl (track_eq_self fun p v o hi => ?_)
    rw [Option.eq_none_iff_forall_ne_some]
    intro n hn
    exact hstore ⟨p, v, o, n, hi, hn⟩

theorem Sound.source_scan (h : P.Sound)
    (hentered : P.Source b [] n (valueOf (P.entered b (P.head b)) n)) :
    ∀ pre, pre <+: f.instsOf b → P.Source b pre n (valueOf (P.current b pre) n) := by
  intro pre
  induction pre using List.reverseRecOn with
  | nil => exact fun _ => hentered
  | append_singleton pre id ih =>
    intro hprefix
    have hbefore := ih ((List.prefix_append pre [id]).trans hprefix)
    rw [current_snoc]
    rcases h.track_cases (P.current b pre) id with hsame | ⟨s, v, o, m, ty, hi, hs, hset⟩
    · rw [hsame]
      exact hbefore.mono (List.prefix_append pre [id])
    · have hlt : m < (P.current b pre).length := by
        rw [length_current]
        exact (List.getElem?_eq_some_iff.1 hs).1
      rw [hset, valueOf_set hlt]
      split
      · rename_i hmn
        subst hmn
        obtain ⟨after, hafter⟩ := hprefix
        rw [List.append_assoc] at hafter
        exact .store hafter.symm hi hs (.inl ⟨rfl, List.prefix_refl _⟩)
      · exact hbefore.mono (List.prefix_append pre [id])

/-- Down the tree, a block at a time. -/
theorem Sound.source_current (h : P.Sound) {s : InstId} {ty : Ty}
    (hs : P.slots[n]? = some (s, ty)) (hb : f.Reachable b) (hpre : pre <+: f.instsOf b) :
    P.Source b pre n (valueOf (P.current b pre) n) := by
  induction hk : P.dom.rpo.idxOf b using Nat.strongRecOn generalizing b pre with
  | ind k ih =>
    subst hk
    refine h.source_scan (h.source_entered ?_) pre hpre
    by_cases hbe : b = P.entry
    · have hstart : valueOf P.start n = .int 0 ty := by
        rw [valueOf, start, List.getElem?_map, hs]
        rfl
      rw [hbe, h.head_entry, hstart]
      exact .zero hs
    · obtain ⟨p, hp⟩ := h.correct.idom b hb hbe
      obtain ⟨hreach, hlt⟩ := h.correct.idom_lt b p hp
      rw [h.head_of_idom hp]
      exact (ih _ hlt hreach (List.prefix_refl _) rfl).down hb (h.correct.idom_strictly hp)

/-! ### Values that are there -/

/-- The value is there whenever control is in block `b` behind `pre`. -/
def Earlier (P : Promotion f) (b : BlockId) (pre : List InstId) : Value → Prop
  | .inst j => f.Available b pre j ∨ ∃ c n, (n, j) ∈ P.phis.ofBlock c ∧ f.Dominates c b
  | _ => True

theorem Earlier.mono {pre' : List InstId} (h : P.Earlier b pre v) (hpre : pre ⊆ pre') :
    P.Earlier b pre' v := by
  cases v with
  | inst j => exact h.imp_left fun hj => available_mono hj hpre
  | const c => trivial
  | arg k => trivial

theorem Earlier.down {data : Block} {pre' : List InstId} (h : P.Earlier b pre v)
    (hdata : f.block? b = some data) (hpre : pre ⊆ data.insts) (hc : f.Reachable c)
    (hbc : f.StrictlyDominates b c) : P.Earlier c pre' v := by
  cases v with
  | inst j =>
    rcases h with hj | ⟨a, n, hp, hdom⟩
    · exact .inl (available_down hj hdata hpre hc hbc)
    · exact .inr ⟨a, n, hp, hdom.trans hbc.2⟩
  | const c => trivial
  | arg k => trivial

theorem mem_slots {s : InstId} : s ∈ P.slots.map (·.1) ↔ ∃ (n : Nat) (ty : Ty), P.slots[n]? = some (s, ty) := by
  constructor
  · intro h
    obtain ⟨⟨s', ty⟩, hx, rfl⟩ := List.mem_map.1 h
    obtain ⟨n, hn⟩ := List.getElem?_of_mem hx
    exact ⟨n, ty, hn⟩
  · rintro ⟨n, ty, hn⟩
    exact List.mem_map.2 ⟨(s, ty), List.mem_of_getElem? hn, rfl⟩

/-- Whoever names a promoted slot is a reachable access of it. -/
theorem Sound.users (h : P.Sound) {id s : InstId} {i : Inst} {ty : Ty} (hid : id ∈ f.instsOf b)
    (hi : f.inst? id = some i) (hs : P.slots[n]? = some (s, ty))
    (hop : .inst s ∈ i.kind.operands) : f.Reachable b ∧ f.Accesses s ty i := by
  obtain ⟨data, hdata, hmem⟩ := exists_block_of_mem hid
  exact (h.slot n s ty hs).users b data id i hdata hmem hi hop

theorem Sound.earlier_of_source (h : P.Sound) (hb : f.Reachable b) (hs : P.Source b pre n v) :
    P.Earlier b pre v := by
  cases hs with
  | zero _ => trivial
  | phi hp hdom => exact .inr ⟨_, _, hp, hdom⟩
  | @store c before after id s v o ty hsplit hi _ hwhere =>
    cases v with
    | const c => trivial
    | arg k => trivial
    | inst j =>
      obtain ⟨data, hdata, hinsts⟩ := exists_block_of_insts hsplit
      have hc : f.Reachable c := by
        rcases hwhere with ⟨rfl, _⟩ | hdom
        · exact hb
        · exact hdom.2.reachable hb
      have hj : f.Available c before j := h.wellFormed.uses c data before id after _ hc hdata hinsts
        hi rfl j (by simp [Kind.operands])
      have hsub : before ⊆ data.insts := by
        rw [hinsts]
        exact List.subset_append_left _ _
      rcases hwhere with ⟨rfl, hprefix⟩ | hdom
      · refine .inl (available_mono hj fun i hi => hprefix.subset ?_)
        exact List.mem_append_left _ hi
      · exact .inl (available_down hj hdata hsub hb hdom)

/-! ### Values that are not addresses of own slots -/

theorem Sound.inst?_phi (h : P.Sound) {p : InstId} (hp : (n, p) ∈ P.phis.ofBlock c) :
    f.inst? p = none := by
  obtain ⟨hle, _⟩ := h.placed.new c n p hp
  rw [Func.inst?, Array.getElem?_eq_none hle]
  rfl

theorem not_confines_of_store {before after : List InstId} {id j : InstId} {p : Value}
    {o : Option Ty} (hsplit : f.instsOf c = before ++ id :: after)
    (hi : f.inst? id = some ⟨.store p (.inst j), o⟩) : f.confines j = false := by
  obtain ⟨data, hdata, hinsts⟩ := exists_block_of_insts hsplit
  have huser : User.inst id ∈ f.usersOf (.inst j) := mem_usersOf.2 ⟨c, data, hdata,
    .inl ⟨id, _, by simp [hinsts], hi, by simp [Kind.operands], rfl⟩⟩
  have haccess : f.accesses j (.inst id) = false := by simp [accesses, hi]
  have hall : (f.usersOf (.inst j)).all (f.accesses j) = false := by
    rw [List.all_eq_false]
    exact ⟨_, huser, by simp [haccess]⟩
  rw [confines, hall, Bool.and_false]

/-- The promoted slots are own slots. Every own slot is a local slot, and no code that control can
reach stores where it is. -/
structure Owned (P : Promotion f) (own : InstId → Bool) : Prop where
  promoted : ∀ s ∈ P.slots.map (·.1), own s = true
  alloca : ∀ s, own s = true → ∃ size o, f.inst? s = some ⟨.alloca size, o⟩
  unstored : ∀ s, own s = true → ∀ b id p o, f.Reachable b → id ∈ f.instsOf b →
    f.inst? id ≠ some ⟨.store p (.inst s), o⟩

/-- All slots that only direct accesses reach may be own slots. -/
theorem Sound.owned (h : P.Sound) : P.Owned f.confines where
  promoted := by
    intro s hs
    obtain ⟨n, ty, hn⟩ := mem_slots.1 hs
    obtain ⟨size, o, hi⟩ := h.alloca n s ty hn
    exact (h.slot n s ty hn).confined hi
  alloca := by
    intro s hs
    simp only [confines, Bool.and_eq_true] at hs
    obtain ⟨⟨kind, o⟩, hi, halloca⟩ := (Option.any_eq_true _ _).1 hs.1.2
    cases kind with
    | alloca size => exact ⟨size, o, hi⟩
    | _ => cases halloca
  unstored := by
    intro s hs b id p o _ hid hi
    obtain ⟨before, after, hsplit⟩ := List.append_of_mem hid
    rw [not_confines_of_store hsplit hi] at hs
    cases hs

theorem Owned.not_source {own : InstId → Bool} (hown : P.Owned own) (h : P.Sound) {j : InstId}
    (hb : f.Reachable b) (hs : P.Source b pre n (.inst j)) : own j = false := by
  cases hj : own j with
  | false => rfl
  | true =>
    obtain ⟨size, o, hi⟩ := hown.alloca j hj
    generalize hv : Value.inst j = v at hs
    cases hs with
    | zero _ => cases hv
    | phi hp _ =>
      cases hv
      rw [h.inst?_phi hp] at hi
      cases hi
    | @store c _ _ _ _ _ _ _ hsplit hstore _ hwhere =>
      subst hv
      have hc : f.Reachable c := by
        rcases hwhere with ⟨rfl, _⟩ | hdom
        · exact hb
        · exact hdom.2.reachable hb
      exact absurd hstore (hown.unstored j hj _ _ _ _ hc (mem_of_split hsplit))

/-! ### An order of the instructions -/

/-- The instruction loads slot values, and `v` is current where it stands. -/
def Loads (P : Promotion f) (id : InstId) (v : Value) : Prop :=
  ∃ b before after s o n ty, f.Reachable b ∧ f.instsOf b = before ++ id :: after ∧
    f.inst? id = some ⟨.load (.inst s), o⟩ ∧ P.slots[n]? = some (s, ty) ∧
    v = valueOf (P.current b before) n

/-- All reachable instructions, block after block. -/
def order (P : Promotion f) : List InstId := P.dom.rpo.flatMap f.instsOf

theorem idxOf_lt_idxOf {α : Type} [DecidableEq α] {l r : List α} {x y : α} (hx : x ∈ l)
    (hy : y ∉ l) : (l ++ r).idxOf x < (l ++ r).idxOf y := by
  have hxl : (l ++ r).idxOf x < l.length := by
    rw [List.idxOf_append_of_mem hx]
    exact List.idxOf_lt_length_of_mem hx
  rw [List.idxOf_append_of_notMem hy]
  omega

theorem Sound.order_lt (h : P.Sound) (hb : f.Reachable b) {before after : List InstId} {id j : InstId}
    (hsplit : f.instsOf b = before ++ id :: after) (hj : f.Available b before j) :
    P.order.idxOf j < P.order.idxOf id := by
  have hbmem := (h.correct.ordered.mem_iff b).2 hb
  obtain ⟨l, r, hrpo⟩ := List.append_of_mem hbmem
  have hnodup := h.correct.ordered.nodup
  have hbl : b ∉ l := by
    rw [hrpo, List.nodup_append] at hnodup
    exact fun hmem => hnodup.2.2 b hmem b List.mem_cons_self rfl
  have hlen : P.dom.rpo.idxOf b = l.length := by
    rw [hrpo, List.idxOf_append_of_notMem hbl, List.idxOf_cons_self, Nat.add_zero]
  have horder : P.order = (l.flatMap f.instsOf ++ before) ++ id :: (after ++ r.flatMap f.instsOf) := by
    rw [order, hrpo, List.flatMap_append, List.flatMap_cons, hsplit]
    simp
  have hid := mem_of_split hsplit
  rw [horder]
  refine idxOf_lt_idxOf (List.mem_append.2 ?_) fun hmem => ?_
  · rcases hj with hj | ⟨c, data, hdom, hdata, hj⟩
    · exact .inr hj
    · have hlt := h.correct.idxOf_lt hb hdom
      have hc : c ∈ l := by
        by_contra hcl
        rw [hrpo, List.idxOf_append_of_notMem hcl, ← hrpo] at hlt
        omega
      refine .inl (List.mem_flatMap.2 ⟨c, hc, ?_⟩)
      rwa [instsOf_eq hdata]
  · rcases List.mem_append.1 hmem with hmem | hmem
    · obtain ⟨c, hc, hidc⟩ := List.mem_flatMap.1 hmem
      rw [h.wellFormed.consistent.same_block hid hidc] at hbl
      exact hbl hc
    · exact (h.wellFormed.consistent.notMem_of_split hsplit).1 hmem

theorem Sound.source_of_loads (h : P.Sound) {id : InstId} (hl : P.Loads id v) :
    ∃ b before after n, f.Reachable b ∧ f.instsOf b = before ++ id :: after ∧
      P.Source b before n v := by
  obtain ⟨b, before, after, s, o, n, ty, hb, hsplit, _, hs, rfl⟩ := hl
  refine ⟨b, before, after, n, hb, hsplit, h.source_current hs hb ?_⟩
  rw [hsplit]
  exact List.prefix_append _ _

/-- Current values at a load that are themselves loaded are loaded before. -/
theorem Sound.order_lt_of_loads (h : P.Sound) {id j : InstId} {w : Value}
    (hl : P.Loads id (.inst j)) (hj : P.Loads j w) : P.order.idxOf j < P.order.idxOf id := by
  obtain ⟨b, before, after, n, hb, hsplit, hsource⟩ := h.source_of_loads hl
  rcases h.earlier_of_source hb hsource with hav | ⟨c, m, hp, _⟩
  · exact h.order_lt hb hsplit hav
  · obtain ⟨_, _, _, s, o, _, _, _, _, hi, _⟩ := hj
    rw [h.inst?_phi hp] at hi
    cases hi

theorem Sound.loads_unique (h : P.Sound) {id : InstId} {u : Value} (hu : P.Loads id u)
    (hv : P.Loads id v) : u = v := by
  obtain ⟨b, before, after, s, o, n, ty, _, hsplit, hi, hs, rfl⟩ := hu
  obtain ⟨b', before', after', s', o', n', ty', _, hsplit', hi', hs', rfl⟩ := hv
  have hbb := h.wellFormed.consistent.same_block (mem_of_split hsplit) (mem_of_split hsplit')
  subst hbb
  rw [hi] at hi'
  cases hi'
  have hnn := h.slot_inj hs hs'
  subst hnn
  obtain ⟨hbefore, hafter⟩ := h.wellFormed.consistent.notMem_of_split hsplit
  have heq := hsplit.symm.trans hsplit'
  rw [List.append_cons_inj_of_notMem hbefore hafter] at heq
  rw [heq.1]

end BinaryLift.Promotion
