import BinaryLift.Proofs.Run.Refinement
import BinaryLift.Proofs.Transform.StackForm
import BinaryLift.Proofs.Transform.StackMemory
import BinaryLift.Proofs.Transform.StandIns

/-!
# Executions with local slots

What the function did to the reserved region behind its stack parameter it now does to its local
slots: an access through an address is one to the slot that stands in for it, and all other
instructions stay clear of the region. So the execution with local slots follows the old one.
-/

namespace BinaryLift

open Machine

namespace Func

variable {f g g₁ : Func} {stack : Value} {e b q : BlockId} {slots : StackSlots}
  {made : List (InstId × StackSlot)} {id j a : InstId} {i : Inst} {pre post : List InstId} {v : Value}

/-! ### Addresses and local slots -/

namespace Localized

/-- Who reads an address makes an access through it. -/
theorem access (h : f.Localized stack e slots made g₁ g) (ha : a ∈ (homes made).keys)
    (hid : id ∈ f.instsOf b) (hi : f.inst? id = some i) (hop : .inst a ∈ i.kind.operands) :
    ∃ x ∈ made, a ∈ x.2.addresses ∧ toLocal (homes made) (.inst a) = .inst x.1 ∧
      ∃ ty : Ty, f.Accesses a ty i ∧ ty.bytes = x.2.width := by
  obtain ⟨x, hx, hax, hlocal⟩ := home ha
  obtain ⟨offset, haddr⟩ := h.isAddress hx hax
  obtain ⟨id', i', ty, heq, hi', hacc, hbytes⟩ := haddr.users _ (usersOf_of_mem hid hi hop)
  cases heq
  rw [hi] at hi'
  cases hi'
  exact ⟨x, hx, hax, hlocal, ty, hacc, hbytes⟩

theorem notMem_term (h : f.Localized stack e slots made g₁ g) (ha : a ∈ (homes made).keys)
    {data : Block} (hdata : f.block? b = some data) : .inst a ∉ data.term.operands := by
  intro hop
  obtain ⟨x, hx, hax, _⟩ := home ha
  obtain ⟨offset, haddr⟩ := h.isAddress hx hax
  obtain ⟨_, _, _, heq, _⟩ := haddr.users (.term b) (mem_usersOf.2 ⟨b, data, hdata, .inr ⟨hop, rfl⟩⟩)
  cases heq

theorem index_ne (h : f.Localized stack e slots made g₁ g) (hj : j.index < f.arena.size) :
    j ∉ made.map (·.1) := by
  intro hmem
  obtain ⟨x, hx, rfl⟩ := List.mem_map.1 hmem
  exact absurd (h.allotted.new x hx).1 (Nat.not_le.2 hj)

/-- A local slot is as large as the stack slot of the same number, and has its addresses. -/
theorem same_slot (h : f.Localized stack e slots made g₁ g) {n : Nat} {x : InstId × StackSlot}
    {y : Int × StackSlot} (hx : made[n]? = some x) (hy : slots[n]? = some y) : y.2 = x.2 := by
  have hmap := congrArg (·[n]?) h.aligned
  simp only [List.getElem?_map, hx, hy, Option.map_some, Option.some.injEq] at hmap
  exact hmap.symm

theorem numbered (h : f.Localized stack e slots made g₁ g) {x : InstId × StackSlot} (hx : x ∈ made) :
    ∃ (n : Nat) (y : Int × StackSlot), made[n]? = some x ∧ slots[n]? = some y := by
  obtain ⟨n, hn⟩ := List.getElem?_of_mem hx
  have hlength : made.length = slots.length := by
    simpa only [List.length_map] using congrArg List.length h.aligned
  have hlt : n < slots.length := hlength ▸ (List.getElem?_eq_some_iff.1 hn).1
  exact ⟨n, slots[n], hn, List.getElem?_eq_getElem hlt⟩

theorem typeOf_old (h : f.Localized stack e slots made g₁ g)
    (hv : ∀ j, v = .inst j → j.index < f.arena.size) : g.typeOf v = f.typeOf v := by
  rw [h.substituted.typeOf]
  cases v with
  | const c => rfl
  | arg n => simp only [typeOf, h.allotted.params]
  | inst j => simp only [typeOf, (h.allotted.old j (hv j rfl)).1]

theorem inst_old (h : f.Localized stack e slots made g₁ g) (hid : id ∈ f.instsOf b)
    (hi : f.inst? id = some i) : g.inst? id = some ⟨i.kind.mapOperands (toLocal (homes made)), i.ty⟩ :=
  h.substituted.inst b id i ((h.allotted.mem_instsOf h.live).2 (.inr hid))
    (((h.allotted.old id (index_lt_of_inst? hi)).1).trans hi)

theorem isPhi_old (h : f.Localized stack e slots made g₁ g) (hid : id ∈ f.instsOf b) :
    g.isPhi id = f.isPhi id := by
  obtain ⟨i, hi⟩ := h.wellFormed.consistent.inst?_of_mem hid
  rw [isPhi_inst hi, isPhi_inst (h.inst_old hid hi), Kind.isPhi_mapOperands]

theorem leaves (h : f.Localized stack e slots made g₁ g) {act : Activation} (hl : act.Leaves f) :
    act.Leaves g :=
  h.substituted.leaves (h.allotted.leaves hl)

/-- Addresses are no phis. -/
theorem phi_notMem (h : f.Localized stack e slots made g₁ g) (hphi : f.isPhi id = true) :
    id ∉ (homes made).keys := by
  intro hid
  obtain ⟨x, hx, hax, _⟩ := home hid
  obtain ⟨offset, haddr⟩ := h.isAddress hx hax
  obtain ⟨c, o, hi, _⟩ := haddr.offset
  rw [isPhi_inst hi] at hphi
  cases hphi

/-- Only stack parameter and addresses are computed from the stack parameter, and addresses that are
not replaced are not read. -/
theorem comesFrom_cases (h : f.Localized stack e slots made g₁ g) (hd : f.ComesFrom stack v) :
    v = stack ∨ ∃ a, v = .inst a ∧ (f.usersOf (.inst a) = [] ∨ a ∈ (homes made).keys) := by
  induction hd with
  | self => exact .inl rfl
  | @step b id i v hid hi haccess hv _ ih =>
    right
    rcases ih with rfl | ⟨a, rfl, hnone | ha⟩
    · obtain ⟨a, c, o, heq, _, hseen⟩ := h.split.covers _ (usersOf_of_mem hid hi hv)
      cases heq
      refine ⟨id, rfl, hseen.imp_right ?_⟩
      rintro ⟨y, hy, ha⟩
      have hmem : y.2 ∈ made.map (·.2) := h.aligned ▸ List.mem_map.2 ⟨y, hy, rfl⟩
      obtain ⟨x, hx, heq⟩ := List.mem_map.1 hmem
      exact mem_keys hx (heq ▸ ha)
    · have huser := usersOf_of_mem hid hi hv
      rw [hnone] at huser
      cases huser
    · obtain ⟨_, _, _, _, ty, hacc, _⟩ := h.access ha hid hi hv
      cases hacc with
      | load =>
        simp only [access?, hi] at haccess
        cases haccess
      | store _ _ =>
        simp only [access?, hi] at haccess
        cases haccess

/-- What reads no address and makes none reads nothing that is computed from the stack parameter. -/
theorem not_comesFrom (h : f.Localized stack e slots made g₁ g) (hid : id ∈ f.instsOf b)
    (hi : f.inst? id = some i) (hkind : ∀ u c, i.kind ≠ .ptrAdd u (.const c))
    (hops : ∀ a ∈ (homes made).keys, .inst a ∉ i.kind.operands) (hv : v ∈ i.kind.operands) :
    ¬ f.ComesFrom stack v := by
  intro hd
  have huser := usersOf_of_mem hid hi hv
  rcases h.comesFrom_cases hd with rfl | ⟨a, rfl, hnone | ha⟩
  · obtain ⟨a, c, o, heq, hi', _⟩ := h.split.covers _ huser
    cases heq
    rw [hi] at hi'
    cases hi'
    exact hkind _ _ rfl
  · rw [hnone] at huser
    cases huser
  · exact hops a ha hv

/-- Nothing that is computed from the stack parameter is given away. -/
theorem not_exposes (h : f.Localized stack e slots made g₁ g) : ¬ f.Exposes stack := by
  rintro ⟨b, id, i, v, hid, hi, hd, hgiven⟩
  have hv : v ∈ i.kind.operands := by
    rcases hgiven with ⟨q, hk⟩ | ⟨callee, args, hk, hv⟩
    · rw [hk]
      exact List.mem_cons_of_mem _ List.mem_cons_self
    · rwa [hk]
  have huser := usersOf_of_mem hid hi hv
  rcases h.comesFrom_cases hd with rfl | ⟨a, rfl, hnone | ha⟩
  · obtain ⟨a, c, o, heq, hi', _⟩ := h.split.covers _ huser
    cases heq
    rw [hi] at hi'
    cases hi'
    rcases hgiven with ⟨_, hk⟩ | ⟨_, _, hk, _⟩ <;> cases hk
  · rw [hnone] at huser
    cases huser
  · obtain ⟨_, _, _, _, ty, hacc, _⟩ := h.access ha hid hi hv
    cases hacc with
    | load => rcases hgiven with ⟨_, hk⟩ | ⟨_, _, hk, _⟩ <;> cases hk
    | store hne _ =>
      rcases hgiven with ⟨_, hk⟩ | ⟨_, _, hk, _⟩
      · cases hk
        exact hne rfl
      · cases hk

end Localized

/-! ### The states -/

/-- A function whose stack slots become local slots, in an execution in which the stack parameter is
`p` and alone leads to the region. -/
structure Backed (act : Activation) (memory : Memory) (region : Word → Prop) (p : Word) (f : Func)
    (stack : Value) (e : BlockId) (slots : StackSlots) (made : List (InstId × StackSlot))
    (g₁ g : Func) : Prop extends f.Localized stack e slots made g₁ g where
  typed : f.WellTyped
  wide : ∀ b a c o, a ∈ f.instsOf b → f.inst? a = some ⟨.ptrAdd stack (.const c), o⟩ → c.ty = .i64
  leaves : act.Leaves f
  base : ∀ m : Machine, m.eval act f stack = some p
  owned : ∀ s i, act.own s = true → f.inst? s = some i → i.kind.isAlloca = true
  reserves : f.Reserves act memory stack region

/-- The execution of `f` and the one with local slots, both in block `b` behind `pre`. -/
structure Mirrors (f : Func) (region : Word → Prop) (p : Word) (slots : StackSlots)
    (made : List (InstId × StackSlot)) (b : BlockId) (pre : List InstId) (m m' : Machine) : Prop
    extends Stacked region p slots made m m' where
  env : ∀ j w, j ∉ (homes made).keys → f.Available b pre j → m.env j = some w → m'.env j = some w
  home : ∀ x ∈ made, ∃ w, m'.env x.1 = some w

variable {act : Activation} {memory : Memory} {region : Word → Prop} {p : Word}
  {m m' m₁ m₁' : Machine} {w : Word}

theorem index_lt_of_available (hwf : f.WellFormed) (hb : f.Reachable b) (hpre : pre <+: f.instsOf b)
    (hj : f.Available b pre j) : j.index < f.arena.size := by
  obtain ⟨c, hjc, _⟩ := hwf.consistent.home_of_available hb hpre.subset hj
  obtain ⟨i, hi⟩ := hwf.consistent.inst?_of_mem (hwf.consistent.mem_instsOf.2 hjc)
  exact index_lt_of_inst? hi

namespace Backed

theorem leaves_local (h : f.Backed act memory region p stack e slots made g₁ g) :
    (act.adopt (made.map (·.1))).Leaves g := by
  have hadopt : (act.adopt (made.map (·.1))).Leaves f := h.leaves
  exact h.toLocalized.leaves hadopt

theorem address_own (h : f.Backed act memory region p stack e slots made g₁ g)
    (ha : a ∈ (homes made).keys) : act.own a = false := by
  cases hown : act.own a with
  | false => rfl
  | true =>
    obtain ⟨x, hx, hax, _⟩ := Localized.home ha
    obtain ⟨offset, haddr⟩ := h.isAddress hx hax
    obtain ⟨c, o, hi, _⟩ := haddr.offset
    have halloca := h.owned a _ hown hi
    cases halloca

/-- An address is where its stack slot lies behind the stack parameter. -/
theorem address_value (h : f.Backed act memory region p stack e slots made g₁ g)
    (hvisit : f.Visits act memory b pre m) (hav : f.Available b pre a) {y : Int × StackSlot}
    (hy : y ∈ slots) (ha : a ∈ y.2.addresses) : m.env a = some (p + BitVec.ofInt 64 y.1) := by
  have haddr := h.split.address y hy a ha
  obtain ⟨c, o, hi, hc⟩ := haddr.offset
  obtain ⟨d, hd⟩ := haddr.live
  have hlive : f.isLive a = true := h.wellFormed.consistent.isLive_of_mem hd
  have hptr : o = some .ptr := (h.typed.kind hlive hi).2.2
  subst hptr
  rw [hvisit.env_ptrAdd h.wellFormed h.leaves hi hav (h.base m), ← hc,
    Constant.ofInt_signed (h.wide d a c _ hd hi)]

/-- An access that goes through no address stays clear of the region. -/
theorem clear (h : f.Backed act memory region p stack e slots made g₁ g)
    (hvisit : f.Visits act memory b pre m) (hb : f.Reachable b)
    (hsplit : f.instsOf b = pre ++ id :: post) (hi : f.inst? id = some i)
    (hops : ∀ a ∈ (homes made).keys, .inst a ∉ i.kind.operands) {ws : List Word}
    (hws : i.kind.operands.mapM (m.eval act f) = some ws) {act₁ : Action}
    (ha : action act f id i.kind ws = some act₁) :
    act₁.Clear act region (made.map (·.1)) (f.wordTy (.inst id)) m := by
  have hid := mem_of_split hsplit
  have hplace : ∀ v ty x, f.access? id = some (v, ty) → v ∈ i.kind.operands →
      i.kind.isPhi = false → m.eval act f v = some x → ¬ f.ComesFrom stack v →
      (act.place v x).Clear region (made.map (·.1)) ty.bytes := by
    intro v ty x haccess hv hphi hx hnot
    cases hp : act.place v x with
    | slot s =>
      obtain ⟨rfl, _⟩ := slot_of_place hp
      exact h.index_ne (index_lt_of_available h.wellFormed hb hvisit.pre_prefix
        (h.wellFormed.use hb hsplit hi hphi hv))
    | guest x' =>
      rw [← guest_of_place hp]
      intro k hk hr
      rcases h.reserves.reached v ty x k
        ⟨b, pre, id, post, m, hvisit, hsplit, haccess, hx, guest_of_place hp ▸ hp⟩ hk hr with hd | hexp
      · exact hnot hd
      · exact h.not_exposes hexp
  have hread : ∀ u ∈ i.kind.operands, (∀ v c, i.kind ≠ .ptrAdd v (.const c)) → ¬ f.ComesFrom stack u :=
    fun u hu hkind => h.not_comesFrom hid hi hkind hops hu
  obtain ⟨kind, o⟩ := i
  rcases action_cases ha with ⟨w, rfl⟩ | ⟨u, x, hk, rfl, rfl⟩ | ⟨u, v, x, w, hk, rfl, rfl⟩ | ⟨c, rfl⟩
  · trivial
  · have hk' : kind = .load u := hk
    subst hk'
    refine hplace u _ x ?_ List.mem_cons_self rfl ?_ (hread u List.mem_cons_self ?_)
    · simp only [access?, hi]
    · exact (mapM_cons_eq_some.1 hws).1
    · rintro v c ⟨⟩
  · have hk' : kind = .store u v := hk
    subst hk'
    refine hplace u _ x ?_ List.mem_cons_self rfl ?_ (hread u List.mem_cons_self ?_)
    · simp only [access?, hi]
    · exact (mapM_cons_eq_some.1 hws).1
    · rintro v c ⟨⟩
  · obtain ⟨callee, args, hk⟩ := call_of_action ha
    have hk' : kind = .call callee args := hk
    subst hk'
    cases ha
    exact (h.reserves.calls b pre id post m callee args o ws hvisit hsplit hi hws).resolve_left
      h.not_exposes

end Backed

namespace Mirrors

/-- A value other than an address is what it was. -/
theorem eval (hm : f.Mirrors region p slots made b pre m m')
    (h : f.Localized stack e slots made g₁ g) (hv : f.AtHand b pre v) (hkey : ∀ a, v = .inst a → a ∉ (homes made).keys)
    (hw : m.eval act f v = some w) :
    m'.eval (act.adopt (made.map (·.1))) g (toLocal (homes made) v) = some w := by
  rw [eval_adopt]
  cases v with
  | const c => exact hw
  | arg n =>
    have hty : g.typeOf (.arg n) = f.typeOf (.arg n) := h.typeOf_old fun _ heq => by cases heq
    simp only [toLocal, Machine.eval, wordTy, hty] at hw ⊢
    exact hw
  | inst j =>
    rw [toLocal_of_notMem (hkey j rfl)]
    exact hm.env j w (hkey j rfl) hv hw

theorem advance (hm : f.Mirrors region p slots made b pre m m')
    (hs : Stacked region p slots made m₁ m₁') (henv : ∀ j, j ≠ id → m₁.env j = m.env j)
    (henv' : ∀ j, j ≠ id → m₁'.env j = m'.env j) (hne : ∀ x ∈ made, x.1 ≠ id)
    (hid : id ∉ (homes made).keys → ∀ w, m₁.env id = some w → m₁'.env id = some w) :
    f.Mirrors region p slots made b (pre ++ [id]) m₁ m₁' where
  toStacked := hs
  env := by
    intro j w hkey hj hw
    by_cases hjid : j = id
    · subst hjid
      exact hid hkey w hw
    · rw [henv j hjid] at hw
      rw [henv' j hjid]
      exact hm.env j w hkey (available_snoc hj hjid) hw
  home := by
    intro x hx
    rw [henv' x.1 (hne x hx)]
    exact hm.home x hx

end Mirrors

end Func

end BinaryLift
