import BinaryLift.Proofs.Transform.StackRun

/-!
# The execution with local slots

One step of the old execution is one step of the new one, or none if it computes an address that is
gone. At the start of the entry block the new one makes its local slots first.
-/

namespace BinaryLift

open Machine

namespace Func

variable {f g g₁ : Func} {stack : Value} {e b q : BlockId} {slots : StackSlots}
  {made : List (InstId × StackSlot)} {id a : InstId} {i : Inst} {pre post : List InstId}
  {v : Value} {act : Activation} {memory : Memory} {region : Word → Prop} {p w : Word}
  {m m' m₁ m₁' : Machine} {n : Nat} {x : InstId × StackSlot} {y : Int × StackSlot} {ty : Ty}

/-! ### Accesses to local slots -/

theorem Accesses.isPhi (h : f.Accesses a ty i) : i.kind.isPhi = false := by
  cases h <;> rfl

theorem Accesses.mem_operands (h : f.Accesses a ty i) : .inst a ∈ i.kind.operands := by
  cases h <;> exact List.mem_cons_self

theorem Accesses.access? (h : f.Accesses a ty i) (hi : f.inst? id = some i) :
    f.access? id = some (.inst a, ty) := by
  cases h with
  | load => simp only [Func.access?, hi, wordTy_inst hi, Option.getD_some]
  | store _ hty => simp only [Func.access?, hi, wordTy, hty, Option.getD_some]

namespace Localized

variable {k : Nat} {x' : InstId × StackSlot} {y' : Int × StackSlot}

theorem made_ne (h : f.Localized stack e slots made g₁ g) (hx : made[n]? = some x)
    (hx' : made[k]? = some x') (hne : k ≠ n) : x'.1 ≠ x.1 := by
  intro heq
  have hat : (made.map (·.1))[k]? = (made.map (·.1))[n]? := by
    rw [List.getElem?_map, List.getElem?_map, hx', hx, Option.map_some, Option.map_some, heq]
  have hlt : k < (made.map (·.1)).length := by
    rw [List.length_map]
    exact (List.getElem?_eq_some_iff.1 hx').1
  exact hne ((List.getElem?_inj hlt h.allotted.nodup).1 hat)

/-- The bytes of two stack slots are not the same. -/
theorem behind_ne (h : f.Localized stack e slots made g₁ g) (hy : slots[n]? = some y)
    (hx : made[n]? = some x) (hy' : slots[k]? = some y') (hx' : made[k]? = some x') (hne : k ≠ n)
    {i j : Nat} (hi : i < x'.2.width) (hj : j < x.2.width) : behind p y'.1 i ≠ behind p y.1 j := by
  intro heq
  have hwidth := congrArg StackSlot.width (h.same_slot hx hy)
  have hwidth' := congrArg StackSlot.width (h.same_slot hx' hy')
  obtain ⟨hlow, hhigh⟩ := h.split.bounds y (List.mem_of_getElem? hy)
  obtain ⟨hlow', hhigh'⟩ := h.split.bounds y' (List.mem_of_getElem? hy')
  have hsame : y'.1 + i = y.1 + j := behind_inj (by omega) (by omega) (by omega) (by omega) heq
  have hapart := h.split.apart hy' hy hne
  omega

/-- What is written to a local slot is written behind the stack parameter, and to no other slot. -/
theorem write_slot (h : f.Localized stack e slots made g₁ g)
    (hs : Stacked region p slots made m m') (hy : slots[n]? = some y) (hx : made[n]? = some x)
    (hbytes : ty.bytes = x.2.width) (hregion : ∀ k < ty.bytes, region (behind p y.1 k)) (w : Word) :
    Stacked region p slots made (m.write ty w (.guest (p + BitVec.ofInt 64 y.1)))
      (m'.write ty w (.slot x.1)) := by
  refine ⟨hs.calls, fun a ha => ?_, fun s hsm => ?_, fun k y' x' hy' hx' i hi hr => ?_⟩
  · show m'.memory a = m.memory.write (p + BitVec.ofInt 64 y.1) ty w a
    rw [Memory.write_of_ne, hs.memory a ha]
    rintro i hi rfl
    exact ha (hregion i hi)
  · have hne : s ≠ x.1 := by
      rintro rfl
      exact hsm (List.mem_map.2 ⟨x, List.mem_of_getElem? hx, rfl⟩)
    simp only [Machine.write, if_neg hne, hs.others s hsm]
  · show (if x'.1 = x.1 then _ else _ : Memory) _ = m.memory.write _ ty w (behind p y'.1 i)
    by_cases hk : k = n
    · subst hk
      rw [hx] at hx'
      rw [hy] at hy'
      cases hx'
      cases hy'
      have hi' : i < ty.bytes := hbytes ▸ hi
      rw [if_pos rfl, behind, Memory.write_add _ _ _ _ hi', Memory.write_zero _ _ _ hi']
    · have hother : m.memory.write (p + BitVec.ofInt 64 y.1) ty w (behind p y'.1 i) =
          m.memory (behind p y'.1 i) :=
        Memory.write_of_ne fun j hj => h.behind_ne hy hx hy' hx' hk hi (hbytes ▸ hj)
      rw [if_neg (h.made_ne hx hx' hk), hother]
      exact hs.bytes k y' x' hy' hx' i hi hr

end Localized

/-- An access through an address goes to the bytes of its stack slot, and these are in the region. -/
theorem Backed.access_region (h : f.Backed act memory region p stack e slots made g₁ g)
    (hvisit : f.Visits act memory b pre m) (hb : f.Reachable b)
    (hsplit : f.instsOf b = pre ++ id :: post) (hi : f.inst? id = some i)
    (ha : a ∈ (homes made).keys) (hy : y ∈ slots) (hay : a ∈ y.2.addresses)
    (hacc : f.Accesses a ty i) :
    m.eval act f (.inst a) = some (p + BitVec.ofInt 64 y.1) ∧
      act.place (.inst a) (p + BitVec.ofInt 64 y.1) = .guest (p + BitVec.ofInt 64 y.1) ∧
      ∀ k < ty.bytes, region (behind p y.1 k) := by
  have hav := h.wellFormed.use hb hsplit hi hacc.isPhi hacc.mem_operands
  have hvalue := h.address_value hvisit hav hy hay
  have hplace : act.place (.inst a) (p + BitVec.ofInt 64 y.1) =
      .guest (p + BitVec.ofInt 64 y.1) := by
    simp only [Activation.place, h.address_own ha, Bool.false_eq_true, if_false]
  refine ⟨hvalue, hplace, fun k hk => ?_⟩
  obtain ⟨c, o, hi', _⟩ := (h.split.address y hy a hay).offset
  exact h.reserves.within a c o ty _ k
    ⟨b, pre, id, post, m, hvisit, hsplit, hacc.access? hi, hvalue, hplace⟩ hi' hk

/-! ### Instructions -/

namespace Localized

theorem ne_made (h : f.Localized stack e slots made g₁ g) (hi : f.inst? id = some i) :
    ∀ x ∈ made, x.1 ≠ id := by
  rintro x hx rfl
  exact h.index_ne (index_lt_of_inst? hi) (List.mem_map.2 ⟨x, hx, rfl⟩)

theorem wordTy_old (h : f.Localized stack e slots made g₁ g) (hi : f.inst? id = some i) :
    g.wordTy (.inst id) = f.wordTy (.inst id) := by
  unfold wordTy
  rw [h.typeOf_old]
  rintro j ⟨⟩
  exact index_lt_of_inst? hi

theorem wordTy_atHand (h : f.Localized stack e slots made g₁ g) (hb : f.Reachable b)
    (hpre : pre <+: f.instsOf b) (hv : f.AtHand b pre v) : g.wordTy v = f.wordTy v := by
  unfold wordTy
  rw [h.typeOf_old]
  rintro j rfl
  exact index_lt_of_available h.wellFormed hb hpre hv

end Localized

namespace Mirrors

/-- An address that is gone need not be computed. -/
theorem skip (hm : f.Mirrors region p slots made b pre m m')
    (h : f.Localized stack e slots made g₁ g) (ha : a ∈ (homes made).keys)
    (hexec : m.exec act f a = some m₁) : f.Mirrors region p slots made b (pre ++ [a]) m₁ m' := by
  obtain ⟨x, hx, hax, _⟩ := Localized.home ha
  obtain ⟨offset, haddr⟩ := h.isAddress hx hax
  obtain ⟨c, o, hi, _⟩ := haddr.offset
  obtain ⟨w, _, _, rfl⟩ := exec_of_pure hi rfl hexec
  refine hm.advance ⟨hm.calls, hm.memory, hm.others, hm.bytes⟩ (fun j hj => if_neg hj)
    (fun j _ => rfl) (h.ne_made hi) fun hnot => ?_
  exact absurd ha hnot

/-- An access through an address goes to the local slot. -/
theorem access (hm : f.Mirrors region p slots made b pre m m')
    (h : f.Backed act memory region p stack e slots made g₁ g)
    (hvisit : f.Visits act memory b pre m) (hb : f.Reachable b)
    (hsplit : f.instsOf b = pre ++ id :: post) (hi : f.inst? id = some i)
    (ha : a ∈ (homes made).keys) (hop : .inst a ∈ i.kind.operands)
    (hexec : m.exec act f id = some m₁) :
    ∃ m₁', m'.exec (act.adopt (made.map (·.1))) g id = some m₁' ∧
      f.Mirrors region p slots made b (pre ++ [id]) m₁ m₁' := by
  have hmem := mem_of_split hsplit
  obtain ⟨x, hx, hax, hlocal, ty, hacc, hbytes⟩ := h.access ha hmem hi hop
  obtain ⟨n, y, hxn, hyn⟩ := h.numbered hx
  have hay : a ∈ y.2.addresses := by rwa [h.same_slot hxn hyn]
  obtain ⟨hvalue, hplace, hregion⟩ :=
    h.access_region hvisit hb hsplit hi ha (List.mem_of_getElem? hyn) hay hacc
  obtain ⟨u, hu⟩ := hm.home x hx
  have hplace' : (act.adopt (made.map (·.1))).place (.inst x.1) u = .slot x.1 :=
    place_adopted (List.mem_map.2 ⟨x, hx, rfl⟩) u
  have hi' := h.inst_old hmem hi
  have hsame : g.wordTy (.inst id) = f.wordTy (.inst id) := h.wordTy_old hi
  cases hacc with
  | load =>
    obtain ⟨_, hx', rfl⟩ := (exec_load hi).1 hexec
    rw [hvalue] at hx'
    cases hx'
    have hty : f.wordTy (.inst id) = ty := by
      rw [wordTy_inst hi]
      rfl
    have hread := hm.read_slot hyn hxn hbytes hregion
    have hexec' : m'.exec (act.adopt (made.map (·.1))) g id =
        some (m'.define id ty (m'.read ty (.slot x.1))) := by
      refine (exec_load hi').2 ⟨u, ?_, by rw [hsame, hty, hlocal, hplace']⟩
      rw [hlocal]
      exact hu
    rw [hplace, hty]
    refine ⟨_, hexec', hm.advance ⟨hm.calls, hm.memory, hm.others, hm.bytes⟩ (fun j hj => if_neg hj)
      (fun j hj => if_neg hj) (h.ne_made hi) fun _ w hw => ?_⟩
    simp only [Machine.define, if_true] at hw ⊢
    rw [hread]
    exact hw
  | @store v o hne hty =>
    obtain ⟨_, w, hx', hw, rfl⟩ := (exec_store hi).1 hexec
    rw [hvalue] at hx'
    cases hx'
    have hv : f.AtHand b pre v :=
      h.wellFormed.use hb hsplit hi rfl (List.mem_cons_of_mem _ List.mem_cons_self)
    have hkey : ∀ c, v = .inst c → c ∉ (homes made).keys := by
      rintro c rfl hc
      obtain ⟨_, _, _, _, _, hacc', _⟩ :=
        h.access hc hmem hi (List.mem_cons_of_mem _ List.mem_cons_self)
      cases hacc'
      exact hne rfl
    have hw' := hm.eval h.toLocalized hv hkey hw
    have hvty : g.wordTy (toLocal (homes made) v) = ty := by
      rw [toLocal_of_ne hkey, h.wordTy_atHand hb (prefix_of_split hsplit) hv, wordTy, hty]
      rfl
    have hexec' : m'.exec (act.adopt (made.map (·.1))) g id =
        some (m'.write ty w (.slot x.1)) := by
      refine (exec_store hi').2 ⟨u, w, ?_, hw', by rw [hvty, hlocal, hplace']⟩
      rw [hlocal]
      exact hu
    have hfty : f.wordTy v = ty := by
      rw [wordTy, hty]
      rfl
    rw [hplace, hfty]
    refine ⟨_, hexec', hm.advance (h.write_slot hm.toStacked hyn hxn hbytes hregion w) (fun j _ => rfl)
      (fun j _ => rfl) (h.ne_made hi) fun _ z hz => ?_⟩
    rw [env_write, hvisit.tame.store id _ v _ hi] at hz
    cases hz

/-- All other instructions do what they did. -/
theorem other (hm : f.Mirrors region p slots made b pre m m')
    (h : f.Backed act memory region p stack e slots made g₁ g)
    (hvisit : f.Visits act memory b pre m) (hb : f.Reachable b)
    (hsplit : f.instsOf b = pre ++ id :: post) (hi : f.inst? id = some i)
    (hphi : i.kind.isPhi = false) (hops : ∀ a ∈ (homes made).keys, .inst a ∉ i.kind.operands)
    (hexec : m.exec act f id = some m₁) :
    ∃ m₁', m'.exec (act.adopt (made.map (·.1))) g id = some m₁' ∧
      f.Mirrors region p slots made b (pre ++ [id]) m₁ m₁' := by
  obtain ⟨i', ws, act₁, hi', hws, haction, rfl⟩ := exec_eq_some.1 hexec
  rw [hi] at hi'
  cases hi'
  have hclear := h.clear hvisit hb hsplit hi hops hws haction
  have hkey : ∀ v ∈ i.kind.operands, ∀ a, v = .inst a → a ∉ (homes made).keys := by
    rintro v hv a rfl ha
    exact hops a ha hv
  have hat : ∀ v ∈ i.kind.operands, f.AtHand b pre v :=
    fun v hv => h.wellFormed.use hb hsplit hi hphi hv
  have hpre := prefix_of_split hsplit
  have hsame : g.wordTy (.inst id) = f.wordTy (.inst id) := h.wordTy_old hi
  have haction' : action (act.adopt (made.map (·.1))) g id
      (i.kind.mapOperands (toLocal (homes made))) ws = some act₁ := by
    have hbase : (act.adopt (made.map (·.1))).base = act.base := rfl
    rw [← haction]
    refine action_rename hbase (fun v hv x => ?_) (fun v hv => ?_) hsame ws
    · rw [toLocal_of_ne (hkey v hv)]
      refine place_adopt ?_ x
      rintro s rfl
      exact h.index_ne (index_lt_of_available h.wellFormed hb hpre (hat _ hv))
    · rw [toLocal_of_ne (hkey v hv), h.wordTy_atHand hb hpre (hat v hv)]
  have hops' := mapM_rename (ρ := toLocal (homes made)) i.kind.operands
    (fun v hv w hw => hm.eval h.toLocalized (hat v hv) (hkey v hv) hw) ws hws
  have hexec' : m'.exec (act.adopt (made.map (·.1))) g id =
      some (m'.perform (act.adopt (made.map (·.1))) id (f.wordTy (.inst id)) act₁) := by
    refine exec_eq_some.2 ⟨_, ws, act₁, h.inst_old (mem_of_split hsplit) hi, ?_, haction', by rw [hsame]⟩
    rw [Kind.operands_mapOperands]
    exact hops'
  refine ⟨_, hexec', hm.advance (hm.perform hclear) (fun j hj => env_exec hexec hj)
    (fun j hj => env_exec hexec' hj) (h.ne_made hi) fun _ w hw => ?_⟩
  refine hm.env_perform hclear ?_ hw
  rintro place t u rfl
  rcases action_cases haction with ⟨_, h⟩ | ⟨_, _, _, _, h⟩ | ⟨_, v, _, _, hk, _⟩ | ⟨_, h⟩
  · cases h
  · cases h
  · exact hvisit.tame.store id _ v i.ty (by rw [hi, ← hk])
  · cases h

theorem exec (hm : f.Mirrors region p slots made b pre m m')
    (h : f.Backed act memory region p stack e slots made g₁ g)
    (hvisit : f.Visits act memory b pre m) (hb : f.Reachable b)
    (hsplit : f.instsOf b = pre ++ id :: post) (hphi : f.isPhi id = false)
    (hexec : m.exec act f id = some m₁) :
    ∃ m₁', (if decide (id ∉ (homes made).keys) then m'.exec (act.adopt (made.map (·.1))) g id
      else some m') = some m₁' ∧ f.Mirrors region p slots made b (pre ++ [id]) m₁ m₁' := by
  by_cases hid : id ∈ (homes made).keys
  · exact ⟨m', by simp [hid], hm.skip h.toLocalized hid hexec⟩
  · obtain ⟨i, hi⟩ := h.wellFormed.consistent.inst?_of_mem (mem_of_split hsplit)
    rw [isPhi_inst hi] at hphi
    simp only [hid, not_false_eq_true, decide_true, if_true]
    by_cases hops : ∃ a ∈ (homes made).keys, .inst a ∈ i.kind.operands
    · obtain ⟨a, ha, hop⟩ := hops
      exact hm.access h hvisit hb hsplit hi ha hop hexec
    · exact hm.other h hvisit hb hsplit hi hphi (fun a ha hop => hops ⟨a, ha, hop⟩) hexec

/-! ### Edges -/

/-- The end of a block reads no address. -/
theorem next (hm : f.Mirrors region p slots made b (f.instsOf b) m m')
    (h : f.Backed act memory region p stack e slots made g₁ g) (hb : f.Reachable b) {data data' : Block}
    (hdata : f.block? b = some data) (hdata' : g.block? b = some data')
    (hterm : data'.term = data.term.mapOperands (toLocal (homes made))) {x : Next}
    (hx : m.next act f data.term = some x) :
    m'.next (act.adopt (made.map (·.1))) g data'.term = some x := by
  refine next_rename h.leaves h.leaves_local hdata hdata' hterm ?_ hx
  refine fun v hv w hw => hm.eval h.toLocalized (h.wellFormed.termUse hb hdata hv) ?_ hw
  rintro a rfl ha
  exact h.notMem_term ha hdata hv

theorem enter (hm : f.Mirrors region p slots made q (f.instsOf q) m m')
    (h : f.Localized stack e slots made g₁ g) (hq : f.Reachable q) (hedge : f.Edge q b)
    (henter : m.enter act f (some q) (f.phisOf b) = some m₁) :
    ∃ m₁', m'.enter (act.adopt (made.map (·.1))) g (some q) (f.phisOf b) = some m₁' ∧
      f.Mirrors region p slots made b (f.phisOf b) m₁ m₁' := by
  have hold : ∀ id ∈ f.phisOf b, ∃ inc o, id ∈ f.instsOf b ∧ f.inst? id = some ⟨.phi inc, o⟩ := by
    intro id hid
    obtain ⟨inc, o, hi⟩ := isPhi_eq_true (of_mem_takeWhile hid)
    exact ⟨inc, o, (f.phisOf_prefix b).subset hid, hi⟩
  have hword : ∀ id ∈ f.phisOf b, ∀ w, m.phiWord act f (some q) id = some w →
      m'.phiWord (act.adopt (made.map (·.1))) g (some q) id = some w := by
    intro id hid w hw
    obtain ⟨inc, o, hmem, hi⟩ := hold id hid
    refine phiWord_rename hi (h.inst_old hmem hi) (fun c hc hcq u hu => ?_) hw
    cases hcq
    refine hm.eval h (h.wellFormed.phiUse (hq.step hedge) hmem hi hc hq) (fun a hca ha => ?_) hu
    -- addresses are not read by phis
    obtain ⟨_, _, _, _, _, hacc, _⟩ :=
      h.access ha hmem hi (List.mem_map.2 ⟨c, hc, hca⟩)
    cases hacc
  have hty : ∀ id ∈ f.phisOf b, g.wordTy (.inst id) = f.wordTy (.inst id) := by
    intro id hid
    obtain ⟨inc, o, _, hi⟩ := hold id hid
    exact h.wordTy_old hi
  obtain ⟨env, henter', hphis, hothers⟩ := enter_rename (List.Subset.refl _) hword hty henter
  refine ⟨_, henter', ?_⟩
  obtain ⟨_, rfl⟩ := enter_eq_some.1 henter
  refine ⟨⟨hm.calls, hm.memory, hm.others, hm.bytes⟩, fun j w hkey hav hw => ?_, fun x hx => ?_⟩
  · by_cases hj : j ∈ f.phisOf b
    · rw [← hw]
      exact hphis j hj
    · rcases hav with hin | ⟨c, data, hdom, hdata, hjc⟩
      · exact absurd hin hj
      · rw [← instsOf_eq hdata] at hjc
        simp only [hj, if_false] at hw
        exact (hothers j hj).trans (hm.env j w hkey (available_pred hedge hdom hjc) hw)
  · obtain ⟨w, hw⟩ := hm.home x hx
    refine ⟨w, (hothers x.1 fun hmem => ?_).trans hw⟩
    obtain ⟨inc, o, _, hi⟩ := hold x.1 hmem
    exact h.ne_made hi x hx rfl

end Mirrors

/-! ### The start of the entry block -/

/-- Local slots are made without reading anything. -/
theorem Localized.exec_made (h : f.Localized stack e slots made g₁ g) (l : List InstId)
    (hl : ∀ s ∈ l, s ∈ made.map (·.1)) (act : Activation) :
    ∀ m : Machine, ∃ env, l.foldlM (Machine.exec act g) m = some { m with env := env } ∧
      (∀ j ∉ l, env j = m.env j) ∧ ∀ s ∈ l, ∃ w, env s = some w := by
  induction l with
  | nil => exact fun m => ⟨m.env, rfl, fun _ _ => rfl, fun _ hs => absurd hs List.not_mem_nil⟩
  | cons s l ih =>
    intro m
    obtain ⟨size, o, hi⟩ := h.allocas (hl s List.mem_cons_self)
    obtain ⟨env, hfold, hothers, hmade⟩ :=
      ih (fun t ht => hl t (List.mem_cons_of_mem _ ht)) (m.define s (g.wordTy (.inst s)) (act.base s))
    have hexec : m.exec act g s = some (m.define s (g.wordTy (.inst s)) (act.base s)) :=
      exec_eq_some.2 ⟨_, [], _, hi, rfl, rfl, rfl⟩
    refine ⟨env, ?_, fun j hj => ?_, fun t ht => ?_⟩
    · rw [List.foldlM_cons, hexec]
      exact hfold
    · rw [hothers j fun hmem => hj (List.mem_cons_of_mem _ hmem)]
      refine if_neg ?_
      rintro rfl
      exact hj List.mem_cons_self
    · by_cases htl : t ∈ l
      · exact hmade t htl
      · rw [hothers t htl]
        rcases List.mem_cons.1 ht with rfl | ht
        · exact ⟨_, if_pos rfl⟩
        · exact absurd ht htl

/-- The instructions that block `b` has of its own behind its phis. -/
def allotment (e : BlockId) (made : List (InstId × StackSlot)) (b : BlockId) : List InstId :=
  if b = e then (made.map (·.1)).reverse else []

theorem mem_allotment {s : InstId} (hs : s ∈ allotment e made b) : b = e ∧ s ∈ made.map (·.1) := by
  unfold allotment at hs
  split at hs
  · rename_i hbe
    exact ⟨hbe, List.mem_reverse.1 hs⟩
  · cases hs

theorem Localized.block_local (h : f.Localized stack e slots made g₁ g) {data : Block}
    (hdata : f.block? b = some data) : ∃ data', g.block? b = some data' ∧
      data'.insts = (f.phisOf b).filter (fun id => decide (id ∉ (homes made).keys)) ++
        (allotment e made b ++ ((f.instsOf b).dropWhile f.isPhi).filter fun id =>
          decide (id ∉ (homes made).keys)) ∧
      data'.term = data.term.mapOperands (toLocal (homes made)) := by
  have hkeep : (fun id => !decide (id ∈ (homes made).keys)) =
      fun id => decide (id ∉ (homes made).keys) := by
    funext id
    rw [decide_not]
  have hmade : (made.map (·.1)).reverse.filter (fun id => decide (id ∉ (homes made).keys)) =
      (made.map (·.1)).reverse := by
    refine List.filter_eq_self.2 fun s hs => ?_
    obtain ⟨x, hx, rfl⟩ := List.mem_map.1 (List.mem_reverse.1 hs)
    exact decide_eq_true (h.notMem_keys hx)
  refine ⟨_, by rw [h.substituted.block b, h.allotted.block b, hdata]; rfl, ?_, ?_⟩
  · show List.filter _ (if b = e then _ else data : Block).insts = _
    rw [hkeep, allotment]
    by_cases hbe : b = e
    · subst hbe
      rw [if_pos rfl, if_pos rfl, List.filter_append, List.filter_append, hmade, List.append_assoc]
    · rw [if_neg hbe, if_neg hbe, List.nil_append, ← List.filter_append, phisOf,
        List.takeWhile_append_dropWhile, instsOf_eq hdata]
  · show Terminator.mapOperands _ (if b = e then _ else data : Block).term = _
    split <;> rfl

/-- Making the local slots anew changes nothing else. -/
theorem Mirrors.allot (hm : f.Mirrors region p slots made b pre m m')
    (h : f.Localized stack e slots made g₁ g) (hb : f.Reachable b) (hpre : pre <+: f.instsOf b)
    (act : Activation) : ∃ m₁', (allotment e made b).foldlM (Machine.exec act g) m' = some m₁' ∧
      f.Mirrors region p slots made b pre m m₁' := by
  obtain ⟨env, hfold, hothers, hmade⟩ :=
    h.exec_made (allotment e made b) (fun s hs => (mem_allotment hs).2) act m'
  refine ⟨_, hfold, ⟨hm.calls, hm.memory, hm.others, hm.bytes⟩, fun j w hkey hav hw => ?_,
    fun x hx => ?_⟩
  · refine (hothers j fun hmem => ?_).trans (hm.env j w hkey hav hw)
    exact h.index_ne (index_lt_of_available h.wellFormed hb hpre hav) (mem_allotment hmem).2
  · by_cases hmem : x.1 ∈ allotment e made b
    · exact hmade x.1 hmem
    · obtain ⟨w, hw⟩ := hm.home x hx
      exact ⟨w, (hothers x.1 hmem).trans hw⟩

namespace Backed

/-- Local slots start at zero, and so does the region. -/
theorem start (h : f.Backed act memory region p stack e slots made g₁ g) (act' : Activation) :
    ∃ m', (allotment e made e).foldlM (Machine.exec act' g) (.start memory) = some m' ∧
      f.Mirrors region p slots made e [] (.start memory) m' := by
  obtain ⟨env, hfold, _, hmade⟩ :=
    h.exec_made (allotment e made e) (fun s hs => (mem_allotment hs).2) act' (.start memory)
  refine ⟨_, hfold, ⟨⟨rfl, fun _ _ => rfl, fun _ _ => rfl, fun n y x _ _ i _ hr => ?_⟩,
    fun _ _ _ _ hw => (nomatch hw), fun x hx => hmade x.1 ?_⟩⟩
  · exact (h.reserves.zero _ hr).symm
  · rw [allotment, if_pos rfl]
    exact List.mem_reverse.2 (List.mem_map.2 ⟨x, hx, rfl⟩)

theorem simulates (h : f.Backed act memory region p stack e slots made g₁ g) :
    f.Simulates act (act.adopt (made.map (·.1))) memory g
      (fun id => decide (id ∉ (homes made).keys)) (allotment e made)
      (f.Mirrors region p slots made) where
  entry := h.substituted.entry.trans h.allotted.entry
  isPhi := fun b id _ hid _ => h.isPhi_old hid
  plain := by
    intro b s hs
    obtain ⟨size, o, hi⟩ := h.allocas (mem_allotment hs).2
    rw [isPhi_inst hi]
    rfl
  block := by
    intro b data hb hdata
    obtain ⟨data', hdata', hinsts, hterm⟩ := h.block_local hdata
    exact ⟨data', hdata', hinsts, fun m m' x _ hm hx => hm.next h hb hdata hdata' hterm hx⟩
  start := by
    intro e' m he henter
    rw [h.entry] at he
    cases he
    obtain ⟨hnil, rfl⟩ := enter_none henter
    obtain ⟨m', hfold, hm⟩ := h.start (act.adopt (made.map (·.1)))
    rw [hnil]
    exact ⟨m', hfold, hm⟩
  goto := by
    intro q b data m m' m₁ _ hq hedge _ _ hm henter
    have hkept : (f.phisOf b).filter (fun id => decide (id ∉ (homes made).keys)) = f.phisOf b := by
      refine List.filter_eq_self.2 fun id hid => ?_
      exact decide_eq_true (h.phi_notMem (of_mem_takeWhile hid))
    obtain ⟨m₂', henter', hm₂⟩ := hm.enter h.toLocalized hq hedge henter
    obtain ⟨m₁', hfold, hm₁⟩ := hm₂.allot h.toLocalized (hq.step hedge) (f.phisOf_prefix b)
      (act.adopt (made.map (·.1)))
    rw [hkept, henter']
    exact ⟨m₁', hfold, hm₁⟩
  exec := fun b pre id post m m' m₁ hvisit hb hsplit hphi hm hexec =>
    hm.exec h hvisit hb hsplit hphi hexec

end Backed

end Func

end BinaryLift
