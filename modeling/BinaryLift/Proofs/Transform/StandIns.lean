import BinaryLift.Proofs.Transform.Substitution

/-!
# Values that stand in for results

A value stands in for the result of an instruction if it is at hand wherever the result is, has its
type and is always equal to it. A function in which such results are replaced and their instructions
taken out is orderly again and does what it did. All that counts is what is read in the end: a result
that nobody reads needs no value that stands in for it.
-/

namespace BinaryLift

namespace Func

variable {f g : Func} {act : Activation} {own : InstId → Bool} {memory : Memory} {drop : InstId → Bool}
  {ρ : Value → Value} {b q : BlockId} {pre : List InstId} {id j : InstId} {v : Value}
  {m m' m₁ : Machine}

/-- What is dropped has no effects, and what stands in for it has its type; neither is an own
slot. -/
structure StandsIn (own : InstId → Bool) (f : Func) (drop : InstId → Bool) (ρ : Value → Value) :
    Prop extends f.Replaceable drop ρ where
  idle : ∀ b id i, f.Reachable b → id ∈ f.instsOf b → drop id = true → f.inst? id = some i →
    i.kind.hasSideEffects = false
  ty : ∀ b id, f.Reachable b → id ∈ f.instsOf b → drop id = true →
    f.typeOf (ρ (.inst id)) = f.typeOf (.inst id)
  own : ∀ b id, f.Reachable b → id ∈ f.instsOf b → drop id = true →
    own id = false ∧ ∀ j, ρ (.inst id) = .inst j → own j = false

/-- What stands in for a result is equal to it. -/
def Equals (act : Activation) (f : Func) (drop : InstId → Bool) (ρ : Value → Value) : Prop :=
  ∀ memory b pre m id w, f.Visits act memory b pre m → f.Available b pre id → drop id = true →
    m.env id = some w → m.eval act f (ρ (.inst id)) = some w

/-- What is dropped has no effects, and what kept code reads instead of a value has its type; it is the
same own slot, if any. -/
structure Suited (own : InstId → Bool) (f : Func) (drop : InstId → Bool) (ρ : Value → Value) :
    Prop where
  supplied : f.Supplied drop ρ
  idle : ∀ b id i, f.Reachable b → id ∈ f.instsOf b → drop id = true → f.inst? id = some i →
    i.kind.hasSideEffects = false
  ty : ∀ b pre v, f.Reads drop b pre v → f.typeOf (ρ v) = f.typeOf v
  own : ∀ b pre v, f.Reads drop b pre v → ∀ s, own s = true → (ρ v = .inst s ↔ v = .inst s)

/-- What kept code reads instead of a value is equal to it. -/
def Faithful (act : Activation) (f : Func) (drop : InstId → Bool) (ρ : Value → Value) : Prop :=
  ∀ memory b pre m v w, f.Visits act memory b pre m → f.Reads drop b pre v →
    m.eval act f v = some w → m.eval act f (ρ v) = some w

theorem Replaceable.rename_cases (h : f.Replaceable drop ρ) (v : Value) :
    ρ v = v ∨ ∃ id, v = .inst id ∧ drop id = true := by
  by_cases hdrop : ∃ id, v = .inst id ∧ drop id = true
  · exact .inr hdrop
  · refine .inl (h.others v fun id hid => ?_)
    cases hd : drop id with
    | false => rfl
    | true => exact absurd ⟨id, hid, hd⟩ hdrop

theorem Equals.eval (heq : f.Equals act drop ρ) (hr : f.Replaceable drop ρ)
    (hvisit : f.Visits act memory b pre m) (hv : f.AtHand b pre v) {w : Word}
    (hw : m.eval act f v = some w) : m.eval act f (ρ v) = some w := by
  rcases hr.rename_cases v with hsame | ⟨id, rfl, hid⟩
  · rw [hsame, hw]
  · exact heq memory b pre m id w hvisit hv hid hw

theorem Equals.faithful (heq : f.Equals act drop ρ) (hr : f.Replaceable drop ρ)
    (hwf : f.WellFormed) : f.Faithful act drop ρ :=
  fun _ _ _ _ _ _ hvisit hread hw => heq.eval hr hvisit (hread.atHand hwf) hw

namespace StandsIn

theorem typeOf (h : f.StandsIn own drop ρ) (hc : f.Consistent) (hb : f.Reachable b)
    (hpre : pre <+: f.instsOf b) (hv : f.AtHand b pre v) : f.typeOf (ρ v) = f.typeOf v := by
  rcases h.rename_cases v with heq | ⟨id, rfl, hid⟩
  · rw [heq]
  · obtain ⟨c, hidc, hc', _⟩ := hc.home_of_available hb hpre.subset hv
    exact h.ty c id hc' (hc.mem_instsOf.2 hidc) hid

theorem same_slot (h : f.StandsIn own drop ρ) (hc : f.Consistent) (hb : f.Reachable b)
    (hpre : pre <+: f.instsOf b) (hv : f.AtHand b pre v) {s : InstId} (hs : own s = true) :
    ρ v = .inst s ↔ v = .inst s := by
  rcases h.rename_cases v with hsame | ⟨id, rfl, hid⟩
  · rw [hsame]
  · obtain ⟨c, hidc, hc', _⟩ := hc.home_of_available hb hpre.subset hv
    obtain ⟨hown, hstand⟩ := h.own c id hc' (hc.mem_instsOf.2 hidc) hid
    constructor
    · intro heq
      rw [hstand s heq] at hs
      cases hs
    · intro heq
      cases heq
      rw [hown] at hs
      cases hs

theorem place (h : f.StandsIn act.own drop ρ) (hc : f.Consistent) (hb : f.Reachable b)
    (hpre : pre <+: f.instsOf b) (hv : f.AtHand b pre v) (a : Word) :
    act.place (ρ v) a = act.place v a :=
  Machine.place_of_own (fun _ hs => h.same_slot hc hb hpre hv hs) a

theorem suited (h : f.StandsIn own drop ρ) (hwf : f.WellFormed) : f.Suited own drop ρ where
  supplied := h.supplied hwf
  idle := h.idle
  ty := fun _ _ _ hread =>
    h.typeOf hwf.consistent hread.reachable hread.pre_prefix (hread.atHand hwf)
  own := fun _ _ _ hread _ hs =>
    h.same_slot hwf.consistent hread.reachable hread.pre_prefix (hread.atHand hwf) hs

end StandsIn

/-! ### Orderly again -/

theorem Substituted.leaves (h : f.Substituted drop ρ g) (hl : act.Leaves f) : act.Leaves g := by
  have hold : ∀ b data', g.block? b = some data' → ∃ data, f.block? b = some data ∧
      data'.address = data.address ∧ data'.term = data.term.mapOperands ρ := by
    intro b data' hdata'
    rw [h.block b] at hdata'
    obtain ⟨data, hdata, rfl⟩ := Option.map_eq_some_iff.1 hdata'
    exact ⟨data, hdata, rfl, rfl⟩
  refine hl.of_subset ?_ ?_
  · intro b data' hdata' w hw
    obtain ⟨data, hdata, haddr, _⟩ := hold b data' hdata'
    exact ⟨b, data, hdata, haddr ▸ hw⟩
  · intro b data' v hdata' hv
    obtain ⟨data, hdata, _, hterm⟩ := hold b data' hdata'
    rw [hterm] at hv
    cases hd : data.term with
    | indirect u => exact ⟨b, data, u, hdata, hd⟩
    | _ =>
      rw [hd] at hv
      cases hv

theorem Substituted.orderly (h : f.Substituted drop ρ g) (hs : f.Suited own drop ρ)
    (ho : f.Orderly own) : g.Orderly own := by
  have hc := ho.wellFormed.consistent
  refine ⟨h.wellFormed hs.supplied ho.wellFormed, ?_, ?_, ?_, ?_⟩
  · intro b id k hb hid hk hphi
    obtain ⟨hmem, hkeep, i, hi, rfl⟩ := h.inst_of_mem hc hid hk
    rw [Kind.isPhi_mapOperands] at hphi
    have hb' := h.reachable.1 hb
    obtain ⟨before, after, hsplit⟩ := List.append_of_mem hmem
    refine Kind.typed_mapOperands (fun v hv => ?_) (ho.typed b id i hb' hmem hi hphi)
    rw [h.typeOf, hs.ty b before v (.inst hb' hsplit hkeep hi hphi hv)]
  · intro b id inc' ty hb hid hk
    obtain ⟨hmem, hkeep, inc, hi, rfl⟩ := h.phi_of_mem hc hid hk
    have hb' := h.reachable.1 hb
    obtain ⟨hsome, hinc⟩ := ho.phi b id inc ty hb' hmem hi
    refine ⟨hsome, fun q v he hq => ?_⟩
    obtain ⟨⟨q', u⟩, he', heq'⟩ := List.mem_map.1 he
    rw [Prod.mk.injEq] at heq'
    obtain ⟨rfl, rfl⟩ := heq'
    have hq' := h.reachable.1 hq
    have hread : f.Reads drop q' (f.instsOf q') u := .phi hb' hmem hkeep hi he' hq'
    obtain ⟨hty, hspared⟩ := hinc q' u he' hq'
    rw [h.typeOf, hs.ty q' _ u hread]
    refine ⟨hty, fun s heq => ?_⟩
    cases hown : own s with
    | false => rfl
    | true =>
      rw [← hown]
      exact hspared s ((hs.own q' _ u hread s hown).1 heq)
  · intro s hown b k hid hk
    obtain ⟨hmem, _, i, hi, rfl⟩ := h.inst_of_mem hc hid hk
    rw [Kind.isAlloca_mapOperands]
    exact ho.slot s hown b i hmem hi
  · intro s hown b id k hb hid hk hphi
    obtain ⟨hmem, hkeep, i, hi, rfl⟩ := h.inst_of_mem hc hid hk
    rw [Kind.isPhi_mapOperands] at hphi
    have hb' := h.reachable.1 hb
    obtain ⟨before, after, hsplit⟩ := List.append_of_mem hmem
    refine Kind.spares_mapOperands (fun v hv => ?_) (ho.spares s hown b id i hb' hmem hi hphi)
    exact (hs.own b before v (.inst hb' hsplit hkeep hi hphi hv) s hown).1

theorem Substituted.regular (h : f.Substituted drop ρ g) (hs : f.Suited own drop ρ)
    (hc : f.Consistent) (hr : f.Regular own) : g.Regular own := by
  refine hr.of_home ?_ ?_ ?_
  · intro b id k hb hid hk
    obtain ⟨hmem, hkeep, i, hi, rfl⟩ := h.inst_of_mem hc hid hk
    have hb' := h.reachable.1 hb
    refine ⟨b, i, hb', hmem, hi, Kind.isAlloca_mapOperands ρ i.kind, fun hwords => ?_⟩
    cases hphi : i.kind.isPhi with
    | true => exact Kind.wholeWords_of_isPhi ((Kind.isPhi_mapOperands ρ i.kind).trans hphi)
    | false =>
      obtain ⟨before, after, hsplit⟩ := List.append_of_mem hmem
      refine hwords.mapOperands fun v hv => ?_
      rw [h.typeOf, hs.ty b before v (.inst hb' hsplit hkeep hi hphi hv)]
  · intro b data' u hb hdata' hu
    rw [h.block b] at hdata'
    obtain ⟨data, hdata, rfl⟩ := Option.map_eq_some_iff.1 hdata'
    rw [Terminator.operands_mapOperands] at hu
    obtain ⟨v, hv, rfl⟩ := List.mem_map.1 hu
    have hb' := h.reachable.1 hb
    have hread : f.Reads drop b (f.instsOf b) v := .term hb' hdata hv
    refine ⟨b, data, v, hb', hdata, hv, fun s hown => (hs.own b _ v hread s hown).1, ?_⟩
    rw [h.typeOf, hs.ty b _ v hread]
  · intro e id he hid
    rw [h.instsOf e] at hid
    have hmem := (List.mem_filter.1 hid).1
    rw [h.isPhi hc hmem]
    exact hr.entry e id (h.entry ▸ he) hmem

/-! ### The same execution -/

/-- Outside the states look the same, and what is kept and at hand has the same value. -/
structure Shadows (f : Func) (drop : InstId → Bool) (b : BlockId) (pre : List InstId)
    (m m' : Machine) : Prop where
  alike : m.Alike m'
  env : ∀ j w, drop j = false → f.Available b pre j → m.env j = some w → m'.env j = some w

namespace Shadows

theorem eval (h : f.Shadows drop b pre m m') (hsub : f.Substituted drop ρ g)
    (hs : f.Suited act.own drop ρ) (heq : f.Faithful act drop ρ)
    (hvisit : f.Visits act memory b pre m) (hread : f.Reads drop b pre v) {w : Word}
    (hw : m.eval act f v = some w) : m'.eval act g (ρ v) = some w := by
  have hkept : ∀ u, f.AtHand b pre u → (∀ j, u = .inst j → drop j = false) →
      m.eval act f u = some w → m'.eval act g u = some w := by
    intro u hu hkeep huw
    cases u with
    | const c => exact huw
    | arg n =>
      rw [← huw]
      simp only [Machine.eval, wordTy, hsub.typeOf]
    | inst j => exact h.env j w (hkeep j rfl) hu huw
  obtain ⟨hat, hkeep⟩ := hs.supplied b pre v hread
  exact hkept _ hat hkeep (heq memory b pre m v w hvisit hread hw)

theorem next (h : f.Shadows drop b (f.instsOf b) m m') (hsub : f.Substituted drop ρ g)
    (hs : f.Suited act.own drop ρ) (heq : f.Faithful act drop ρ) (hl : act.Leaves f)
    (hb : f.Reachable b) {data : Block} (hdata : f.block? b = some data)
    (hvisit : f.Visits act memory b (f.instsOf b) m) {x : Next}
    (hx : m.next act f data.term = some x) :
    m'.next act g (data.term.mapOperands ρ) = some x := by
  have hdata' := hsub.block b
  rw [hdata] at hdata'
  exact Machine.next_rename hl (hsub.leaves hl) hdata hdata' rfl
    (fun v hv w => h.eval hsub hs heq hvisit (.term hb hdata hv)) hx

theorem enter (h : f.Shadows drop q (f.instsOf q) m m') (hsub : f.Substituted drop ρ g)
    (hs : f.Suited act.own drop ρ) (heq : f.Faithful act drop ρ) (hq : f.Reachable q)
    (hedge : f.Edge q b)
    (hvisit : f.Visits act memory q (f.instsOf q) m)
    (hm₁ : m.enter act f (some q) (f.phisOf b) = some m₁) :
    ∃ m₁', m'.enter act g (some q) ((f.phisOf b).filter (!drop ·)) = some m₁' ∧
      f.Shadows drop b (f.phisOf b) m₁ m₁' := by
  have hkept : ∀ id ∈ (f.phisOf b).filter (!drop ·), id ∈ f.phisOf b ∧ drop id = false := by
    intro id hid
    obtain ⟨hmem, hkeep⟩ := List.mem_filter.1 hid
    exact ⟨hmem, by simpa using hkeep⟩
  have hword : ∀ id ∈ (f.phisOf b).filter (!drop ·), ∀ w, m.phiWord act f (some q) id = some w →
      m'.phiWord act g (some q) id = some w := by
    intro id hid w hw
    obtain ⟨hphi, hkeep⟩ := hkept id hid
    have hmem := (f.phisOf_prefix b).subset hphi
    obtain ⟨inc, o, hi⟩ := isPhi_eq_true (of_mem_takeWhile hphi)
    refine Machine.phiWord_rename hi (hsub.inst b id _ hmem hi) (fun e he hqe u hu => ?_) hw
    cases hqe
    exact h.eval hsub hs heq hvisit (.phi (hq.step hedge) hmem hkeep hi he hq) hu
  obtain ⟨env, henter, hphis, hothers⟩ := Machine.enter_rename (fun id hid => (hkept id hid).1)
    hword (fun id _ => by simp only [wordTy, hsub.typeOf]) hm₁
  obtain ⟨_, rfl⟩ := Machine.enter_eq_some.1 hm₁
  refine ⟨_, henter, ⟨h.alike.calls, h.alike.memory, h.alike.slots⟩, fun j w hj hav hw => ?_⟩
  by_cases hphi : j ∈ f.phisOf b
  · rw [← hw]
    exact hphis j (List.mem_filter.2 ⟨hphi, by rw [hj]; rfl⟩)
  · rcases hav with hin | ⟨c, data, hdom, hdata, hjc⟩
    · exact absurd hin hphi
    · rw [← instsOf_eq hdata] at hjc
      simp only [hphi, if_false] at hw
      exact (hothers j fun hmem => hphi (hkept j hmem).1).trans
        (h.env j w hj (available_pred hedge hdom hjc) hw)

theorem exec (h : f.Shadows drop b pre m m') (hsub : f.Substituted drop ρ g)
    (hs : f.Suited act.own drop ρ) (heq : f.Faithful act drop ρ) (hb : f.Reachable b)
    {post : List InstId} (hsplit : f.instsOf b = pre ++ id :: post) (hphi : f.isPhi id = false)
    (hvisit : f.Visits act memory b pre m) (hm₁ : m.exec act f id = some m₁) :
    ∃ m₁', (if !drop id then m'.exec act g id else some m') = some m₁' ∧
      f.Shadows drop b (pre ++ [id]) m₁ m₁' := by
  have hmem := mem_of_split hsplit
  obtain ⟨i, ws, a, hi, hws, ha, hperform⟩ := Machine.exec_eq_some.1 hm₁
  have hold : ∀ j w, drop j = false → j ≠ id → f.Available b (pre ++ [id]) j →
      m₁.env j = some w → m'.env j = some w := by
    intro j w hj hne hav hw
    rw [Machine.env_exec hm₁ hne] at hw
    exact h.env j w hj (available_snoc hav hne) hw
  cases hdrop : drop id with
  | true =>
    refine ⟨m', rfl, ?_, fun j w hj hav hw => ?_⟩
    · exact (Machine.alike_of_idle hi (hs.idle b id i hb hmem hdrop hi) hm₁).symm.trans h.alike
    · refine hold j w hj ?_ hav hw
      rintro rfl
      rw [hdrop] at hj
      cases hj
  | false =>
    have hphi' : i.kind.isPhi = false := by rwa [isPhi_inst hi] at hphi
    have hread : ∀ v ∈ i.kind.operands, f.Reads drop b pre v :=
      fun v hv => .inst hb hsplit hdrop hi hphi' hv
    have hops := Machine.mapM_rename (ρ := ρ) i.kind.operands
      (fun v hv w hw => h.eval hsub hs heq hvisit (hread v hv) hw) ws hws
    have haction : Machine.action act g id (i.kind.mapOperands ρ) ws = some a := by
      rw [← ha]
      refine Machine.action_rename rfl (fun v hv => ?_) (fun v hv => ?_) ?_ ws
      · exact Machine.place_of_own (hs.own b pre v (hread v hv))
      · rw [wordTy, hsub.typeOf, hs.ty b pre v (hread v hv)]
        rfl
      · simp only [wordTy, hsub.typeOf]
    have hty : g.wordTy (.inst id) = f.wordTy (.inst id) := by simp only [wordTy, hsub.typeOf]
    have hexec : m'.exec act g id = some (m'.perform act id (f.wordTy (.inst id)) a) := by
      refine Machine.exec_eq_some.2 ⟨_, ws, a, hsub.inst b id i hmem hi, ?_, haction, by rw [hty]⟩
      rw [Kind.operands_mapOperands]
      exact hops
    refine ⟨_, hexec, ?_, fun j w hj hav hw => ?_⟩
    · rw [hperform]
      exact h.alike.perform
    · by_cases hne : j = id
      · subst hne
        rw [hperform] at hw
        refine h.alike.env_perform (fun p t x hstore => ?_) hw
        rw [hstore] at ha
        rcases Machine.action_cases ha with ⟨_, h⟩ | ⟨_, _, _, _, h⟩ | ⟨p', v, _, _, hk, _⟩ | ⟨_, h⟩
        · cases h
        · cases h
        · exact hvisit.tame.store j p' v i.ty (by rw [hi, ← hk])
        · cases h
      · have henv := Machine.env_exec hexec hne
        rw [henv]
        exact hold j w hj hne hav hw

end Shadows

theorem Substituted.lockstep (hsub : f.Substituted drop ρ g) (hs : f.Suited act.own drop ρ)
    (heq : f.Faithful act drop ρ) (hwf : f.WellFormed) (hl : act.Leaves f) (memory : Memory) :
    f.Lockstep act memory g (!drop ·) (f.Shadows drop) where
  entry := hsub.entry
  isPhi := fun _ _ _ hid _ => hsub.isPhi hwf.consistent hid
  block := by
    intro b data hb hdata
    have hdata' := hsub.block b
    rw [hdata] at hdata'
    refine ⟨_, hdata', rfl, fun m m' x hvisit hR hx => ?_⟩
    rw [← instsOf_eq hdata] at hvisit hR
    exact hR.next hsub hs heq hl hb hdata hvisit hx
  start := by
    intro e m he henter
    obtain ⟨hnil, rfl⟩ := Machine.enter_none henter
    rw [hnil]
    refine ⟨_, Machine.enter_nil none, ⟨rfl, rfl, rfl⟩, fun j w _ _ hw => ?_⟩
    cases hw
  goto := fun q b data m m' m₁ hvisit hq hedge _ _ hR henter =>
    hR.enter hsub hs heq hq hedge hvisit henter
  exec := fun b pre id post m m' m₁ hvisit hb hsplit hphi hR hexec =>
    hR.exec hsub hs heq hb hsplit hphi hvisit hexec
  alike := fun _ _ _ _ hR => hR.alike

theorem Substituted.keeps_of_suited (hsub : f.Substituted drop ρ g) (hwf : f.WellFormed)
    (hr : f.Supplied drop ρ) (hs : ∀ own, f.Orderly own → f.Suited own drop ρ)
    (heq : ∀ act : Activation, act.Leaves f → f.Orderly act.own → f.Faithful act drop ρ) :
    f.Keeps g where
  wellFormed := hsub.wellFormed hr hwf
  orderly := fun own ho => hsub.orderly (hs own ho) ho
  regular := fun own ho => hsub.regular (hs own ho) hwf.consistent
  leaves := fun _ hl => hsub.leaves hl
  refines := fun act hl ho => refines_of_lockstep hwf hl fun memory =>
    ⟨_, _, hsub.lockstep (hs act.own ho) (heq act hl ho) hwf hl memory⟩

theorem Substituted.keeps (hsub : f.Substituted drop ρ g) (hwf : f.WellFormed)
    (hr : f.Replaceable drop ρ) (hs : ∀ own, f.Orderly own → f.StandsIn own drop ρ)
    (heq : ∀ act : Activation, act.Leaves f → f.Orderly act.own → f.Equals act drop ρ) :
    f.Keeps g :=
  hsub.keeps_of_suited hwf (hr.supplied hwf) (fun own ho => (hs own ho).suited hwf)
    fun act hl ho => (heq act hl ho).faithful hr hwf

/-! ### One instruction -/

/-- Where `u` is the result of `id`, the value `v` instead. -/
def replaceResult (id : InstId) (v u : Value) : Value := if u = .inst id then v else u

theorem replaceAllUses_eq (f : Func) (id : InstId) (v : Value) :
    f.replaceAllUses (.inst id) v = f.mapOperands (replaceResult id v) := by
  unfold replaceAllUses
  split
  · rename_i heq
    refine (mapOperands_of_id (fun u => ?_) f).symm
    unfold replaceResult
    split
    · rename_i hu
      rw [hu, ← heq]
    · rfl
  · rfl

theorem replace_spec (hc : f.Consistent) (id : InstId) (v : Value) :
    ∃ g, (f.replaceAllUses (.inst id) v).removeInst id = .ok g ∧
      f.Substituted (fun j => decide (j = id)) (replaceResult id v) g := by
  rw [replaceAllUses_eq]
  obtain ⟨g, hg, hwithout⟩ := removeInst_spec (hc.housed.mapOperands (replaceResult id v)) id
  refine ⟨g, hg, ?_⟩
  have hsub := substituted_of_without hc hwithout
  simp only [List.mem_singleton] at hsub
  exact hsub

/-- It is enough to know that the value is at hand where the instruction stands. -/
theorem replaceable_of_atHand (hc : f.Consistent)
    (hat : ∀ b before after, f.Reachable b → f.instsOf b = before ++ id :: after →
      f.AtHand b before v) :
    f.Replaceable (fun j => decide (j = id)) (replaceResult id v) where
  others := by
    intro u hu
    refine if_neg fun heq => ?_
    have hne := hu id heq
    simp at hne
  atHand := by
    intro b pre j hb hpre hj hdrop
    rw [decide_eq_true_eq] at hdrop
    subst hdrop
    obtain ⟨c, hjc, hc', _⟩ := hc.home_of_available hb hpre.subset hj
    obtain ⟨before, after, hsplit⟩ := List.append_of_mem (hc.mem_instsOf.2 hjc)
    have hv := hat c before after hc' hsplit
    rw [replaceResult, if_pos rfl]
    refine ⟨hc.atHand_of_available hsplit hv hb hpre hj, fun i hi => ?_⟩
    rw [hi] at hv
    exact decide_eq_false (hc.ne_of_available hsplit hv)

theorem standsIn_of_atHand (ho : f.Orderly own) {i : Inst} (hid : id ∈ f.instsOf b)
    (hi : f.inst? id = some i) (hidle : i.kind.hasSideEffects = false)
    (halloca : i.kind.isAlloca = false)
    (hat : ∀ b before after, f.Reachable b → f.instsOf b = before ++ id :: after →
      f.AtHand b before v)
    (hty : f.Reachable b → f.typeOf v = f.typeOf (.inst id))
    (hown : f.Reachable b → ∀ j, v = .inst j → own j = false) :
    f.StandsIn own (fun j => decide (j = id)) (replaceResult id v) where
  toReplaceable := replaceable_of_atHand ho.wellFormed.consistent hat
  idle := by
    intro c j i' _ _ hdrop hi'
    rw [of_decide_eq_true hdrop, hi] at hi'
    cases hi'
    exact hidle
  ty := by
    intro c j hc hj hdrop
    rw [of_decide_eq_true hdrop] at hj ⊢
    rw [ho.wellFormed.consistent.same_block hj hid] at hc
    rw [replaceResult, if_pos rfl]
    exact hty hc
  own := by
    intro c j hc hj hdrop
    rw [of_decide_eq_true hdrop] at hj ⊢
    rw [ho.wellFormed.consistent.same_block hj hid] at hc
    rw [replaceResult, if_pos rfl]
    exact ⟨ho.own_of_inst hid hi halloca, hown hc⟩

/-- An equality that holds wherever the result of the instruction is at hand. -/
theorem equals_of_visits (heq : ∀ memory b pre m w, f.Visits act memory b pre m →
    f.Available b pre id → m.env id = some w → m.eval act f v = some w) :
    f.Equals act (fun j => decide (j = id)) (replaceResult id v) := by
  intro memory b pre m j w hvisit hj hdrop hw
  rw [of_decide_eq_true hdrop] at hj hw ⊢
  rw [replaceResult, if_pos rfl]
  exact heq memory b pre m w hvisit hj hw

end Func

end BinaryLift
