import BinaryLift.Proofs.Run.Machine

/-!
# Values of an execution

What has been computed fits its type, and a store computes nothing. What is written to a slot at
some type is read back at this type.
-/

namespace BinaryLift

namespace Memory

theorem toNat_byteAt (w : Word) (i : Nat) : (byteAt w i).toNat = w.toNat / 2 ^ (8 * i) % 256 := by
  rw [byteAt, BitVec.toNat_setWidth, BitVec.toNat_ushiftRight, Nat.shiftRight_eq_div_pow]

theorem littleEndian_byteAt (w : Word) (k : Nat) :
    ∀ j, littleEndian ((List.range' j k).map (byteAt w)) = w.toNat / 2 ^ (8 * j) % 2 ^ (8 * k) := by
  induction k with
  | zero =>
    intro j
    simp [littleEndian, Nat.mod_one]
  | succ k ih =>
    intro j
    have hdiv : w.toNat / 2 ^ (8 * (j + 1)) = w.toNat / 2 ^ (8 * j) / 256 := by
      rw [Nat.div_div_eq_div_mul, Nat.mul_succ, Nat.pow_add]
    have hpow : 2 ^ (8 * (k + 1)) = 256 * 2 ^ (8 * k) := by
      rw [Nat.mul_succ, Nat.pow_add, Nat.mul_comm]
    rw [List.range'_succ, List.map_cons, littleEndian, ih (j + 1), toNat_byteAt, hdiv, hpow,
      Nat.mod_mul]

theorem bits_le_bytes (ty : Ty) : ty.bits ≤ 8 * ty.bytes ∧ ty.bytes ≤ 8 := by
  cases ty <;> decide

theorem read_fits (m : Memory) (a : Word) (ty : Ty) : ty.Fits (m.read a ty) := ty.fits_and_mask _

theorem write_add (m : Memory) (a : Word) (ty : Ty) (w : Word) {i : Nat} (hi : i < ty.bytes) :
    m.write a ty w (a + BitVec.ofNat 64 i) = byteAt w i := by
  have hle := (bits_le_bytes ty).2
  have htoNat : (a + BitVec.ofNat 64 i - a).toNat = i := by
    rw [BitVec.add_comm, BitVec.add_sub_cancel, BitVec.toNat_ofNat]
    exact Nat.mod_eq_of_lt (by omega)
  rw [write, htoNat, if_pos hi]

theorem write_zero (m : Memory) (ty : Ty) (w : Word) {i : Nat} (hi : i < ty.bytes) :
    m.write 0 ty w (BitVec.ofNat 64 i) = byteAt w i := by
  have hadd := write_add m 0 ty w hi
  rwa [show (0 : Word) + BitVec.ofNat 64 i = BitVec.ofNat 64 i from BitVec.zero_add _] at hadd

theorem read_write (m : Memory) (a : Word) {ty : Ty} {w : Word} (hw : ty.Fits w) :
    (m.write a ty w).read a ty = w := by
  obtain ⟨hbits, hbytes⟩ := bits_le_bytes ty
  have hmap : ((List.range ty.bytes).map fun i => m.write a ty w (a + BitVec.ofNat 64 i)) =
      (List.range' 0 ty.bytes).map (byteAt w) := by
    rw [← List.range_eq_range']
    refine List.map_congr_left fun i hi => ?_
    exact write_add m a ty w (List.mem_range.1 hi)
  have hlt := Ty.toNat_lt_of_fits hw
  have hsmall : w.toNat < 2 ^ (8 * ty.bytes) :=
    Nat.lt_of_lt_of_le hlt (Nat.pow_le_pow_right (by decide) hbits)
  rw [read, hmap, littleEndian_byteAt, Nat.mul_zero, Nat.pow_zero, Nat.div_one,
    Nat.mod_eq_of_lt hsmall, BitVec.ofNat_toNat, BitVec.setWidth_eq]
  exact hw

theorem read_start (ty : Ty) : Memory.read (fun _ => 0) 0 ty = 0 := by
  cases ty <;> decide

end Memory

namespace Machine

variable {act : Activation} {f : Func} {m m₁ : Machine} {id : InstId}

theorem exec_eq_some : m.exec act f id = some m₁ ↔ ∃ i ws a, f.inst? id = some i ∧
    i.kind.operands.mapM (m.eval act f) = some ws ∧ action act f id i.kind ws = some a ∧
    m₁ = m.perform act id (f.wordTy (.inst id)) a := by
  unfold exec
  simp only [Option.bind_eq_bind, Option.bind_eq_some_iff, Option.pure_def, Option.some.injEq,
    eq_comm (b := m₁)]
  constructor
  · rintro ⟨i, hi, ws, hws, a, ha, hm⟩
    exact ⟨i, ws, a, hi, hws, ha, hm⟩
  · rintro ⟨i, ws, a, hi, hws, ha, hm⟩
    exact ⟨i, hi, ws, hws, a, ha, hm⟩

theorem exec_load {p : Value} {o : Option Ty} (hi : f.inst? id = some ⟨.load p, o⟩) :
    m.exec act f id = some m₁ ↔ ∃ a, m.eval act f p = some a ∧
      m₁ = m.define id (f.wordTy (.inst id)) (m.read (f.wordTy (.inst id)) (act.place p a)) := by
  simp only [exec, hi, Kind.operands, List.mapM_cons, List.mapM_nil, Option.bind_eq_bind,
    Option.bind_some, Option.bind_assoc, Option.pure_def, Option.bind_eq_some_iff, action, perform,
    Option.some.injEq, eq_comm (b := m₁)]

theorem exec_store {p v : Value} {o : Option Ty} (hi : f.inst? id = some ⟨.store p v, o⟩) :
    m.exec act f id = some m₁ ↔ ∃ a w, m.eval act f p = some a ∧ m.eval act f v = some w ∧
      m₁ = m.write (f.wordTy v) w (act.place p a) := by
  simp only [exec, hi, Kind.operands, List.mapM_cons, List.mapM_nil, Option.bind_eq_bind,
    Option.bind_some, Option.bind_assoc, Option.pure_def, Option.bind_eq_some_iff, action, perform,
    Option.some.injEq, eq_comm (b := m₁), exists_and_left]
/-- Only loads and stores go to places. -/
theorem action_cases {k : Kind} {ws : List Word} {a : Action} (h : action act f id k ws = some a) :
    (∃ w, a = .result w) ∨ (∃ p x, k = .load p ∧ ws = [x] ∧ a = .load (act.place p x)) ∨
      (∃ p v x w, k = .store p v ∧ ws = [x, w] ∧ a = .store (act.place p x) (f.wordTy v) w) ∨
      ∃ c, a = .call c := by
  unfold action at h
  split at h
  · cases h
    exact .inl ⟨_, rfl⟩
  · cases h
    exact .inr (.inl ⟨_, _, rfl, rfl, rfl⟩)
  · cases h
    exact .inr (.inr (.inl ⟨_, _, _, _, rfl, rfl, rfl⟩))
  · obtain ⟨w, _, rfl⟩ := Option.map_eq_some_iff.1 h
    exact .inl ⟨w, rfl⟩
  · cases h
    exact .inl ⟨_, rfl⟩
  · cases h
    exact .inl ⟨_, rfl⟩
  · cases h
    exact .inl ⟨_, rfl⟩
  · cases h
    exact .inl ⟨_, rfl⟩
  · cases h
    exact .inr (.inr (.inr ⟨_, rfl⟩))
  · cases h

theorem slot_of_place {p : Value} {x : Word} {s : InstId} (h : act.place p x = .slot s) :
    p = .inst s ∧ act.own s = true := by
  cases p with
  | const c => cases h
  | arg k => cases h
  | inst j =>
    by_cases hown : act.own j = true
    · simp only [Activation.place, hown, if_true, Place.slot.injEq] at h
      exact ⟨by rw [h], h ▸ hown⟩
    · simp [Activation.place, hown] at h

theorem guest_of_place {p : Value} {x y : Word} (h : act.place p x = .guest y) : x = y := by
  cases p with
  | const c => exact Place.guest.inj h
  | arg k => exact Place.guest.inj h
  | inst j =>
    cases hown : act.own j with
    | true => simp [Activation.place, hown] at h
    | false => simpa [Activation.place, hown] using h

/-- Values that are the same own slot, if any, name the same place. -/
theorem place_of_own {u v : Value} (h : ∀ s, act.own s = true → (u = .inst s ↔ v = .inst s))
    (a : Word) : act.place u a = act.place v a := by
  have hguest : ∀ u : Value, (∀ s, act.own s = true → u ≠ .inst s) → act.place u a = .guest a := by
    intro u hu
    cases u with
    | const c => rfl
    | arg n => rfl
    | inst j =>
      cases hj : act.own j with
      | false => simp only [Activation.place, hj, Bool.false_eq_true, if_false]
      | true => exact absurd rfl (hu j hj)
  by_cases hslot : ∃ s, act.own s = true ∧ v = .inst s
  · obtain ⟨s, hs, hv⟩ := hslot
    rw [(h s hs).2 hv, hv]
  · have hv : ∀ s, act.own s = true → v ≠ .inst s := fun s hs heq => hslot ⟨s, hs, heq⟩
    rw [hguest v hv, hguest u fun s hs heq => hv s hs ((h s hs).1 heq)]

/-- Computed values fit their types, and stores have none. -/
structure Tame (f : Func) (m : Machine) : Prop where
  fits : ∀ j w, m.env j = some w → (f.wordTy (.inst j)).Fits w
  store : ∀ j p v o, f.inst? j = some ⟨.store p v, o⟩ → m.env j = none

theorem tame_start (f : Func) (memory : Memory) : (start memory).Tame f where
  fits := fun _ _ h => nomatch h
  store := fun _ _ _ _ _ => rfl

theorem Tame.eval (h : m.Tame f) {v : Value} {w : Word} (hv : m.eval act f v = some w) :
    (f.wordTy v).Fits w := by
  cases v with
  | const c =>
    cases hv
    exact c.masked
  | arg n =>
    cases hv
    exact Ty.fits_and_mask _ _
  | inst j => exact h.fits j w hv

theorem Tame.define (h : m.Tame f) (hid : ∀ p v o, f.inst? id ≠ some ⟨.store p v, o⟩) (w : Word) :
    (m.define id (f.wordTy (.inst id)) w).Tame f where
  fits := by
    intro j u hu
    simp only [Machine.define] at hu
    split at hu
    · rename_i hj
      cases hu
      rw [hj]
      exact Ty.fits_and_mask _ _
    · exact h.fits j u hu
  store := by
    intro j p v o hj
    simp only [Machine.define]
    rw [if_neg]
    · exact h.store j p v o hj
    · rintro rfl
      exact hid p v o hj

theorem Tame.write (h : m.Tame f) (ty : Ty) (w : Word) (p : Place) : (m.write ty w p).Tame f := by
  cases p with
  | slot s => exact ⟨h.fits, h.store⟩
  | guest a => exact ⟨h.fits, h.store⟩

theorem Tame.exec (h : m.Tame f) (hm : m.exec act f id = some m₁) : m₁.Tame f := by
  obtain ⟨i, ws, a, hi, _, ha, rfl⟩ := exec_eq_some.1 hm
  by_cases hstore : ∃ p v o, i = ⟨.store p v, o⟩
  · obtain ⟨p, v, o, rfl⟩ := hstore
    obtain ⟨x, w, rfl⟩ : ∃ x w, ws = [x, w] := by
      match ws, ha with
      | [x, w], _ => exact ⟨x, w, rfl⟩
    cases ha
    exact h.write _ _ _
  · have hid : ∀ p v o, f.inst? id ≠ some ⟨.store p v, o⟩ := by
      intro p v o heq
      rw [hi] at heq
      exact hstore ⟨p, v, o, Option.some.inj heq⟩
    cases a with
    | result w => exact h.define hid w
    | load p => exact h.define hid _
    | store p ty w => exact h.write ty w p
    | call c =>
      have hcall : Tame f { m with
          memory := (act.answer m.calls c m.memory).2, calls := m.calls ++ [c] } :=
        ⟨h.fits, h.store⟩
      exact hcall.define hid _

theorem Tame.enter (h : m.Tame f) {prev : Option BlockId} {phis : List InstId}
    (hm : m.enter act f prev phis = some m₁) : m₁.Tame f := by
  unfold Machine.enter at hm
  split at hm
  · cases hm
    refine ⟨fun j w hj => ?_, fun j p v o hj => ?_⟩
    · simp only at hj
      split at hj
      · obtain ⟨u, _, rfl⟩ := Option.map_eq_some_iff.1 hj
        exact Ty.fits_and_mask _ _
      · exact h.fits j w hj
    · simp only
      split
      · simp only [phiWord, hj, Option.map_none]
      · exact h.store j p v o hj
  · cases hm

theorem phiWord_entry (act : Activation) (f : Func) (m : Machine) (id : InstId) :
    m.phiWord act f none id = none := by
  unfold phiWord
  split
  · rename_i inc _ _
    have hfind : (inc.find? fun e => some e.1 = (none : Option BlockId)) = none := by simp
    rw [hfind]
    rfl
  · rfl

/-! ### Renamed operands -/

variable {g : Func} {ρ : Value → Value}

theorem eval_congr {v : Value} {m m' : Machine} (h : ∀ j, v = .inst j → m'.env j = m.env j) :
    m'.eval act g v = m.eval act g v := by
  cases v with
  | const c => rfl
  | arg k => rfl
  | inst j => exact h j rfl

theorem mapM_rename {k k' : Value → Option Word} (vs : List Value)
    (h : ∀ v ∈ vs, ∀ w, k v = some w → k' (ρ v) = some w) :
    ∀ ws, vs.mapM k = some ws → (vs.map ρ).mapM k' = some ws := by
  induction vs with
  | nil => exact fun ws hws => hws
  | cons v vs ih =>
    intro ws hws
    rw [List.mapM_cons] at hws
    simp only [Option.bind_eq_bind, Option.bind_eq_some_iff, Option.pure_def, Option.some.injEq] at hws
    obtain ⟨w, hw, ws', hws', rfl⟩ := hws
    have hrest := ih (fun u hu => h u (List.mem_cons_of_mem _ hu)) ws' hws'
    rw [List.map_cons, List.mapM_cons, h v List.mem_cons_self w hw, hrest]
    rfl

theorem mapM_cons_eq_some {k : Value → Option Word} {v : Value} {vs : List Value} {w : Word}
    {ws : List Word} : (v :: vs).mapM k = some (w :: ws) ↔ k v = some w ∧ vs.mapM k = some ws := by
  simp only [List.mapM_cons, Option.bind_eq_bind, Option.bind_eq_some_iff, Option.pure_def,
    Option.some.injEq, List.cons.injEq]
  constructor
  · rintro ⟨_, hw, _, hws, rfl, rfl⟩
    exact ⟨hw, hws⟩
  · rintro ⟨hw, hws⟩
    exact ⟨w, hw, ws, hws, rfl, rfl⟩

theorem action_rename {act' : Activation} {k : Kind} (hbase : act'.base = act.base)
    (hplace : ∀ v ∈ k.operands, ∀ a, act'.place (ρ v) a = act.place v a)
    (hty : ∀ v ∈ k.operands, g.wordTy (ρ v) = f.wordTy v)
    (hid : g.wordTy (.inst id) = f.wordTy (.inst id)) (ws : List Word) :
    action act' g id (k.mapOperands ρ) ws = action act f id k ws := by
  cases k with
  | alloca n =>
    cases ws with
    | nil => simp only [Kind.mapOperands, action, hbase]
    | cons _ _ => rfl
  | load p =>
    rcases ws with _ | ⟨a, _ | ⟨_, ws⟩⟩
    · rfl
    · simp only [Kind.mapOperands, action, hplace p (by simp [Kind.operands])]
    · rfl
  | store p v =>
    rcases ws with _ | ⟨a, _ | ⟨w, _ | ⟨_, ws⟩⟩⟩
    · rfl
    · rfl
    · simp only [Kind.mapOperands, action, hplace p (by simp [Kind.operands]),
        hty v (by simp [Kind.operands])]
    · rfl
  | binary op x y =>
    rcases ws with _ | ⟨a, _ | ⟨c, _ | ⟨_, ws⟩⟩⟩
    · rfl
    · rfl
    · simp only [Kind.mapOperands, action, hid]
    · rfl
  | icmp pred x y =>
    rcases ws with _ | ⟨a, _ | ⟨c, _ | ⟨_, ws⟩⟩⟩
    · rfl
    · rfl
    · simp only [Kind.mapOperands, action, hty x (by simp [Kind.operands])]
    · rfl
  | cast op v =>
    rcases ws with _ | ⟨a, _ | ⟨_, ws⟩⟩
    · rfl
    · simp only [Kind.mapOperands, action, hid, hty v (by simp [Kind.operands])]
    · rfl
  | ptrAdd x y => rcases ws with _ | ⟨a, _ | ⟨c, _ | ⟨_, ws⟩⟩⟩ <;> rfl
  | select x y z => rcases ws with _ | ⟨a, _ | ⟨c, _ | ⟨e, _ | ⟨_, ws⟩⟩⟩⟩ <;> rfl
  | phi inc => rfl
  | call callee args => rfl

/-! ### Phis -/

theorem enter_eq_some {prev : Option BlockId} {phis : List InstId} :
    m.enter act f prev phis = some m₁ ↔
      (∀ id ∈ phis, ∃ w, m.phiWord act f prev id = some w) ∧
      m₁ = { m with
        env := fun id =>
          if id ∈ phis then (m.phiWord act f prev id).map (· &&& (f.wordTy (.inst id)).mask)
          else m.env id } := by
  unfold enter
  split
  · rename_i hall
    simp only [List.all_eq_true, Option.isSome_iff_exists] at hall
    rw [Option.some.injEq, eq_comm, and_iff_right hall]
  · rename_i hall
    simp only [List.all_eq_true, Option.isSome_iff_exists] at hall
    simp [hall]

theorem phi_of_phiWord {prev : Option BlockId} {w : Word} (h : m.phiWord act f prev id = some w) :
    ∃ inc o, f.inst? id = some ⟨.phi inc, o⟩ := by
  unfold phiWord at h
  split at h
  · exact ⟨_, _, ‹_›⟩
  · cases h

/-- A phi receives what it did if what comes in is what it was. -/
theorem phiWord_rename {act' : Activation} {m' : Machine} {prev : Option BlockId}
    {inc : List (BlockId × Value)} {o o' : Option Ty} (hi : f.inst? id = some ⟨.phi inc, o⟩)
    (hi' : g.inst? id = some ⟨.phi (inc.map fun e => (e.1, ρ e.2)), o'⟩)
    (heval : ∀ e ∈ inc, some e.1 = prev → ∀ w, m.eval act f e.2 = some w →
      m'.eval act' g (ρ e.2) = some w) {w : Word} (hw : m.phiWord act f prev id = some w) :
    m'.phiWord act' g prev id = some w := by
  simp only [phiWord, hi] at hw
  obtain ⟨e, hfind, he⟩ := Option.bind_eq_some_iff.1 hw
  have hprev : some e.1 = prev := by simpa using List.find?_some hfind
  simp only [phiWord, hi', List.find?_map, Function.comp_def]
  rw [hfind]
  exact heval e (List.mem_of_find?_eq_some hfind) hprev w he

/-- Phis that receive what they did can be entered, and have the values they had. -/
theorem enter_rename {act' : Activation} {m' : Machine} {prev : Option BlockId}
    {phis phis' : List InstId} (hsub : phis' ⊆ phis)
    (hword : ∀ id ∈ phis', ∀ w, m.phiWord act f prev id = some w →
      m'.phiWord act' g prev id = some w)
    (hty : ∀ id ∈ phis', g.wordTy (.inst id) = f.wordTy (.inst id))
    (h : m.enter act f prev phis = some m₁) :
    ∃ env, m'.enter act' g prev phis' = some { m' with env := env } ∧
      (∀ j ∈ phis', env j = m₁.env j) ∧ ∀ j ∉ phis', env j = m'.env j := by
  obtain ⟨hall, rfl⟩ := enter_eq_some.1 h
  refine ⟨_, enter_eq_some.2 ⟨fun id hid => ?_, rfl⟩, fun j hj => ?_, fun j hj => if_neg hj⟩
  · obtain ⟨w, hw⟩ := hall id (hsub hid)
    exact ⟨w, hword id hid w hw⟩
  · obtain ⟨w, hw⟩ := hall j (hsub hj)
    simp only [hj, if_true, hsub hj, hw, hword j hj w hw, hty j hj]

/-- Nothing comes in at the start, so nothing is entered. -/
theorem enter_none {phis : List InstId} (h : m.enter act f none phis = some m₁) :
    phis = [] ∧ m₁ = m := by
  obtain ⟨hall, rfl⟩ := enter_eq_some.1 h
  have hnil : phis = [] := by
    rw [List.eq_nil_iff_forall_not_mem]
    intro id hid
    obtain ⟨w, hw⟩ := hall id hid
    rw [phiWord_entry] at hw
    cases hw
  subst hnil
  exact ⟨rfl, by simp⟩

end Machine

end BinaryLift
