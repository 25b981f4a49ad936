import BinaryLift.Proofs.Run.Refinement

/-!
# Orderly functions

What a transformation relies on and keeps: the function is well formed, the code that control can
reach is typed, and it names an own slot only as the place of a load or a store. What unreachable
code does is of no account, nor is what a phi would receive from it.
-/

namespace BinaryLift

/-- A slot is named at most as the place of an access. -/
def Kind.Spares (s : InstId) : Kind → Prop
  | .load _ => True
  | .store _ v => v ≠ .inst s
  | k => .inst s ∉ k.operands

/-- Pointers are turned into full words, and full words are added to them. -/
def Kind.WholeWords (f : Func) (ty : Option Ty) : Kind → Prop
  | .cast .ptrtoint _ => ty = some .i64
  | .ptrAdd _ o => f.typeOf o = some .i64
  | _ => True

namespace Func

structure Orderly (own : InstId → Bool) (f : Func) : Prop where
  wellFormed : f.WellFormed
  typed : ∀ b id i, f.Reachable b → id ∈ f.instsOf b → f.inst? id = some i →
    i.kind.isPhi = false → i.kind.Typed f i.ty
  phi : ∀ b id inc ty, f.Reachable b → id ∈ f.instsOf b → f.inst? id = some ⟨.phi inc, ty⟩ →
    ty.isSome ∧ ∀ q v, (q, v) ∈ inc → f.Reachable q →
      f.typeOf v = ty ∧ ∀ s, v = .inst s → own s = false
  slot : ∀ s, own s = true → ∀ b i, s ∈ f.instsOf b → f.inst? s = some i → i.kind.isAlloca = true
  spares : ∀ s, own s = true → ∀ b id i, f.Reachable b → id ∈ f.instsOf b → f.inst? id = some i →
    i.kind.isPhi = false → i.kind.Spares s

variable {f : Func} {s : InstId}

theorem usersOf_of_mem {b : BlockId} {id : InstId} {i : Inst} {v : Value} (hid : id ∈ f.instsOf b)
    (hi : f.inst? id = some i) (hv : v ∈ i.kind.operands) : User.inst id ∈ f.usersOf v := by
  obtain ⟨data, hdata, hmem⟩ := exists_block_of_mem hid
  exact mem_usersOf.2 ⟨b, data, hdata, .inl ⟨id, i, hmem, hi, hv, rfl⟩⟩

theorem alloca_of_confines (h : f.confines s = true) {i : Inst} (hi : f.inst? s = some i) :
    i.kind.isAlloca = true := by
  simp only [confines, Bool.and_eq_true, hi, Option.any_some] at h
  exact h.1.2

theorem spares_of_confines (h : f.confines s = true) {b : BlockId} {id : InstId} {i : Inst}
    (hid : id ∈ f.instsOf b) (hi : f.inst? id = some i) : i.kind.Spares s := by
  have haccess : ∀ v ∈ i.kind.operands, v = .inst s → f.accesses s (.inst id) = true := by
    intro v hv heq
    simp only [confines, Bool.and_eq_true] at h
    refine List.all_eq_true.1 h.2 _ (usersOf_of_mem hid hi ?_)
    rwa [← heq]
  obtain ⟨kind, o⟩ := i
  cases kind with
  | load p => trivial
  | store p v =>
    intro hv
    have hacc := haccess v (by simp [Kind.operands]) hv
    simp only [accesses, hi, ne_eq, decide_not, Bool.not_eq_eq_eq_not, Bool.not_true,
      decide_eq_false_iff_not] at hacc
    exact hacc hv
  | _ =>
    intro hmem
    have hacc := haccess _ hmem rfl
    simp only [accesses, hi] at hacc
    cases hacc

theorem orderly_of_wellTyped {own : InstId → Bool} (hwf : f.WellFormed) (hty : f.WellTyped)
    (hown : ∀ s, own s = true → f.confines s = true) : f.Orderly own where
  wellFormed := hwf
  typed := by
    intro b id i _ hid hi _
    exact hty.kind (hwf.consistent.isLive_of_mem hid) hi
  phi := by
    intro b id inc ty _ hid hi
    have hlive : f.isLive id = true := hwf.consistent.isLive_of_mem hid
    have htyped : ty.isSome ∧ ∀ e ∈ inc, f.typeOf e.2 = ty := hty.kind hlive hi
    refine ⟨htyped.1, fun q v he _ => ⟨htyped.2 (q, v) he, ?_⟩⟩
    rintro s rfl
    cases hs : own s with
    | false => rfl
    | true => exact absurd (List.mem_map.2 ⟨_, he, rfl⟩) (spares_of_confines (hown s hs) hid hi)
  slot := fun s hs _ _ _ => alloca_of_confines (hown s hs)
  spares := fun s hs _ _ _ _ hid hi _ => spares_of_confines (hown s hs) hid hi

theorem typeOf_congr {g : Func} (hparams : g.params = f.params)
    (hty : ∀ id, (g.inst? id).map (·.ty) = (f.inst? id).map (·.ty)) (v : Value) :
    g.typeOf v = f.typeOf v := by
  cases v with
  | const c => rfl
  | arg n => simp only [typeOf, hparams]
  | inst j =>
    have hbind : ∀ o : Option Inst, o.bind (·.ty) = (o.map (·.ty)).join := by
      intro o
      cases o <;> rfl
    simp only [typeOf, hbind, hty j]

/-- An instruction that is no slot is no own slot. -/
theorem Orderly.own_of_inst {own : InstId → Bool} (h : f.Orderly own) {b : BlockId} {id : InstId}
    {i : Inst} (hid : id ∈ f.instsOf b) (hi : f.inst? id = some i) (hk : i.kind.isAlloca = false) :
    own id = false := by
  cases hown : own id with
  | false => rfl
  | true =>
    rw [h.slot id hown b i hid hi] at hk
    cases hk

/-- What reachable code is like where no slot is shared: every slot is an own slot that no terminator
names, pointers are full words, terminators read results, and nothing comes in at the entry. -/
structure Regular (own : InstId → Bool) (f : Func) : Prop where
  slots : ∀ b id i, f.Reachable b → id ∈ f.instsOf b → f.inst? id = some i →
    i.kind.isAlloca = true → own id = true
  words : ∀ b id i, f.Reachable b → id ∈ f.instsOf b → f.inst? id = some i →
    i.kind.WholeWords f i.ty
  terms : ∀ s, own s = true → ∀ b data, f.Reachable b → f.block? b = some data →
    .inst s ∉ data.term.operands
  results : ∀ b data v, f.Reachable b → f.block? b = some data → v ∈ data.term.operands →
    (f.typeOf v).isSome = true
  entry : ∀ e id, f.entry = some e → id ∈ f.instsOf e → f.isPhi id = false

/-- The code that control can reach was there before, as far as slots and pointers go. -/
theorem Regular.of_home {own : InstId → Bool} {g : Func} (h : f.Regular own)
    (hinst : ∀ b id k, g.Reachable b → id ∈ g.instsOf b → g.inst? id = some k →
      ∃ c i, f.Reachable c ∧ id ∈ f.instsOf c ∧ f.inst? id = some i ∧
        k.kind.isAlloca = i.kind.isAlloca ∧ (i.kind.WholeWords f i.ty → k.kind.WholeWords g k.ty))
    (hterm : ∀ b data' v, g.Reachable b → g.block? b = some data' → v ∈ data'.term.operands →
      ∃ c data u, f.Reachable c ∧ f.block? c = some data ∧ u ∈ data.term.operands ∧
        (∀ s, own s = true → v = .inst s → u = .inst s) ∧ g.typeOf v = f.typeOf u)
    (hentry : ∀ e id, g.entry = some e → id ∈ g.instsOf e → g.isPhi id = false) :
    g.Regular own where
  slots := by
    intro b id k hb hid hk halloca
    obtain ⟨c, i, hc, hmem, hi, hsame, _⟩ := hinst b id k hb hid hk
    exact h.slots c id i hc hmem hi (hsame.symm.trans halloca)
  words := by
    intro b id k hb hid hk
    obtain ⟨c, i, hc, hmem, hi, _, hwords⟩ := hinst b id k hb hid hk
    exact hwords (h.words c id i hc hmem hi)
  terms := by
    intro s hs b data' hb hdata' hop
    obtain ⟨c, data, u, hc, hdata, hu, hown, _⟩ := hterm b data' _ hb hdata' hop
    exact h.terms s hs c data hc hdata (hown s hs rfl ▸ hu)
  results := by
    intro b data' v hb hdata' hv
    obtain ⟨c, data, u, hc, hdata, hu, _, hty⟩ := hterm b data' v hb hdata' hv
    rw [hty]
    exact h.results c data u hc hdata hu
  entry := hentry

/-- The function `g` is well formed, and for everyone in whose eyes `f` is orderly it is orderly and
does what `f` does. -/
structure Keeps (f g : Func) : Prop where
  wellFormed : g.WellFormed
  orderly : ∀ own, f.Orderly own → g.Orderly own
  regular : ∀ own, f.Orderly own → f.Regular own → g.Regular own
  leaves : ∀ act : Activation, act.Leaves f → act.Leaves g
  refines : ∀ act : Activation, act.Leaves f → f.Orderly act.own → f.Refines act g

theorem Keeps.refl (hwf : f.WellFormed) : f.Keeps f where
  wellFormed := hwf
  orderly := fun _ h => h
  regular := fun _ _ h => h
  leaves := fun _ h => h
  refines := fun act _ _ => .refl act f

theorem Keeps.trans {g h : Func} (hfg : f.Keeps g) (hgh : g.Keeps h) : f.Keeps h where
  wellFormed := hgh.wellFormed
  orderly := fun own ho => hgh.orderly own (hfg.orderly own ho)
  regular := fun own ho hr => hgh.regular own (hfg.orderly own ho) (hfg.regular own ho hr)
  leaves := fun act hl => hgh.leaves act (hfg.leaves act hl)
  refines := fun act hl ho => (hfg.refines act hl ho).trans
    (hgh.refines act (hfg.leaves act hl) (hfg.orderly act.own ho))

/-- Where indirect jumps leave the function, the executions of a typed function end as they did. -/
theorem Keeps.preserves {g : Func} (h : f.Keeps g) (hwf : f.WellFormed) (hty : f.WellTyped)
    {act : Activation} (hlinked : act.linked = false)
    (hown : ∀ s, act.own s = true → f.confines s = true) : f.Refines act g :=
  h.refines act (act.leaves_of_linked hlinked f) (orderly_of_wellTyped hwf hty hown)

end Func

namespace Kind

variable {f g : Func} {ρ : Value → Value} {k : Kind} {ty : Option Ty}

theorem typed_mapOperands (hty : ∀ v ∈ k.operands, g.typeOf (ρ v) = f.typeOf v)
    (h : k.Typed f ty) : (k.mapOperands ρ).Typed g ty := by
  cases k with
  | alloca n => exact h
  | load p =>
    simp only [mapOperands, Typed, hty p (by simp [operands])]
    exact h
  | store p v =>
    simp only [mapOperands, Typed, hty p (by simp [operands]), hty v (by simp [operands])]
    exact h
  | binary op a b =>
    simp only [mapOperands, Typed, hty a (by simp [operands]), hty b (by simp [operands])]
    exact h
  | icmp p a b =>
    simp only [mapOperands, Typed, hty a (by simp [operands]), hty b (by simp [operands])]
    exact h
  | cast op v =>
    simp only [mapOperands, Typed, hty v (by simp [operands])]
    exact h
  | ptrAdd b o =>
    simp only [mapOperands, Typed, hty b (by simp [operands]), hty o (by simp [operands])]
    exact h
  | select c a b =>
    simp only [mapOperands, Typed, hty c (by simp [operands]), hty a (by simp [operands]),
      hty b (by simp [operands])]
    exact h
  | phi inc =>
    refine ⟨h.1, fun e he => ?_⟩
    obtain ⟨e', he', rfl⟩ := List.mem_map.1 he
    rw [hty e'.2 (List.mem_map.2 ⟨e', he', rfl⟩)]
    exact h.2 e' he'
  | call callee args =>
    intro a ha
    obtain ⟨v, hv, rfl⟩ := List.mem_map.1 ha
    rw [hty v hv]
    exact h v hv

theorem spares_of_notMem {s : InstId} (h : .inst s ∉ k.operands) : k.Spares s := by
  cases k with
  | load p => trivial
  | store p v =>
    rintro rfl
    exact h (List.mem_cons_of_mem _ List.mem_cons_self)
  | _ => exact h

theorem spares_mapOperands {s : InstId} (hρ : ∀ v ∈ k.operands, ρ v = .inst s → v = .inst s)
    (h : k.Spares s) : (k.mapOperands ρ).Spares s := by
  have hmem : .inst s ∉ k.operands → .inst s ∉ (k.mapOperands ρ).operands := by
    intro hnot hin
    rw [operands_mapOperands] at hin
    obtain ⟨v, hv, heq⟩ := List.mem_map.1 hin
    rw [hρ v hv heq] at hv
    exact hnot hv
  cases k with
  | load p => trivial
  | store p v => exact fun heq => h (hρ v (by simp [operands]) heq)
  | _ => exact hmem h

theorem isPhi_mapOperands (ρ : Value → Value) (k : Kind) : (k.mapOperands ρ).isPhi = k.isPhi := by
  cases k <;> rfl

theorem isAlloca_mapOperands (ρ : Value → Value) (k : Kind) :
    (k.mapOperands ρ).isAlloca = k.isAlloca := by
  cases k <;> rfl

theorem isAlloca_mapIncoming (φ : List (BlockId × Value) → List (BlockId × Value)) (k : Kind) :
    (k.mapIncoming φ).isAlloca = k.isAlloca := by
  cases k <;> rfl

theorem wholeWords_of_isPhi (h : k.isPhi = true) : k.WholeWords f ty := by
  cases k with
  | phi inc => trivial
  | _ => cases h

theorem WholeWords.mapOperands (hty : ∀ v ∈ k.operands, g.typeOf (ρ v) = f.typeOf v)
    (h : k.WholeWords f ty) : (k.mapOperands ρ).WholeWords g ty := by
  cases k with
  | cast op v =>
    cases op with
    | ptrtoint => exact h
    | _ => trivial
  | ptrAdd b o => exact (hty o (by simp [operands])).trans h
  | _ => trivial

theorem WholeWords.mapIncoming (φ : List (BlockId × Value) → List (BlockId × Value))
    (hty : ∀ v, g.typeOf v = f.typeOf v) (h : k.WholeWords f ty) :
    (k.mapIncoming φ).WholeWords g ty := by
  cases k with
  | cast op v =>
    cases op with
    | ptrtoint => exact h
    | _ => trivial
  | ptrAdd b o => exact (hty o).trans h
  | _ => trivial

end Kind

end BinaryLift
