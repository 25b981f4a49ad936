import BinaryLift.Proofs.Image.SplitReads
import BinaryLift.Proofs.Run.Computed
import BinaryLift.Proofs.Run.PrivateSlots
import BinaryLift.Proofs.Transform.Additions
import BinaryLift.Proofs.Transform.Memory

/-!
# Narrow loads

The sweep of `replace-trunc-with-load`. A narrow load gives the low bits of what a wide one gives. It
stands directly before the wide load and so reads the same memory, wherever the wide value is cut down in
the end. First it is put there and nobody reads it; then it takes the place of the result that was cut
down, and the two old instructions go. Every narrowing keeps the function typed and its slots slots, so a
sweep of them keeps what executions do.
-/

namespace BinaryLift

/-! ### The low bytes of a word -/

/-- The bytes of a narrower type come first. -/
theorem Memory.read_and_mask (m : Memory) (a : Word) {source target : Ty}
    (h : target.bits ≤ source.bits) : m.read a source &&& target.mask = m.read a target := by
  have hbytes : source.bytes = target.bytes + (source.bytes - target.bytes) := by
    unfold Ty.bytes
    omega
  obtain ⟨k, hk⟩ : 2 ^ target.bits ∣ 2 ^ (8 * target.bytes) :=
    Nat.pow_dvd_pow 2 (Memory.bits_le_bytes target).1
  have hword : 2 ^ target.bits ∣ 2 ^ 64 := Nat.pow_dvd_pow 2 target.bits_le
  unfold Memory.read
  rw [BitVec.and_assoc, Ty.mask_and_mask h, Ty.and_mask_eq_iff, hbytes, List.range_add,
    List.map_append, littleEndian_append, List.length_map, List.length_range, hk]
  apply BitVec.eq_of_toNat_eq
  rw [BitVec.toNat_setWidth, BitVec.toNat_setWidth, BitVec.toNat_ofNat, BitVec.toNat_ofNat,
    Nat.mod_mod_of_dvd _ hword, Nat.mod_mod_of_dvd _ hword, Nat.mul_assoc,
    Nat.add_mul_mod_self_left]

theorem Machine.read_and_mask (m : Machine) (p : Place) {source target : Ty}
    (h : target.bits ≤ source.bits) : m.read source p &&& target.mask = m.read target p := by
  cases p with
  | slot s => exact Memory.read_and_mask _ _ h
  | guest a => exact Memory.read_and_mask _ _ h

/-- After a load its result is what it has read, and every place reads as before. -/
theorem Machine.of_exec_load {act : Activation} {f : Func} {m m₁ : Machine} {id : InstId}
    {ptr : Value} {ty : Ty} (hi : f.inst? id = some ⟨.load ptr, some ty⟩)
    (h : m.exec act f id = some m₁) : ∃ a, m.eval act f ptr = some a ∧
      m₁.env id = some (m.read ty (act.place ptr a)) ∧ ∀ t p, m₁.read t p = m.read t p := by
  obtain ⟨a, ha, rfl⟩ := (exec_load hi).1 h
  have hty : f.wordTy (.inst id) = ty := Func.wordTy_inst hi
  refine ⟨a, ha, ?_, fun t p => by cases p <;> rfl⟩
  simp only [define, if_true, hty]
  exact congrArg some (read_fits m ty _)

theorem CastOp.fold_trunc {source : Ty} {w : Word} (hw : source.Fits w) (target : Ty) :
    CastOp.trunc.fold w source target = w &&& target.mask :=
  congrArg (· &&& target.mask) hw

namespace Func

variable {f g g₁ g₂ : Func} {act : Activation} {b c : BlockId} {id load j : InstId} {ptr v : Value}
  {ty : Option Ty} {before after pre : List InstId} {drop : InstId → Bool} {ρ : Value → Value}
  {memory : Memory} {m : Machine}

/-- A renaming that keeps types keeps a function typed. -/
theorem Substituted.wellTyped (h : f.Substituted drop ρ g) (hc : f.Consistent) (hty : f.WellTyped)
    (hρ : ∀ v, f.typeOf (ρ v) = f.typeOf v) : g.WellTyped := by
  rw [wellTyped_iff] at hty ⊢
  intro id i hlive hi
  obtain ⟨b, hb⟩ := Option.isSome_iff_exists.1 hlive
  rw [h.instBlock id] at hb
  split at hb
  · cases hb
  · have hmem := hc.mem_instsOf.2 hb
    obtain ⟨k, hk⟩ := hc.inst?_of_mem hmem
    rw [h.inst b id k hmem hk] at hi
    cases hi
    exact Kind.typed_mapOperands (fun v _ => (h.typeOf _).trans (hρ v))
      (hty id k (hc.isLive_of_mem hmem) hk)

namespace Narrows

variable (h : g.Narrows id load ptr ty b before after g₁ g₂)

include h

theorem inst_fresh : g₁.inst? g.fresh = some ⟨.load ptr, ty⟩ := h.inserted.inst?_fresh

theorem inst_trunc : g₁.inst? id = some ⟨.cast .trunc (.inst load), ty⟩ :=
  h.inserted.inst?_old h.trunc

theorem instsOf_self : g₁.instsOf b = (before ++ [g.fresh]) ++ load :: after := by
  rw [h.inserted.instsOf_self, List.append_cons]

/-- The two types. -/
theorem types (hwf : g.WellFormed) (hty : g.WellTyped) : ∃ source target,
    g.inst? load = some ⟨.load ptr, some source⟩ ∧ ty = some target ∧
      target.bits ≤ source.bits ∧ g.typeOf ptr = some .ptr := by
  obtain ⟨c, _, hid, _⟩ := h.cuts.trunc
  obtain ⟨d, t, hload, hwide⟩ := h.cuts.wide
  have htrunc : Kind.CastTyped .trunc (g.typeOf (.inst load)) ty :=
    hty.kind (hwf.consistent.isLive_of_mem hid) h.trunc
  obtain ⟨hptr, _⟩ : g.typeOf ptr = some .ptr ∧ t.isSome :=
    hty.kind (hwf.consistent.isLive_of_mem hload) hwide
  rw [typeOf_inst hwide] at htrunc
  cases t with
  | none => exact htrunc.elim
  | some source =>
    cases ty with
    | none => exact htrunc.elim
    | some target => exact ⟨source, target, hwide, rfl, Nat.le_of_lt htrunc.1, hptr⟩

theorem follows : Inserted.Follows act g g₁ (load :: after) := by
  intro m m₁ hm₁
  rw [List.foldlM_cons, Option.bind_eq_bind, Option.bind_eq_some_iff] at hm₁
  obtain ⟨_, hload, _⟩ := hm₁
  obtain ⟨_, _, _, hwide⟩ := h.cuts.wide
  obtain ⟨a, ha, _⟩ := (Machine.exec_load hwide).1 hload
  exact ⟨_, (Machine.exec_load h.inst_fresh).2 ⟨a, (h.inserted.eval m ptr).trans ha, rfl⟩⟩

theorem typeOf_rename (v : Value) :
    g₁.typeOf (replaceResult id (.inst g.fresh) v) = g₁.typeOf v := by
  unfold replaceResult
  split
  · rename_i hv
    rw [hv, typeOf_inst h.inst_fresh, typeOf_inst h.inst_trunc]
  · rfl

theorem wellTyped_mid (hwf : g.WellFormed) (hty : g.WellTyped) : g₁.WellTyped := by
  obtain ⟨_, target, _, rfl, _, hptr⟩ := h.types hwf hty
  exact h.inserted.wellTyped hty ⟨hptr, rfl⟩

theorem wellTyped (hwf : g.WellFormed) (hty : g.WellTyped) : g₂.WellTyped :=
  (h.substituted hwf).wellTyped (h.wellFormed_mid hwf).consistent (h.wellTyped_mid hwf hty)
    h.typeOf_rename

/-- Wherever the wide load has been executed, the narrow one has its low bits. -/
theorem env_fresh (hwf : g.WellFormed) (hl : act.Leaves g₁) {source target : Ty}
    (hold : g.inst? load = some ⟨.load ptr, some source⟩) (htarget : ty = some target)
    (hle : target.bits ≤ source.bits) (hvisit : g₁.Visits act memory c pre m)
    (hav : g₁.Available c pre load) :
    ∀ w, m.env load = some w → m.env g.fresh = some (w &&& target.mask) := by
  have hwf₁ := h.wellFormed_mid hwf
  have hwide := h.inserted.inst?_old hold
  subst htarget
  refine hvisit.established (S := fun o => o = load ∨ o = g.fresh)
    (C := fun m => ∀ w, m.env load = some w → m.env g.fresh = some (w &&& target.mask)) hwf₁ hl ?_
    ?_ ?_ ?_ hav
  · intro m m' henv hm w hw
    rw [henv load (.inl rfl)] at hw
    rw [henv g.fresh (.inr rfl), hm w hw]
  · rintro d pre' hd hpre hav o (rfl | rfl)
    · exact hav
    · exact hwf₁.consistent.atHand_of_available (v := .inst g.fresh) h.instsOf_self
        (.inl (List.mem_append_right _ (List.mem_singleton_self _))) hd hpre hav
  · intro d pre' post m₁ m₂ hvisit hd hsplit hm₂ w hw
    -- the narrow load has just been executed, in the state `m`
    obtain ⟨rfl, rfl⟩ := hwf₁.consistent.split_unique hsplit h.instsOf_self
    obtain ⟨m, _, hm₁⟩ := hvisit.of_snoc (isPhi_inst h.inst_fresh)
    obtain ⟨a, ha, hnarrow, hread⟩ := Machine.of_exec_load h.inst_fresh hm₁
    obtain ⟨a', ha', hword, _⟩ := Machine.of_exec_load hwide hm₂
    have heval : m₁.eval act g₁ ptr = m.eval act g₁ ptr := by
      refine Machine.eval_congr fun o ho => Machine.env_exec hm₁ ?_
      have hptr : g₁.Available d before o :=
        hwf₁.use (v := .inst o) hd h.inserted.instsOf_self h.inst_fresh rfl
          (ho ▸ List.mem_singleton_self _)
      exact hwf₁.consistent.ne_of_available h.inserted.instsOf_self hptr
    rw [heval, ha] at ha'
    cases ha'
    rw [hword, hread] at hw
    cases hw
    rw [Machine.env_exec hm₂ (ne_fresh_of_inst? hold).symm, hnarrow, Machine.read_and_mask m _ hle]
  · intro q d m m₁ _ _ _ hmem _ _
    have hphi := of_mem_takeWhile hmem
    rw [isPhi_inst hwide] at hphi
    cases hphi

/-- What the wide value was cut down to is what the narrow load has read. -/
theorem faithful (hwf : g.WellFormed) (hty : g.WellTyped) (hl : act.Leaves g₁) :
    g₁.Faithful act (fun x => decide (x ∈ [id, load])) (replaceResult id (.inst g.fresh)) := by
  obtain ⟨source, target, hold, rfl, hle, _⟩ := h.types hwf hty
  have hwf₁ := h.wellFormed_mid hwf
  intro memory c pre m v w hvisit hread hw
  unfold replaceResult
  split
  · rename_i hv
    subst hv
    have hav : g₁.Available c pre id := hread.atHand hwf₁
    have hload : g₁.Available c pre load := hwf₁.operand_atHand (v := .inst load) hread.reachable
      hread.pre_prefix hav h.inst_trunc rfl (List.mem_singleton_self _)
    obtain ⟨u, hu, hcompute⟩ := hvisit.settled hwf₁ hl h.inst_trunc rfl hav
    obtain ⟨a, ha, rfl⟩ := (Machine.compute_cast h.inst_trunc).1 hcompute
    have hfresh := h.env_fresh hwf hl hold rfl hle hvisit hload a ha
    rw [← CastOp.fold_trunc (hvisit.tame.eval ha) target] at hfresh
    exact hfresh.trans (hu.symm.trans hw)
  · exact hw

theorem suited (hwf : g.WellFormed) {own : InstId → Bool} (hid : own id = false)
    (hfresh : own g.fresh = false) :
    g₁.Suited own (fun x => decide (x ∈ [id, load])) (replaceResult id (.inst g.fresh)) where
  supplied := h.cuts.supplied hwf h.split h.inserted (h.wellFormed_mid hwf)
  idle := by
    intro c x i _ _ hdrop hi
    rcases List.mem_cons.1 (of_decide_eq_true hdrop) with rfl | hx
    · rw [h.inst_trunc] at hi
      cases hi
      rfl
    · obtain ⟨_, _, _, hold⟩ := h.cuts.wide
      rw [List.mem_singleton.1 hx, h.inserted.inst?_old hold] at hi
      cases hi
      rfl
  ty := fun _ _ v _ => h.typeOf_rename v
  own := by
    intro c pre v _ s hs
    unfold replaceResult
    split
    · rename_i hv
      subst hv
      constructor
      · rintro ⟨⟩
        rw [hfresh] at hs
        cases hs
      · rintro ⟨⟩
        rw [hid] at hs
        cases hs
    · rfl

/-- One narrowing changes no execution. -/
theorem refines (hwf : g.WellFormed) (hty : g.WellTyped) (hl : act.Leaves g)
    (hid : act.own id = false) (hfresh : act.own g.fresh = false) : g.Refines act g₂ := by
  have hl₁ := h.inserted.leaves hl
  have hwf₁ := h.wellFormed_mid hwf
  have hmid : g.Refines act g₁ := h.inserted.refines hwf hl rfl h.follows
  refine hmid.trans (refines_of_lockstep hwf₁ hl₁ fun memory => ?_)
  exact ⟨_, _, (h.substituted hwf).lockstep (h.suited hwf hid hfresh) (h.faithful hwf hty hl₁) hwf₁
    hl₁ memory⟩

/-- A slot stays a slot. -/
theorem alloca {s : InstId} {i : Inst} (hi : g.inst? s = some i) (hs : i.kind.isAlloca = true) :
    ∃ k, g₂.inst? s = some k ∧ k.kind.isAlloca = true := by
  refine ⟨_, (h.out.inst? s).trans (inst?_mapOperands _ (h.inserted.inst?_old hi)), ?_⟩
  split
  · exact (Kind.isAlloca_mapOperands _ _).trans hs
  · exact hs

end Narrows

/-! ### The whole sweep -/

/-- What a sweep over `f` has come to: narrower loads in a typed function, in which the slots of `f`
are slots and which does what `f` does. -/
structure Narrower (f g : Func) : Prop extends f.Narrowing g where
  typed : g.WellTyped
  slots : ∀ s, f.confines s = true → ∃ i, g.inst? s = some i ∧ i.kind.isAlloca = true
  refines : ∀ act : Activation, act.linked = false → (∀ s, act.own s = true → f.confines s = true) →
    f.Refines act g

theorem narrower_start (hwf : f.WellFormed) (hty : f.WellTyped) : f.Narrower f where
  toNarrowing := narrowing_start hwf
  typed := hty
  slots := by
    intro s hs
    cases hi : f.inst? s with
    | none =>
      simp only [confines, hi, Option.any_none, Bool.and_false, Bool.false_and] at hs
      cases hs
    | some i => exact ⟨i, rfl, alloca_of_confines hs hi⟩
  refines := fun act _ _ => .refl act f

/-- What is a slot is neither cut down nor yet to be made. -/
theorem Narrower.own_eq_false (h : f.Narrower g) {own : InstId → Bool}
    (hown : ∀ s, own s = true → f.confines s = true)
    (hj : ∀ i, g.inst? j = some i → i.kind.isAlloca = false) : own j = false := by
  cases hs : own j with
  | false => rfl
  | true =>
    obtain ⟨i, hi, halloca⟩ := h.slots j (hown j hs)
    rw [hj i hi] at halloca
    cases halloca

theorem Narrower.step (hc : f.Consistent) (hnames : f.NamesMade) (h : f.Narrower g)
    (hid : id ∈ f.liveInsts) :
    ∃ g' c, narrowLoad f.useCount g id = .ok (g', c) ∧ f.Narrower g' := by
  rcases h.narrowLoad_cases hc hnames hid with hsame | ⟨_, _, _, _, _, _, _, g₂, hstep, hn⟩
  · exact ⟨g, false, hsame, h⟩
  · refine ⟨g₂, true, hstep, ?_, hn.wellTyped h.wellFormed h.typed, fun s hs => ?_,
      fun act hlinked hown => ?_⟩
    · exact h.toNarrowing.narrow hc hn
    · obtain ⟨i, hi, halloca⟩ := h.slots s hs
      exact hn.alloca hi halloca
    · refine (h.refines act hlinked hown).trans (hn.refines h.wellFormed h.typed
        (act.leaves_of_linked hlinked g) (h.own_eq_false hown fun i hi => ?_)
        (h.own_eq_false hown fun i hi => ?_))
      · rw [hn.trunc] at hi
        cases hi
        rfl
      · rw [g.inst?_fresh_eq_none] at hi
        cases hi

theorem narrowLoads_refines (hwf : f.WellFormed) (hty : f.WellTyped) (hnames : f.NamesMade) :
    ∃ g changed, f.narrowLoads = .ok (g, changed) ∧ g.WellFormed ∧ g.WellTyped ∧
      ∀ act : Activation, act.linked = false → (∀ s, act.own s = true → f.confines s = true) →
        f.Refines act g := by
  obtain ⟨g, c, hg, h⟩ : ∃ g c, f.narrowLoads = .ok (g, c) ∧ f.Narrower g :=
    sweepOver_spec (I := fun g _ => f.Narrower g)
      (fun id hid g _ h => h.step hwf.consistent hnames hid) (narrower_start hwf hty)
  exact ⟨g, c, hg, h.wellFormed, h.typed, h.refines⟩

/-! ### Among private slots -/

namespace Narrows

variable (h : g.Narrows id load ptr ty b before after g₁ g₂)

include h

/-- What is cut down and what is yet to be made are no slots. -/
theorem isSlot_eq_false : g.isSlot id = false ∧ g.isSlot g.fresh = false := by
  refine ⟨isSlot_inst h.trunc, ?_⟩
  rw [isSlot, g.inst?_fresh_eq_none]
  rfl

theorem orderly_mid (hg : g.Settled) (hty : g.WellTyped) : g₁.Orderly g.isSlot := by
  obtain ⟨_, target, _, rfl, _, hptr⟩ := h.types hg.wellFormed hty
  exact h.inserted.orderly hg.orderly (h.wellFormed_mid hg.wellFormed) ⟨hptr, rfl⟩
    h.isSlot_eq_false.2 fun _ _ => trivial

theorem suited_slots (hg : g.Settled) :
    g₁.Suited g.isSlot (fun x => decide (x ∈ [id, load])) (replaceResult id (.inst g.fresh)) :=
  h.suited hg.wellFormed h.isSlot_eq_false.1 h.isSlot_eq_false.2

theorem orderly (hg : g.Settled) (hty : g.WellTyped) : g₂.Orderly g.isSlot :=
  (h.substituted hg.wellFormed).orderly (h.suited_slots hg) (h.orderly_mid hg hty)

theorem regular (hg : g.Settled) : g₂.Regular g.isSlot :=
  (h.substituted hg.wellFormed).regular (h.suited_slots hg)
    (h.wellFormed_mid hg.wellFormed).consistent
    (h.inserted.regular hg.orderly hg.regular rfl trivial)

theorem leaves (hg : g.Settled) (act : Activation) : act.Leaves g₂ :=
  (h.substituted hg.wellFormed).leaves (h.inserted.leaves (hg.leaves act))

theorem settled (hg : g.Settled) (hty : g.WellTyped) : g₂.Settled :=
  settled_of (h.orderly hg hty) (h.regular hg) (h.leaves hg)

theorem matched_slots (hg : g.Settled) (hty : g.WellTyped) (act : Activation) (memory : Memory)
    (region : Word → Prop) : g.MatchedBy act memory region g₂ :=
  Refines.matched (h.refines hg.wellFormed hty (hg.leaves _) h.isSlot_eq_false.1
    h.isSlot_eq_false.2) (h.orderly hg hty) (h.regular hg) (h.leaves hg) memory region

theorem sameGraph (hwf : g.WellFormed) : g.SameGraph g₂ :=
  h.inserted.sameGraph.trans (h.substituted hwf).sameGraph

end Narrows

/-- What a sweep over `f` has come to where all slots are private. -/
structure NarrowerSlots (f g : Func) : Prop extends f.Narrowing g where
  typed : g.WellTyped
  slots : g.Settled
  graph : f.SameGraph g
  matched : ∀ act memory region, f.MatchedBy act memory region g

theorem NarrowerSlots.step (hc : f.Consistent) (hnames : f.NamesMade) (h : f.NarrowerSlots g)
    (hid : id ∈ f.liveInsts) :
    ∃ g' c, narrowLoad f.useCount g id = .ok (g', c) ∧ f.NarrowerSlots g' := by
  rcases h.narrowLoad_cases hc hnames hid with hsame | ⟨_, _, _, _, _, _, _, g₂, hstep, hn⟩
  · exact ⟨g, false, hsame, h⟩
  · exact ⟨g₂, true, hstep, h.toNarrowing.narrow hc hn,
      hn.wellTyped h.wellFormed h.typed, hn.settled h.slots h.typed,
      h.graph.trans (hn.sameGraph h.wellFormed), fun act memory region =>
        (h.matched act memory region).trans (hn.matched_slots h.slots h.typed act memory region)⟩

/-- Where all slots are private they stay so, and the function does what it did. -/
theorem narrowLoads_matched (hf : f.Settled) (hty : f.WellTyped) (hnames : f.NamesMade) :
    ∃ g changed, f.narrowLoads = .ok (g, changed) ∧ g.Settled ∧ f.SameGraph g ∧
      ∀ act memory region, f.MatchedBy act memory region g := by
  have hstart : f.NarrowerSlots f :=
    ⟨narrowing_start hf.wellFormed, hty, hf, .refl f, fun act memory region => .refl act memory region f⟩
  obtain ⟨g, c, hg, h⟩ : ∃ g c, f.narrowLoads = .ok (g, c) ∧ f.NarrowerSlots g :=
    sweepOver_spec (I := fun g _ => f.NarrowerSlots g)
      (fun id hid g _ h => h.step hf.wellFormed.consistent hnames hid) hstart
  exact ⟨g, c, hg, h.slots, h.graph, h.matched⟩

end Func

end BinaryLift
