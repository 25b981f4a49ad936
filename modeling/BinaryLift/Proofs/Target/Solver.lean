import BinaryLift.Proofs.Image.SplitReads
import BinaryLift.Proofs.Target.FreeRun
import BinaryLift.Proofs.Target.ValueSets
import Mathlib

/-!
# Soundness of the strict evaluation

The strict evaluation never counts on a result that it has not finished, so each set it finds, in
the cache or on the way, describes its operand in every state of a run without paths. Addresses of
loads are taken from the operands of the pointer's definition; there payloads and pointers agree
because the sets only hold payloads that fit the operand's type.
-/

namespace BinaryLift

namespace EvalM

/-- Started with a cache that satisfies `I`, a computation that comes to an end gives a result that
satisfies `P` and leaves such a cache. -/
def Yields {α : Type} (I : Table InstId ValueSet → Prop) (m : EvalM α) (P : α → Prop) : Prop :=
  ∀ c a c', I c → m c = .ok (a, c') → P a ∧ I c'

variable {α β : Type} {I : Table InstId ValueSet → Prop} {P : α → Prop} {Q : β → Prop}

theorem yields_pure {a : α} (h : P a) : Yields I (pure a) P := by
  intro c b c' hc hm
  cases hm
  exact ⟨h, hc⟩

theorem yields_throw {e : Fault} : Yields I (throw e : EvalM α) P := by
  intro c a c' hc hm
  cases hm

theorem yields_lift {x : Checked α} (h : ∀ a, x = .ok a → P a) :
    Yields I (liftM x : EvalM α) P := by
  intro c a c' hc hm
  cases x with
  | error e => cases hm
  | ok b =>
    cases hm
    exact ⟨h a rfl, hc⟩

theorem yields_bind {m : EvalM α} {k : α → EvalM β} (hm : Yields I m P)
    (hk : ∀ a, P a → Yields I (k a) Q) : Yields I (m >>= k) Q := by
  intro c b c' hc h
  have hrun : (m c >>= fun p => k p.1 p.2) = .ok (b, c') := h
  cases hfirst : m c with
  | error e =>
    rw [hfirst] at hrun
    cases hrun
  | ok p =>
    rw [hfirst] at hrun
    obtain ⟨hp, hi⟩ := hm c p.1 p.2 hc hfirst
    exact hk p.1 hp p.2 b c' hi hrun

theorem yields_get : Yields I (get : EvalM (Table InstId ValueSet)) I := by
  intro c a c' hc hm
  cases hm
  exact ⟨hc, hc⟩

theorem yields_modify {g : Table InstId ValueSet → Table InstId ValueSet}
    (h : ∀ c, I c → I (g c)) : Yields I (modify g : EvalM PUnit) fun _ => True := by
  intro c a c' hc hm
  cases hm
  exact ⟨trivial, h c hc⟩

end EvalM

namespace FreeRun

/-- The set holds every payload that the operand takes in a run, and only payloads of its type. -/
structure Describes (r : FreeRun) (v : Value) (k : ValueSet) : Prop where
  allows : ∀ s w, r.Reachable s → r.operand s v = some w → k.Allows w
  fits : ∀ vs w, k = .known vs → w ∈ vs → (r.func.wordTy v).Fits w

/-- The set holds every address that the pointer takes in a run. -/
def Locates (r : FreeRun) (p : Value) (k : ValueSet) : Prop :=
  ∀ s w, r.Reachable s → r.operand s p = some w → k.Allows w

/-- Every cached set describes its instruction. -/
def CacheSound (r : FreeRun) (c : Table InstId ValueSet) : Prop :=
  ∀ id k, c.get? id = some k → r.Describes (.inst id) k

theorem describes_unknown (r : FreeRun) (v : Value) : r.Describes v .unknown where
  allows := fun _ _ _ _ => trivial
  fits := fun _ _ h => by cases h

theorem describes_const (r : FreeRun) (c : Constant) : r.Describes (.const c) (.single c.bits) where
  allows := by
    intro s w _ h
    cases h
    exact List.mem_singleton.2 rfl
  fits := by
    intro vs w h hw
    cases h
    rw [List.mem_singleton.1 hw]
    exact c.masked

/-- A set describes an instruction if it holds what the instruction gives in each state. -/
theorem describes_inst {r : FreeRun} {id : InstId} {i : Inst} {k : ValueSet}
    (hi : r.func.inst? id = some i)
    (hgives : ∀ s w, r.Reachable s → r.Gives s i w → k.Allows w)
    (hfits : ∀ vs w, k = .known vs → w ∈ vs → (i.ty.getD .i64).Fits w) :
    r.Describes (.inst id) k where
  allows := by
    intro s w hs hw
    obtain ⟨s₀, j, hs₀, _, hj, hg⟩ := hs.given hw
    rw [hi] at hj
    cases hj
    exact hgives s₀ w hs₀ hg
  fits := by
    rw [Func.wordTy_inst hi]
    exact hfits

theorem Describes.mem {r : FreeRun} {v : Value} {vs : List Word} (h : r.Describes v (.known vs))
    {s : Assignment} {w : Word} (hs : r.Reachable s) (hw : r.operand s v = some w) : w ∈ vs :=
  h.allows s w hs hw

/-! ### One lemma for each way to make a set -/

theorem describes_map {r : FreeRun} {id : InstId} {i : Inst} {v : Value} {k : ValueSet}
    {g : Word → Option Word} (hi : r.func.inst? id = some i) (hk : r.Describes v k)
    (hgives : ∀ s w, r.Reachable s → r.Gives s i w → ∃ a, r.operand s v = some a ∧ g a = some w)
    (hfits : ∀ a w, g a = some w → (i.ty.getD .i64).Fits w) :
    r.Describes (.inst id) (k.map g) := by
  cases hres : k.map g with
  | unknown => exact describes_unknown r _
  | known vs =>
    obtain ⟨us, rfl, _, hmem⟩ := ValueSet.map_eq_known hres
    refine describes_inst hi ?_ ?_
    · intro s w hs hw
      obtain ⟨a, ha, hg⟩ := hgives s w hs hw
      exact (hmem w).2 ⟨a, hk.mem hs ha, hg⟩
    · intro ws w he hw
      cases he
      obtain ⟨a, _, hg⟩ := (hmem w).1 hw
      exact hfits a w hg

theorem describes_product {r : FreeRun} {id : InstId} {i : Inst} {x y : Value} {k l : ValueSet}
    {g : Word → Word → Option Word} (hi : r.func.inst? id = some i) (hk : r.Describes x k)
    (hl : r.Describes y l)
    (hgives : ∀ s w, r.Gives s i w →
      ∃ a b, r.operand s x = some a ∧ r.operand s y = some b ∧ g a b = some w)
    (hfits : ∀ a b w, g a b = some w → (i.ty.getD .i64).Fits w) :
    r.Describes (.inst id) (k.product l g) := by
  cases hres : k.product l g with
  | unknown => exact describes_unknown r _
  | known vs =>
    obtain ⟨us, ws, rfl, rfl, _, hmem⟩ := ValueSet.product_eq_known hres
    refine describes_inst hi ?_ ?_
    · intro s w hs hw
      obtain ⟨a, b, ha, hb, hg⟩ := hgives s w hw
      exact (hmem w).2 ⟨a, hk.mem hs ha, b, hl.mem hs hb, hg⟩
    · intro ts w he hw
      cases he
      obtain ⟨a, _, b, _, hg⟩ := (hmem w).1 hw
      exact hfits a b w hg

/-- The set describes a choice among operands of one type. -/
structure DescribesAny (r : FreeRun) (ty : Option Ty) (vs : List Value) (k : ValueSet) : Prop where
  allows : ∀ v ∈ vs, ∀ s w, r.Reachable s → r.operand s v = some w → k.Allows w
  fits : ∀ us w, k = .known us → w ∈ us → (ty.getD .i64).Fits w

theorem describesAny_unknown (r : FreeRun) (ty : Option Ty) (vs : List Value) :
    r.DescribesAny ty vs .unknown where
  allows := fun _ _ _ _ _ _ => trivial
  fits := fun _ _ h => by cases h

theorem describesAny_empty (r : FreeRun) (ty : Option Ty) : r.DescribesAny ty [] .empty where
  allows := by
    intro v hv
    cases hv
  fits := by
    intro us w h hw
    cases h
    cases hw

theorem DescribesAny.merge {r : FreeRun} {ty : Option Ty} {vs : List Value} {k l : ValueSet}
    {y : Value} (hk : r.DescribesAny ty vs k) (hl : r.Describes y l) (hy : r.func.typeOf y = ty) :
    r.DescribesAny ty (vs ++ [y]) (k.merge l) := by
  cases hres : k.merge l with
  | unknown => exact describesAny_unknown r ty _
  | known us =>
    obtain ⟨as, bs, rfl, rfl, hmem⟩ := ValueSet.merge_eq_known hres
    constructor
    · intro v hv s w hs hw
      rcases List.mem_append.1 hv with hv | hv
      · exact (hmem w).2 (.inl (hk.allows v hv s w hs hw))
      · rw [List.mem_singleton.1 hv] at hw
        exact (hmem w).2 (.inr (hl.mem hs hw))
    · intro ts w he hw
      cases he
      rcases (hmem w).1 hw with h | h
      · exact hk.fits as w rfl h
      · have hfit := hl.fits bs w rfl h
        rwa [Func.wordTy, hy] at hfit

theorem Describes.any {r : FreeRun} {ty : Option Ty} {x : Value} {k : ValueSet}
    (hk : r.Describes x k) (hx : r.func.typeOf x = ty) : r.DescribesAny ty [x] k where
  allows := by
    intro v hv
    rw [List.mem_singleton.1 hv]
    exact hk.allows
  fits := by
    rw [← hx]
    exact hk.fits

theorem DescribesAny.inst {r : FreeRun} {id : InstId} {i : Inst} {vs : List Value} {k : ValueSet}
    (hk : r.DescribesAny i.ty vs k) (hi : r.func.inst? id = some i)
    (hgives : ∀ s w, r.Reachable s → r.Gives s i w → ∃ v ∈ vs, r.operand s v = some w) :
    r.Describes (.inst id) k := by
  refine describes_inst hi ?_ hk.fits
  intro s w hs hw
  obtain ⟨v, hv, hval⟩ := hgives s w hs hw
  exact hk.allows v hv s w hs hval

end FreeRun

/-! ### The evaluation -/

open EvalM FreeRun

namespace EvalQuery

/-- The strict query of a run. -/
abbrev strict (r : FreeRun) : EvalQuery := ⟨r.func, r.memory, .strict⟩

/-- An evaluation of operands that only gives sets that describe them. -/
def SoundEval (r : FreeRun) (eval : Value → EvalM ValueSet) : Prop :=
  ∀ v, Yields r.CacheSound (eval v) (r.Describes v)

theorem mergeAll_yields {r : FreeRun} {eval : Value → EvalM ValueSet} (heval : SoundEval r eval)
    {ty : Option Ty} (done rest : List Value) (acc : ValueSet)
    (hty : ∀ v ∈ rest, r.func.typeOf v = ty) (hacc : r.DescribesAny ty done acc) :
    Yields r.CacheSound (mergeAll eval acc rest) (r.DescribesAny ty (done ++ rest)) := by
  induction rest generalizing done acc with
  | nil =>
    rw [List.append_nil]
    exact yields_pure hacc
  | cons v rest ih =>
    apply yields_bind (heval v)
    intro k hk
    have hv : r.func.typeOf v = ty := hty v (List.mem_cons_self ..)
    have hmerged := hacc.merge hk hv
    have hstep := ih (done ++ [v]) (acc.merge k) (fun u hu => hty u (List.mem_cons_of_mem _ hu)) hmerged
    rw [List.append_assoc, List.singleton_append] at hstep
    dsimp only
    split
    · rename_i hunknown
      apply yields_pure
      cases hres : acc.merge k with
      | unknown => exact describesAny_unknown r ty _
      | known us =>
        rw [hres] at hunknown
        cases hunknown
    · exact hstep

/-- A pointer made from an integer holds the integer's payload. -/
theorem locates_intToPtr {r : FreeRun} {id : InstId} {i : Inst} {v : Value} {k : ValueSet}
    (hagrees : r.func.Agrees) (hlive : r.func.isLive id) (hi : r.func.inst? id = some i)
    (hkind : i.kind = .cast .inttoptr v) (hk : r.Describes v k) : r.Locates (.inst id) k := by
  intro s w hs hw
  obtain ⟨s₀, j, hs₀, _, hj, hg⟩ := hs.given hw
  rw [hi] at hj
  cases hj
  have hty : i.ty = some .ptr := by
    have h := hagrees.kind hlive hi
    rw [hkind] at h
    exact h
  simp only [FreeRun.Gives, hkind, hty, Option.getD_some] at hg
  obtain ⟨a, ha, rfl⟩ := hg
  cases k with
  | unknown => trivial
  | known vs =>
    have hmem : a ∈ vs := hk.mem hs₀ ha
    have hfit : (r.func.wordTy v).Fits a := hk.fits vs a rfl hmem
    have hmask : a &&& Ty.ptr.mask = a := Ty.fits_of_bits_eq rfl a
    have hfold : CastOp.inttoptr.fold a (r.func.wordTy v) .ptr = a := by
      simp only [CastOp.fold]
      rw [hfit, hmask]
    rw [hfold]
    exact hmem

theorem locates_memory {r : FreeRun} {id : InstId} {i : Inst} {base offset : Value} {k : ValueSet}
    (hi : r.func.inst? id = some i) (hkind : i.kind = .ptrAdd base offset)
    (hbase : (strict r).isMemory base = true) (hk : r.Describes offset k) :
    r.Locates (.inst id) k := by
  intro s w hs hw
  obtain ⟨s₀, j, hs₀, _, hj, hg⟩ := hs.given hw
  rw [hi] at hj
  cases hj
  simp only [FreeRun.Gives, hkind] at hg
  obtain ⟨a, b, ha, hb, rfl⟩ := hg
  cases base with
  | const c => cases hbase
  | inst id => cases hbase
  | arg n =>
    have hn : r.memory.memoryArg = some n := by simpa [isMemory] using hbase
    have hzero : a = 0 := by
      rw [← r.memoryZero n hn]
      exact (Option.some.inj ha).symm
    have hsum : (0 : Word) + b = b := BitVec.zero_add b
    rw [hzero, hsum]
    exact hk.allows s₀ b hs₀ hb

theorem locates_ptrAdd {r : FreeRun} {id : InstId} {i : Inst} {base offset : Value}
    {k l : ValueSet} (hi : r.func.inst? id = some i) (hkind : i.kind = .ptrAdd base offset)
    (hk : r.Locates base k) (hl : r.Describes offset l) :
    r.Locates (.inst id) (k.product l fun x y => some (x + y)) := by
  intro s w hs hw
  obtain ⟨s₀, j, hs₀, _, hj, hg⟩ := hs.given hw
  rw [hi] at hj
  cases hj
  simp only [FreeRun.Gives, hkind] at hg
  obtain ⟨a, b, ha, hb, rfl⟩ := hg
  cases hres : k.product l fun x y => some (x + y) with
  | unknown => trivial
  | known vs =>
    obtain ⟨us, ws, rfl, rfl, _, hmem⟩ := ValueSet.product_eq_known hres
    exact (hmem _).2 ⟨a, hk s₀ a hs₀ ha, b, hl.mem hs₀ hb, rfl⟩

theorem locates_unknown (r : FreeRun) (p : Value) : r.Locates p .unknown :=
  fun _ _ _ _ => trivial

theorem address_yields {r : FreeRun} (hagrees : r.func.Agrees) {eval : Value → EvalM ValueSet}
    (heval : SoundEval r eval) (n : Nat) (p : Value) :
    Yields r.CacheSound ((strict r).address eval n p) (r.Locates p) := by
  induction n generalizing p with
  | zero => exact yields_throw
  | succ n ih =>
    cases p with
    | const c => exact yields_pure (locates_unknown r _)
    | arg m => exact yields_pure (locates_unknown r _)
    | inst id =>
      simp only [address]
      split
      · exact yields_pure (locates_unknown r _)
      · rename_i hdead
        have hlive : r.func.isLive id := by simpa using hdead
        apply yields_bind (yields_lift (fun k hk => Func.kind_eq_ok hk))
        rintro k ⟨i, hi, hkind⟩
        split
        · rename_i v
          intro c a c' hc hm
          obtain ⟨hdesc, hc'⟩ := heval v c a c' hc hm
          exact ⟨locates_intToPtr hagrees hlive hi hkind hdesc, hc'⟩
        · rename_i base offset
          split
          · rename_i hmem
            intro c a c' hc hm
            obtain ⟨hdesc, hc'⟩ := heval offset c a c' hc hm
            exact ⟨locates_memory hi hkind hmem hdesc, hc'⟩
          · apply yields_bind (ih base)
            intro b hb
            apply yields_bind (heval offset)
            intro o ho
            exact yields_pure (locates_ptrAdd hi hkind hb ho)
        · exact yields_pure (locates_unknown r _)

/-! ### Instructions -/

theorem fits_of_read {img : Image} {a w : Word} {ty : Ty} (hty : ty ≠ .i1)
    (h : img.read a ty.bytes = some w) : ty.Fits w := by
  unfold Image.read at h
  split at h
  · cases h
  · obtain ⟨bs, hbs, rfl⟩ := Option.map_eq_some_iff.1 h
    have hlen := Image.length_of_bytes? hbs
    have hlt := littleEndian_lt bs
    have hbits : 8 * bs.length = ty.bits := by
      rw [hlen]
      cases ty <;> first | rfl | exact absurd rfl hty
    rw [hbits] at hlt
    apply Ty.fits_of_lt
    rw [BitVec.toNat_ofNat]
    exact Nat.lt_of_le_of_lt (Nat.mod_le _ _) hlt

theorem fits_of_readReadonly {img : Image} {a w : Word} {ty : Ty} (hty : ty ≠ .i1)
    (h : img.readReadonly a ty.bytes = some w) : ty.Fits w := by
  unfold Image.readReadonly at h
  obtain ⟨last, _, hrest⟩ := Option.bind_eq_some_iff.1 h
  split at hrest
  · exact fits_of_read hty hrest
  · cases hrest

theorem load_yields {r : FreeRun} (hagrees : r.func.Agrees) {eval : Value → EvalM ValueSet}
    (heval : SoundEval r eval) {id : InstId} {p : Value} {ty : Option Ty}
    (hi : r.func.inst? id = some ⟨.load p, ty⟩) (hbit : ty ≠ some .i1) :
    Yields r.CacheSound ((strict r).load eval p (ty.getD .i64)) (r.Describes (.inst id)) := by
  have hne : ty.getD .i64 ≠ .i1 := by
    cases ty with
    | none => decide
    | some t => exact fun h => hbit (congrArg some h)
  unfold load
  cases himg : r.memory.image with
  | none => exact yields_pure (describes_unknown r _)
  | some img =>
    apply yields_bind (address_yields hagrees heval _ p)
    intro k hk
    apply yields_pure
    cases hres : k.map ((strict r).readAt img (ty.getD .i64).bytes) with
    | unknown => exact describes_unknown r _
    | known vs =>
      obtain ⟨us, rfl, hall, hmem⟩ := ValueSet.map_eq_known hres
      have hread : ∀ a, (strict r).readAt img (ty.getD .i64).bytes a =
          img.readReadonly a (ty.getD .i64).bytes := by
        intro a
        simp only [readAt, true_or, if_true]
      refine describes_inst hi ?_ ?_
      · intro s w hs hw
        obtain ⟨a, ha, hreads⟩ := hw
        have hau : a ∈ us := hk s a hs ha
        obtain ⟨x, hx⟩ := Option.isSome_iff_exists.1 (hall a hau)
        have hwx : w = x := hreads img x himg (by rw [← hread a]; exact hx)
        exact (hmem w).2 ⟨a, hau, by rw [hwx]; exact hx⟩
      · intro ws w he hw
        cases he
        obtain ⟨a, _, hx⟩ := (hmem w).1 hw
        rw [hread a] at hx
        exact fits_of_readReadonly hne hx

theorem fits_of_fold {op : BinOp} {a b w : Word} {ty : Ty} (h : op.fold a b ty = some w) :
    ty.Fits w := by
  obtain ⟨x, _, rfl⟩ := Option.map_eq_some_iff.1 h
  exact Ty.fits_and_mask ty x

theorem select_yields {r : FreeRun} {eval : Value → EvalM ValueSet} (heval : SoundEval r eval)
    {id : InstId} {c x y : Value} {ty : Option Ty}
    (hi : r.func.inst? id = some ⟨.select c x y, ty⟩) (hx : r.func.typeOf x = ty)
    (hy : r.func.typeOf y = ty) :
    Yields r.CacheSound ((strict r).inst eval ⟨.select c x y, ty⟩) (r.Describes (.inst id)) := by
  simp only [inst]
  apply yields_bind (heval c)
  intro k hk
  split
  · rename_i hone
    subst hone
    intro cache a cache' hc hm
    obtain ⟨ha, hc'⟩ := heval x cache a cache' hc hm
    refine ⟨(ha.any hx).inst hi ?_, hc'⟩
    intro s w hs hw
    obtain ⟨b, u, v, hb, hu, _, rfl⟩ := hw
    have hb1 : b = 1 := List.mem_singleton.1 (hk.mem hs hb)
    refine ⟨x, List.mem_singleton.2 rfl, ?_⟩
    rw [hu, hb1]
    rfl
  · split
    · rename_i hzero
      subst hzero
      intro cache a cache' hc hm
      obtain ⟨ha, hc'⟩ := heval y cache a cache' hc hm
      refine ⟨(ha.any hy).inst hi ?_, hc'⟩
      intro s w hs hw
      obtain ⟨b, u, v, hb, _, hv, rfl⟩ := hw
      have hb0 : b = 0 := List.mem_singleton.1 (hk.mem hs hb)
      refine ⟨y, List.mem_singleton.2 rfl, ?_⟩
      rw [hv, hb0]
      rfl
    · apply yields_bind (heval x)
      intro t ht
      apply yields_bind (heval y)
      intro e he
      apply yields_pure
      refine ((ht.any hx).merge he hy).inst hi ?_
      intro s w hs hw
      obtain ⟨b, u, v, _, hu, hv, rfl⟩ := hw
      by_cases hb : b ≠ 0
      · exact ⟨x, by simp, by rw [hu, if_pos hb]⟩
      · exact ⟨y, by simp, by rw [hv, if_neg hb]⟩

theorem wordTy_yields {r : FreeRun} (v : Value) :
    Yields r.CacheSound ((strict r).ty v) fun t => t = r.func.wordTy v := by
  apply yields_bind (yields_lift fun t ht => Func.valueTy_eq_ok ht)
  intro t ht
  apply yields_pure
  rw [ht]
  rfl

theorem inst_yields {r : FreeRun} (hagrees : r.func.Agrees) (hbits : r.func.NoBitLoad)
    {eval : Value → EvalM ValueSet} (heval : SoundEval r eval) {id : InstId} {i : Inst}
    (hlive : r.func.isLive id) (hi : r.func.inst? id = some i) :
    Yields r.CacheSound ((strict r).inst eval i) (r.Describes (.inst id)) := by
  have hag := hagrees.kind hlive hi
  obtain ⟨kind, ty⟩ := i
  cases kind with
  | alloca n => exact yields_pure (describes_unknown r _)
  | store p v => exact yields_pure (describes_unknown r _)
  | call g args => exact yields_pure (describes_unknown r _)
  | load p => exact load_yields hagrees heval hi (hbits.ty_ne hlive hi)
  | select c x y => exact select_yields heval hi hag.1 hag.2
  | binary op x y =>
    apply yields_bind (heval x)
    intro k hk
    apply yields_bind (heval y)
    intro l hl
    apply yields_pure
    exact describes_product hi hk hl (fun s w hw => hw) (fun a b w hw => fits_of_fold hw)
  | icmp p x y =>
    apply yields_bind (wordTy_yields x)
    rintro t rfl
    apply yields_bind (heval x)
    intro k hk
    apply yields_bind (heval y)
    intro l hl
    apply yields_pure
    refine describes_product hi hk hl ?_ ?_
    · rintro s w ⟨a, b, ha, hb, rfl⟩
      exact ⟨a, b, ha, hb, rfl⟩
    · intro a b w hw
      cases hw
      exact Ty.fits_bool _ _
  | cast op x =>
    apply yields_bind (wordTy_yields x)
    rintro t rfl
    apply yields_bind (heval x)
    intro k hk
    apply yields_pure
    refine describes_map hi hk ?_ ?_
    · rintro s w _ ⟨a, ha, rfl⟩
      exact ⟨a, ha, rfl⟩
    · intro a w hw
      cases hw
      exact Ty.fits_and_mask _ _
  | ptrAdd x y =>
    apply yields_bind (heval x)
    intro k hk
    apply yields_bind (heval y)
    intro l hl
    apply yields_pure
    refine describes_product hi hk hl ?_ ?_
    · rintro s w ⟨a, b, ha, hb, rfl⟩
      exact ⟨a, b, ha, hb, rfl⟩
    · intro a b w _
      have hty : ty = some .ptr := hag
      rw [hty]
      exact Ty.fits_of_bits_eq rfl w
  | phi inc =>
    have htypes : ∀ v ∈ inc.map (·.2), r.func.typeOf v = ty := by
      intro v hv
      obtain ⟨e, he, rfl⟩ := List.mem_map.1 hv
      exact hag e he
    have hmerge := mergeAll_yields heval [] (inc.map (·.2)) .empty htypes
      (describesAny_empty r ty)
    intro cache a cache' hc hm
    obtain ⟨ha, hc'⟩ := hmerge cache a cache' hc hm
    refine ⟨ha.inst hi ?_, hc'⟩
    rintro s w _ ⟨e, he, hw⟩
    exact ⟨e.2, List.mem_map_of_mem he, hw⟩

/-- What the strict evaluation finds describes the operand: by induction on the depth that is left. -/
theorem value_yields {r : FreeRun} (hagrees : r.func.Agrees) (hbits : r.func.NoBitLoad) (n : Nat)
    (path : List InstId) : SoundEval r ((strict r).value n path) := by
  induction n generalizing path with
  | zero =>
    intro v
    cases v with
    | const c => exact yields_pure (describes_const r c)
    | arg m => exact yields_pure (describes_unknown r _)
    | inst id => exact yields_pure (describes_unknown r _)
  | succ n ih =>
    intro v
    cases v with
    | const c => exact yields_pure (describes_const r c)
    | arg m => exact yields_pure (describes_unknown r _)
    | inst id =>
      simp only [value]
      split
      · exact yields_pure (describes_unknown r _)
      · rename_i hdead
        have hlive : r.func.isLive id := by simpa using hdead
        apply yields_bind yields_get
        intro cache hcache
        split
        · rename_i found hfound
          exact yields_pure (hcache id found hfound)
        · split
          · exact yields_pure (describes_unknown r _)
          · apply yields_bind (yields_lift fun i hi => Func.inst_eq_ok hi)
            intro i hi
            apply yields_bind (inst_yields hagrees hbits (ih (id :: path)) hlive hi)
            intro result hresult
            apply yields_bind (yields_modify ?_)
            · intro _ _
              exact yields_pure hresult
            · intro c hc j k hj
              rw [Table.get?_insert] at hj
              split at hj
              · rename_i heq
                cases hj
                rw [← heq]
                exact hresult
              · exact hc j k hj

end EvalQuery

/-- A solved operand has the solver's value whenever it is defined, on every path. -/
theorem solve_sound (r : FreeRun) (hagrees : r.func.Agrees) (hbits : r.func.NoBitLoad) (v : Value)
    (a : Word) (hsolve : solve r.memory r.func v = .ok (some a)) (s : Assignment)
    (hs : r.Reachable s) (w : Word) (hw : r.operand s v = some w) : w = a := by
  have hyields := EvalQuery.value_yields hagrees hbits (EvalQuery.maxDepth + 1) [] v
  simp only [solve, EvalQuery.run] at hsolve
  cases hrun : (EvalQuery.strict r).value (EvalQuery.maxDepth + 1) [] v [] with
  | error e =>
    simp only [StateT.run, hrun] at hsolve
    cases hsolve
  | ok p =>
    simp only [StateT.run, hrun] at hsolve
    have hempty : r.CacheSound [] := by
      intro id k h
      cases h
    obtain ⟨hdesc, _⟩ := hyields [] p.1 p.2 hempty hrun
    have hsingle : p.1.single? = some a := Except.ok.inj hsolve
    exact ValueSet.eq_of_single?_eq hsingle (hdesc.allows s w hs hw)

/-- A read-only word at `0x1000`, loaded through either arm of a select whose condition nobody
knows. -/
def tableJump : FreeRun where
  func :=
    { name := "dispatch"
      params := [⟨"flag", .i1⟩, ⟨"memory", .ptr⟩]
      arena := #[
        ⟨⟨.ptrAdd (.arg 1) (.int 0x1000 .i64), some .ptr⟩, some ⟨0⟩⟩,
        ⟨⟨.load (.inst ⟨0⟩), some .i64⟩, some ⟨0⟩⟩,
        ⟨⟨.select (.arg 0) (.inst ⟨1⟩) (.int 0x2040 .i64), some .i64⟩, some ⟨0⟩⟩]
      blocks := #[some { insts := [⟨0⟩, ⟨1⟩, ⟨2⟩], term := .indirect (.inst ⟨2⟩) }]
      entry := some ⟨0⟩ }
  memory := .readonlyImage
    { sections := [{
        name := ".rdata"
        address := 0x1000
        size := 8
        flags := .readable
        data := #[0x40, 0x20] }] } (some 1)
  args := fun n => if n = 0 then 1 else 0
  memoryZero := by
    intro n h
    cases h
    rfl

theorem tableJump_agrees : tableJump.func.Agrees := by
  intro s hs _
  simp only [tableJump, List.mem_cons, List.not_mem_nil, or_false] at hs
  rcases hs with rfl | rfl | rfl
  · rfl
  · trivial
  · exact ⟨rfl, rfl⟩

theorem tableJump_noBitLoad : tableJump.func.NoBitLoad := by
  intro s hs _ p h
  simp only [tableJump, List.mem_cons, List.not_mem_nil, or_false] at hs
  rcases hs with rfl | rfl | rfl <;> cases h

theorem tableJump_reachable :
    ∃ s, tableJump.Reachable s ∧ tableJump.operand s (.inst ⟨2⟩) = some 0x2040 := by
  have h0 : tableJump.Reachable _ :=
    FreeRun.Reachable.start.step (w := 0x1000) (j := ⟨0⟩) rfl rfl ⟨0, 0x1000, rfl, rfl, rfl⟩
  have hread : tableJump.Reads 0x1000 8 0x2040 := by
    intro img x himg hx
    cases himg
    have hval : (some 0x2040 : Option Word) = some x := by
      rw [← hx]
      cbv
    exact Option.some.inj hval
  have h1 : tableJump.Reachable _ :=
    h0.step (w := 0x2040) (j := ⟨1⟩) rfl rfl ⟨0x1000, rfl, hread⟩
  have h2 : tableJump.Reachable _ :=
    h1.step (w := 0x2040) (j := ⟨2⟩) rfl rfl ⟨1, 0x2040, 0x2040, rfl, rfl, rfl, rfl⟩
  exact ⟨_, h2, rfl⟩

theorem tableJump_solved :
    (tableJump.func.Agrees ∧ tableJump.func.NoBitLoad ∧
      solve tableJump.memory tableJump.func (.inst ⟨2⟩) = .ok (some 0x2040)) ∧
    ∃ s w, tableJump.Reachable s ∧ tableJump.operand s (.inst ⟨2⟩) = some w ∧ w = 0x2040 := by
  have hsolve : solve tableJump.memory tableJump.func (.inst ⟨2⟩) = .ok (some 0x2040) := by cbv
  refine ⟨⟨tableJump_agrees, tableJump_noBitLoad, hsolve⟩, ?_⟩
  obtain ⟨s, hs, hw⟩ := tableJump_reachable
  refine ⟨s, 0x2040, hs, hw, ?_⟩
  exact solve_sound tableJump tableJump_agrees tableJump_noBitLoad (.inst ⟨2⟩) 0x2040 hsolve s hs
    0x2040 hw

end BinaryLift
