import BinaryLift.Proofs.Run.PrivateSlots
import BinaryLift.Proofs.Transform.Memory

/-!
# Absolute addresses

What `promote-pseudo-memory` does to executions. Where the memory parameter is zero, an offset from it is
an address. Then the conversion of the offset gives what the sum gave, and the function does what it did.
-/

namespace BinaryLift.Func

variable {f g : Func} {act : Activation} {n : Nat} {id : InstId} {offset : Value} {o : Option Ty}
  {b : BlockId}

theorem fold_inttoptr_word (w : Word) :
    CastOp.fold .inttoptr w .i64 .ptr &&& Ty.ptr.mask = w &&& Ty.ptr.mask := by
  have hmask : Ty.i64.mask = BitVec.allOnes 64 := by decide
  simp only [CastOp.fold, hmask, BitVec.and_allOnes, BitVec.and_assoc, BitVec.and_self]

namespace Recast

variable (h : f.Recast g id ⟨.ptrAdd (.arg n) offset, o⟩ (.cast .inttoptr offset))

include h

/-- What the sum with zero gave, the conversion gives. -/
theorem exec_inttoptr (ho : o = some .ptr) (hoffset : f.typeOf offset = some .i64)
    (hzero : act.args n = 0) {m m₁ : Machine} (hexec : m.exec act f id = some m₁) :
    m.exec act g id = some m₁ := by
  obtain ⟨i, ws, a, hi, hws, ha, rfl⟩ := Machine.exec_eq_some.1 hexec
  rw [h.old] at hi
  cases hi
  have htarget : f.wordTy (.inst id) = .ptr := by
    rw [wordTy, typeOf_inst h.old, ho]
    rfl
  have hsource : f.wordTy offset = .i64 := by
    rw [wordTy, hoffset]
    rfl
  -- the sum has two operands
  rcases ws with _ | ⟨x, _ | ⟨w, _ | ⟨_, _⟩⟩⟩
  · cases ha
  · cases ha
  · cases ha
    obtain ⟨hx, hrest⟩ := Machine.mapM_cons_eq_some.1 hws
    have hsum : x + w = w := by
      rw [Machine.eval, hzero, Option.some.injEq] at hx
      rw [← hx]
      exact (congrArg (· + w) BitVec.zero_and).trans (BitVec.zero_add w)
    have hsame : ∀ v, g.wordTy v = f.wordTy v := fun v => by rw [wordTy, wordTy, h.typeOf]
    have hword : [offset].mapM (m.eval act g) = some [w] := by
      rw [Machine.eval_of_typeOf h.typeOf]
      exact hrest
    refine Machine.exec_eq_some.2 ⟨_, [w], _, h.new, hword, rfl, ?_⟩
    simp only [Machine.perform, Machine.define, hsame, htarget, hsource, fold_inttoptr_word, hsum]
  · cases ha

theorem types_of_settled (hf : f.Settled) (hb : f.Reachable b) (hid : id ∈ f.instsOf b) :
    o = some .ptr ∧ f.typeOf offset = some .i64 := by
  obtain ⟨_, _, hptr⟩ := hf.orderly.typed b id _ hb hid h.old rfl
  exact ⟨hptr, hf.regular.words b id _ hb hid h.old⟩

theorem orderly_inttoptr (hf : f.Settled) : g.Orderly f.isSlot := by
  refine h.orderly hf.orderly (fun b hb hid => ?_) fun b s hb hid hs => ?_
  · obtain ⟨hptr, hoffset⟩ := h.types_of_settled hf hb hid
    simp only [hptr, Kind.Typed, hoffset]
    decide
  · have hspares : .inst s ∉ (Kind.ptrAdd (.arg n) offset).operands :=
      hf.orderly.spares s hs b id _ hb hid h.old rfl
    exact fun hmem => hspares (List.mem_cons_of_mem _ hmem)

theorem regular_inttoptr (hf : f.Settled) : g.Regular f.isSlot :=
  h.regular hf.regular fun _ _ _ => trivial

theorem settled_inttoptr (hf : f.Settled) : g.Settled :=
  settled_of (h.orderly_inttoptr hf) (h.regular_inttoptr hf) fun act => h.leaves (hf.leaves act)

theorem matched_inttoptr (hf : f.Settled) (hzero : act.args n = 0) (memory : Memory)
    (region : Word → Prop) : f.MatchedBy act memory region g := by
  have hrefines : f.Refines (act.withSlots f) g := by
    refine refines_of_lockstep hf.wellFormed (hf.leaves _) fun memory => ⟨_, _,
      (h.abreast (hf.leaves _) memory fun b pre post m m₁ _ hb hsplit hexec => ?_).lockstep⟩
    obtain ⟨hptr, hoffset⟩ := h.types_of_settled hf hb (mem_of_split hsplit)
    have hargs : (act.withSlots f).args n = 0 := hzero
    exact h.exec_inttoptr hptr hoffset hargs hexec
  exact hrefines.matched (h.orderly_inttoptr hf) (h.regular_inttoptr hf)
    (fun act => h.leaves (hf.leaves act)) memory region

end Recast

/-- The pass keeps all slots private, and where the memory parameter is zero the function does what it
did. -/
theorem flattenMemory_matched (hf : f.Settled) (n : Nat) :
    ∃ g changed, f.flattenMemory n = .ok (g, changed) ∧ g.Settled ∧ f.SameGraph g ∧
      ∀ (act : Activation) memory region, act.args n = 0 → f.MatchedBy act memory region g := by
  obtain ⟨g, c, hg, _, h⟩ := flattenMemory_spec (I := fun g => g.Settled ∧ f.SameGraph g ∧
    ∀ (act : Activation) memory region, act.args n = 0 → f.MatchedBy act memory region g)
    hf.wellFormed n ⟨hf, .refl f, fun act memory region _ => .refl act memory region f⟩
    fun g id offset o ⟨hsettled, hgraph, hmatched⟩ hrecast =>
      ⟨hrecast.settled_inttoptr hsettled, hgraph.trans hrecast.sameGraph,
        fun act memory region hzero => (hmatched act memory region hzero).trans
          (hrecast.matched_inttoptr hsettled hzero memory region)⟩
  exact ⟨g, c, hg, h⟩

end BinaryLift.Func
