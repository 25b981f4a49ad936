import BinaryLift.Proofs.Target.Recomputation
import BinaryLift.Proofs.Target.Solver
import BinaryLift.Transform.Memory

/-!
# Loads from constant addresses

Two recursions know the address of a load: one looks for constants only, the other works on sets of
values. Where the first finds an address, the second finds the set of just that address, so the word
that is folded into the program is the word the strict evaluation gives. Only a load of a single bit
is cut to its type in one place and not in the other.
-/

namespace BinaryLift

open EvalM

namespace ValueSet

theorem map_single {x w : Word} {g : Word → Option Word} (h : g x = some w) :
    (single x).map g = single w := by
  show empty.addResult (g x) = single w
  rw [h]
  rfl

end ValueSet

namespace EvalQuery

variable {q : EvalQuery} {I : Table InstId ValueSet → Prop} {eval : Value → EvalM ValueSet}
  {memory n : Nat} {p : Value} {a : Word}

theorem isMemory_iff (h : q.memory.memoryArg = some memory) :
    q.isMemory p = true ↔ p = .arg memory := by
  cases p with
  | const c => simp [isMemory]
  | inst id => simp [isMemory]
  | arg k =>
    simp only [isMemory, h, beq_iff_eq, Option.some.injEq, Value.arg.injEq]
    exact eq_comm

/-- A constant address is the only one that the pointer may hold: both recursions follow the same chain
of offsets. -/
theorem address_of_constantAddressIn (hmemory : q.memory.memoryArg = some memory)
    (heval : ∀ c : Constant, Returns I (eval (.const c)) (.single c.bits))
    (h : q.func.constantAddressIn memory n p = .ok (some a)) :
    Returns I (q.address eval n p) (.single a) := by
  induction n generalizing p a with
  | zero => cases h
  | succ n ih =>
    cases p with
    | const c => cases h
    | arg k => cases h
    | inst id =>
      cases hlive : q.func.isLive id with
      | false =>
        simp only [Func.constantAddressIn, hlive] at h
        cases h
      | true =>
        obtain ⟨⟨kind, ty⟩, hi⟩ := Func.exists_inst?_of_lt (Func.index_lt_of_isLive hlive)
        simp only [Func.constantAddressIn, hlive, Func.kind_of_inst? hi, bind, Except.bind] at h
        simp only [address, hlive]
        refine returns_bind (returns_lift (Func.kind_of_inst? hi)) ?_
        split at h
        · cases h
        split at h
        · -- a converted constant
          cases h
          exact heval _
        · rename_i base c
          dsimp only
          split at h
          · -- a constant offset from the memory parameter
            rename_i hbase
            cases h
            rw [if_pos ((isMemory_iff hmemory).2 hbase)]
            exact heval c
          · -- a constant offset from such a pointer
            rename_i hbase
            rw [if_neg (mt (isMemory_iff hmemory).1 hbase)]
            cases hrest : q.func.constantAddressIn memory n base with
            | error e =>
              rw [hrest] at h
              cases h
            | ok found =>
              rw [hrest] at h
              obtain ⟨b, rfl, rfl⟩ := Option.map_eq_some_iff.1 (Except.ok.inj h)
              exact returns_bind (ih hrest) (returns_bind (heval c) returns_pure)
        · cases h

/-- What the strict evaluation reads at a constant address. -/
theorem run_load_of_constantAddress {f : Func} {img : Image} {id : InstId} {ty : Ty} {w : Word}
    (hlive : f.isLive id = true) (hi : f.inst? id = some ⟨.load p, some ty⟩)
    (haddress : f.constantAddress memory p = .ok (some a))
    (hread : img.readReadonly a ty.bytes = some w) :
    run ⟨f, .readonlyImage img (some memory), .strict⟩ (.inst id) = .ok (.single w) := by
  let q : EvalQuery := ⟨f, .readonlyImage img (some memory), .strict⟩
  have heval : ∀ c : Constant, Returns (fun _ => True) (q.value maxDepth [id] (.const c))
      (.single c.bits) := fun _ => returns_pure
  have hstrict : q.readAt img ty.bytes a = some w := by
    rw [readAt, if_pos (.inl rfl)]
    exact hread
  have hload : Returns (fun _ => True) (q.inst (q.value maxDepth [id]) ⟨.load p, some ty⟩)
      (.single w) := by
    rw [← ValueSet.map_single hstrict]
    exact returns_bind (address_of_constantAddressIn (q := q) rfl heval haddress) returns_pure
  obtain ⟨c, hrun, _⟩ := hload [] trivial
  have hvalue : q.value (maxDepth + 1) [] (.inst id) [] = .ok (.single w, c.insert id (.single w)) := by
    rw [value_of_live hlive hi]
    simp only [Table.get?, List.not_mem_nil, if_false, hrun]
    rfl
  simp only [run, StateT.run, q] at hvalue ⊢
  rw [hvalue]
  rfl

end EvalQuery

/-- A word that is read for a load fits its type, unless it is read for a single bit and is neither of
its values. -/
theorem fits_of_readReadonly_iff {img : Image} {a w : Word} {ty : Ty}
    (h : img.readReadonly a ty.bytes = some w) : ty.Fits w ↔ (ty = .i1 → w.toNat < 2) := by
  refine ⟨fun hfits hty => ?_, fun hbit => ?_⟩
  · subst hty
    exact Ty.toNat_lt_of_fits hfits
  · by_cases hty : ty = .i1
    · subst hty
      exact Ty.fits_of_lt (hbit rfl)
    · exact EvalQuery.fits_of_readReadonly hty h

namespace Func

variable {f : Func} {img : Image} {memory : Nat} {policy : MemoryPolicy} {id : InstId} {v : Value}

/-- What makes a load constant: its address is known and the policy lets its bytes be read. -/
theorem constantLoad_eq_some (h : f.constantLoad img memory policy id = .ok (some v)) :
    ∃ p ty a w, f.inst? id = some ⟨.load p, some ty⟩ ∧ ty.isPtr = false ∧
      f.constantAddress memory p = .ok (some a) ∧ policy.read img a ty.bytes = some w ∧
      v = .int w ty := by
  obtain ⟨⟨kind, ity⟩, hi, h⟩ := bind_eq_ok.1 h
  split at h
  · rename_i p ty hkind hty
    split at h
    · cases h
    · rename_i hptr
      obtain ⟨address, haddress, h⟩ := bind_eq_ok.1 h
      obtain ⟨w, hw, rfl⟩ := Option.map_eq_some_iff.1 (Except.ok.inj h)
      obtain ⟨a, rfl, hread⟩ := Option.bind_eq_some_iff.1 hw
      cases hkind
      cases hty
      exact ⟨p, ty, a, w, inst_eq_ok hi, by simpa using hptr, haddress, hread, rfl⟩
  · cases h

/-- Where a load from the read-only bytes is constant, the strict evaluation gives the word that is
read. It is the payload of the constant, unless a single bit is loaded and the byte that is read is
neither zero nor one. -/
theorem solve_of_constantLoad (hlive : f.isLive id = true)
    (h : f.constantLoad img memory .readOnly id = .ok (some v)) :
    ∃ w ty, f.typeOf (.inst id) = some ty ∧ v = .int w ty ∧
      solve (.readonlyImage img (some memory)) f (.inst id) = .ok (some w) ∧
      (v.bits? = some w ↔ (ty = .i1 → w.toNat < 2)) := by
  obtain ⟨p, ty, a, w, hi, _, haddress, hread, rfl⟩ := constantLoad_eq_some h
  refine ⟨w, ty, typeOf_inst hi, rfl, ?_, ?_⟩
  · rw [solve, EvalQuery.run_load_of_constantAddress hlive hi haddress hread]
    rfl
  · rw [← fits_of_readReadonly_iff hread]
    exact Option.some_inj

/-! ### A short and a single bit -/

/-- The memory parameter, going back and forth, and a load from there. -/
def loadBehind (first second : Word) (ty : Ty) : Func where
  name := "load"
  params := [⟨"memory", .ptr⟩]
  ret := some ty
  arena := #[
    ⟨⟨.ptrAdd (.arg 0) (.int first .i64), some .ptr⟩, some ⟨0⟩⟩,
    ⟨⟨.ptrAdd (.inst ⟨0⟩) (.int second .i64), some .ptr⟩, some ⟨0⟩⟩,
    ⟨⟨.load (.inst ⟨1⟩), some ty⟩, some ⟨0⟩⟩]
  blocks := #[some { insts := [⟨0⟩, ⟨1⟩, ⟨2⟩], term := .ret (some (.inst ⟨2⟩)) }]
  entry := some ⟨0⟩

/-- Two read-only bytes. -/
def twoBytes : Image where
  sections := [
    { name := ".rdata", address := 0x1000, size := 2, flags := .readable, data := #[0x03, 0x80] }]

/-- A negative offset and a larger one lead to the first byte. -/
theorem loadBehind_solved :
    ((loadBehind (-8) 0x1008 .i16).isLive ⟨2⟩ = true ∧
      (loadBehind (-8) 0x1008 .i16).constantLoad twoBytes 0 .readOnly ⟨2⟩ =
        .ok (some (.int 0x8003 .i16))) ∧
    solve (.readonlyImage twoBytes (some 0)) (loadBehind (-8) 0x1008 .i16) (.inst ⟨2⟩) =
      .ok (some 0x8003) := by
  have hlive : (loadBehind (-8) 0x1008 .i16).isLive ⟨2⟩ = true := rfl
  have hload : (loadBehind (-8) 0x1008 .i16).constantLoad twoBytes 0 .readOnly ⟨2⟩ =
      .ok (some (.int 0x8003 .i16)) := by cbv
  refine ⟨⟨hlive, hload⟩, ?_⟩
  obtain ⟨w, ty, hty, _, hsolve, hbits⟩ := solve_of_constantLoad hlive hload
  cases hty
  have hw : (Value.int 0x8003 .i16).bits? = some w := hbits.2 fun h => absurd h (by decide)
  rw [hsolve, ← hw]
  rfl

/-- A single bit is cut off the byte when the load is folded, and is the whole byte when it is
evaluated. -/
theorem solve_ne_constantLoad :
    (loadBehind 0 0x1000 .i1).isLive ⟨2⟩ = true ∧
    (loadBehind 0 0x1000 .i1).constantLoad twoBytes 0 .readOnly ⟨2⟩ = .ok (some (.int 1 .i1)) ∧
    solve (.readonlyImage twoBytes (some 0)) (loadBehind 0 0x1000 .i1) (.inst ⟨2⟩) =
      .ok (some 3) := by
  refine ⟨rfl, by cbv, by cbv⟩

end Func

end BinaryLift
