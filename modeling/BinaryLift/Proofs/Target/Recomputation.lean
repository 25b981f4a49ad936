import BinaryLift.Proofs.Target.DefinitionChains
import BinaryLift.Proofs.Target.SetAlgebra

/-!
# Evaluation without stored results

The same evaluation with every definition worked out anew wherever it is met. Where the definitions are
reducible, what is found for one does not depend on the chain that led to it, so a result stored on
one chain is the right one on another, and the evaluation that stores results finds the same sets.
-/

namespace BinaryLift

namespace EvalM

/-- Started with a cache that satisfies `I`, a computation gives `a` and leaves such a cache. -/
def Returns {α : Type} (I : Table InstId ValueSet → Prop) (m : EvalM α) (a : α) : Prop :=
  ∀ c, I c → ∃ c', m c = .ok (a, c') ∧ I c'

variable {α β : Type} {I : Table InstId ValueSet → Prop} {a : α} {b : β}

theorem returns_pure : Returns I (pure a) a := fun c hc => ⟨c, rfl, hc⟩

theorem returns_lift {x : Checked α} (h : x = .ok a) : Returns I (liftM x : EvalM α) a := by
  intro c hc
  subst h
  exact ⟨c, rfl, hc⟩

theorem returns_bind {m : EvalM α} {k : α → EvalM β} (hm : Returns I m a)
    (hk : Returns I (k a) b) : Returns I (m >>= k) b := by
  intro c hc
  obtain ⟨c', hrun, hc'⟩ := hm c hc
  obtain ⟨c'', hrest, hc''⟩ := hk c' hc'
  refine ⟨c'', ?_, hc''⟩
  change (m c >>= fun p => k p.1 p.2) = _
  rw [hrun]
  exact hrest

end EvalM

open EvalM

namespace EvalQuery

/-! ### Sets from the sets of operands -/

/-- The addresses of a pointer from the sets of the operands they are made from. -/
def addressSet (q : EvalQuery) (r : Value → ValueSet) : Nat → Value → ValueSet
  | n + 1, .inst id =>
    match q.func.isLive id, q.func.inst? id with
    | true, some ⟨.cast .inttoptr v, _⟩ => r v
    | true, some ⟨.ptrAdd base offset, _⟩ =>
      if q.isMemory base then r offset
      else (addressSet q r n base).product (r offset) fun x y => some (x + y)
    | _, _ => .unknown
  | _, _ => .unknown

/-- The set of an instruction from the sets of the operands it consults. -/
def setOf (q : EvalQuery) (r : Value → ValueSet) (i : Inst) : ValueSet :=
  let ty := i.ty.getD .i64
  match i.kind with
  | .binary op x y => (r x).product (r y) fun a b => op.fold a b ty
  | .icmp p x y =>
    (r x).product (r y) fun a b => some (if p.fold a b (q.func.wordTy x) then 1 else 0)
  | .cast op x => (r x).map fun a => some (op.fold a (q.func.wordTy x) ty)
  | .ptrAdd x y => (r x).product (r y) fun a b => some (a + b)
  | .select c x y =>
    if r c = .single 1 then r x else if r c = .single 0 then r y else (r x).merge (r y)
  | .phi inc => (inc.map fun e => r e.2).foldl .merge .empty
  | .load p =>
    match q.memory.image with
    | none => .unknown
    | some img => (q.addressSet r (q.func.arena.size + 1) p).map (q.readAt img ty.bytes)
  | .alloca _ => .unknown
  | .store .. => .unknown
  | .call .. => .unknown

/-- The values of an operand, every definition evaluated anew; at most `n` are followed, and `path`
holds the instructions whose evaluation is under way. -/
def recompute (q : EvalQuery) : Nat → List InstId → Value → ValueSet
  | _, _, .const c => .single c.bits
  | _, _, .arg _ => .unknown
  | 0, _, .inst _ => .unknown
  | n + 1, path, .inst id =>
    match q.func.isLive id, q.func.inst? id with
    | true, some i => if id ∈ path then q.onCycle else q.setOf (recompute q n (id :: path)) i
    | _, _ => .unknown

variable {q : EvalQuery} {r r' : Value → ValueSet} {i : Inst} {p : Value} {n m k : Nat}
  {path path' : List InstId} {id root : InstId}

/-! ### Only consulted operands count -/

theorem addressSet_congr (n : Nat) {p : Value} (h : ∀ v, q.func.AddressPart p v → r v = r' v) :
    q.addressSet r n p = q.addressSet r' n p := by
  induction n generalizing p with
  | zero => cases p <;> rfl
  | succ n ih =>
    cases p with
    | const c => rfl
    | arg a => rfl
    | inst id =>
      simp only [addressSet]
      split
      · rename_i hlive hi
        exact h _ (.converted hlive hi)
      · rename_i hlive hi
        rw [h _ (.offset hlive hi), ih fun v hv => h v (.base hlive hi hv)]
      · rfl

theorem setOf_congr (h : ∀ v, q.func.Consults i.kind v → r v = r' v) :
    q.setOf r i = q.setOf r' i := by
  obtain ⟨kind, ty⟩ := i
  cases kind with
  | alloca a => rfl
  | store p v => rfl
  | call g args => rfl
  | load p => simp only [setOf, addressSet_congr _ h]
  | phi inc =>
    have hsame : inc.map (fun e => r e.2) = inc.map fun e => r' e.2 :=
      List.map_congr_left fun e he => h e.2 (List.mem_map_of_mem he)
    simp only [setOf, hsame]
  | binary op x y =>
    simp only [setOf, h x List.mem_cons_self, h y (List.mem_cons_of_mem _ List.mem_cons_self)]
  | icmp p x y =>
    simp only [setOf, h x List.mem_cons_self, h y (List.mem_cons_of_mem _ List.mem_cons_self)]
  | cast op x => simp only [setOf, h x List.mem_cons_self]
  | ptrAdd x y =>
    simp only [setOf, h x List.mem_cons_self, h y (List.mem_cons_of_mem _ List.mem_cons_self)]
  | select c x y =>
    simp only [setOf, h c List.mem_cons_self, h x (List.mem_cons_of_mem _ List.mem_cons_self),
      h y (List.mem_cons_of_mem _ (List.mem_cons_of_mem _ List.mem_cons_self))]

/-! ### Form of the sets -/

theorem isNormal_setOf (h : ∀ v, (r v).IsNormal) (i : Inst) : (q.setOf r i).IsNormal := by
  obtain ⟨kind, ty⟩ := i
  cases kind with
  | alloca a => trivial
  | store p v => trivial
  | call g args => trivial
  | binary op x y => exact ValueSet.isNormal_product (h x) (h y) _
  | icmp p x y => exact ValueSet.isNormal_product (h x) (h y) _
  | ptrAdd x y => exact ValueSet.isNormal_product (h x) (h y) _
  | cast op x => exact ValueSet.isNormal_map (r x) _
  | select c x y =>
    simp only [setOf]
    split
    · exact h x
    · split
      · exact h y
      · exact ValueSet.isNormal_merge (h x) (h y)
  | phi inc =>
    refine ValueSet.isNormal_foldl_merge (fun s hs => ?_) ValueSet.isNormal_empty
    obtain ⟨e, _, rfl⟩ := List.mem_map.1 hs
    exact h e.2
  | load p =>
    simp only [setOf]
    split
    · trivial
    · exact ValueSet.isNormal_map _ _

theorem isNormal_recompute (n : Nat) (path : List InstId) (v : Value) :
    (q.recompute n path v).IsNormal := by
  induction n generalizing path v with
  | zero =>
    cases v with
    | const c => exact (ValueSet.Built.single _).isNormal
    | arg a => trivial
    | inst id => trivial
  | succ n ih =>
    cases v with
    | const c => exact (ValueSet.Built.single _).isNormal
    | arg a => trivial
    | inst id =>
      simp only [recompute]
      split
      · split
        · unfold onCycle
          split
          · trivial
          · exact ValueSet.isNormal_empty
        · exact isNormal_setOf (ih _) _
      · trivial

/-! ### What the evaluation of one instruction returns -/

section

variable {I : Table InstId ValueSet → Prop} {eval : Value → EvalM ValueSet}

theorem ty_returns {v : Value} (hv : ∀ j, v = .inst j → j.index < q.func.arena.size) :
    Returns I (q.ty v) (q.func.wordTy v) := by
  unfold ty
  refine returns_bind (a := q.func.typeOf v) (returns_lift ?_) returns_pure
  cases v with
  | const c => rfl
  | arg a => rfl
  | inst j =>
    obtain ⟨i, hi⟩ := Func.exists_inst?_of_lt (hv j rfl)
    simp only [Func.valueTy, Func.inst, hi, Func.typeOf_inst hi]
    rfl

/-- Once nothing is known, no further operand is evaluated; the union of all would say nothing
either. -/
theorem mergeAll_returns (vs : List Value) (heval : ∀ v ∈ vs, Returns I (eval v) (r v))
    (acc : ValueSet) : Returns I (mergeAll eval acc vs) ((vs.map r).foldl .merge acc) := by
  induction vs generalizing acc with
  | nil => exact returns_pure
  | cons v vs ih =>
    have hrest := fun acc => ih (fun u hu => heval u (List.mem_cons_of_mem _ hu)) acc
    simp only [mergeAll, List.map_cons, List.foldl_cons]
    apply returns_bind (heval v List.mem_cons_self)
    cases hres : acc.merge (r v) with
    | unknown =>
      have hunknown : ∀ l : List ValueSet, l.foldl ValueSet.merge .unknown = .unknown := by
        intro l
        induction l with
        | nil => rfl
        | cons s l ih => exact ih
      simp only [ValueSet.isUnknown, if_true, hunknown]
      exact returns_pure
    | known us => exact hrest (.known us)

theorem address_returns (hends : Ends q.func.pointerBase? k p) (hk : k < n)
    (heval : ∀ v, q.func.AddressPart p v → Returns I (eval v) (r v)) :
    Returns I (q.address eval n p) (q.addressSet r n p) := by
  induction n generalizing k p with
  | zero => omega
  | succ n ih =>
    cases p with
    | const c => exact returns_pure
    | arg a => exact returns_pure
    | inst id =>
      simp only [address, addressSet]
      cases hlive : q.func.isLive id with
      | false => exact returns_pure
      | true =>
        obtain ⟨i, hi⟩ := Func.exists_inst?_of_lt (Func.index_lt_of_isLive hlive)
        rw [hi]
        refine returns_bind (returns_lift (Func.kind_of_inst? hi)) ?_
        obtain ⟨kind, ty⟩ := i
        cases kind with
        | cast op v =>
          cases op with
          | inttoptr => exact heval v (.converted hlive hi)
          | _ => exact returns_pure
        | ptrAdd base offset =>
          dsimp only
          split
          · exact heval offset (.offset hlive hi)
          · cases hends with
            | stop hnone =>
              rw [Func.pointerBase?_eq hlive hi] at hnone
              cases hnone
            | link hbase hends =>
              rw [Func.pointerBase?_eq hlive hi] at hbase
              cases hbase
              have hrest := ih hends (by omega) fun v hv => heval v (.base hlive hi hv)
              exact returns_bind hrest (returns_bind (heval offset (.offset hlive hi)) returns_pure)
        | _ => exact returns_pure

theorem inst_returns (hbases : q.func.BasesEnd)
    (hmade : ∀ j, .inst j ∈ i.kind.operands → j.index < q.func.arena.size)
    (heval : ∀ v, q.func.Consults i.kind v → Returns I (eval v) (r v)) :
    Returns I (q.inst eval i) (q.setOf r i) := by
  obtain ⟨kind, ty⟩ := i
  cases kind with
  | alloca a => exact returns_pure
  | store p v => exact returns_pure
  | call g args => exact returns_pure
  | binary op x y =>
    have hx := heval x List.mem_cons_self
    have hy := heval y (List.mem_cons_of_mem _ List.mem_cons_self)
    exact returns_bind hx (returns_bind hy returns_pure)
  | icmp p x y =>
    have hty : Returns I (q.ty x) (q.func.wordTy x) := by
      refine ty_returns fun j hj => hmade j ?_
      rw [hj]
      exact List.mem_cons_self
    have hx := heval x List.mem_cons_self
    have hy := heval y (List.mem_cons_of_mem _ List.mem_cons_self)
    exact returns_bind hty (returns_bind hx (returns_bind hy returns_pure))
  | cast op x =>
    have hty : Returns I (q.ty x) (q.func.wordTy x) := by
      refine ty_returns fun j hj => hmade j ?_
      rw [hj]
      exact List.mem_cons_self
    exact returns_bind hty (returns_bind (heval x List.mem_cons_self) returns_pure)
  | ptrAdd x y =>
    have hx := heval x List.mem_cons_self
    have hy := heval y (List.mem_cons_of_mem _ List.mem_cons_self)
    exact returns_bind hx (returns_bind hy returns_pure)
  | select c x y =>
    have hc := heval c List.mem_cons_self
    have hx := heval x (List.mem_cons_of_mem _ List.mem_cons_self)
    have hy := heval y (List.mem_cons_of_mem _ (List.mem_cons_of_mem _ List.mem_cons_self))
    simp only [EvalQuery.inst, setOf]
    apply returns_bind hc
    split
    · exact hx
    · split
      · exact hy
      · exact returns_bind hx (returns_bind hy returns_pure)
  | phi inc =>
    have hall : ∀ v ∈ inc.map (·.2), Returns I (eval v) (r v) := heval
    have hmerged := mergeAll_returns _ hall .empty
    rw [List.map_map] at hmerged
    exact hmerged
  | load p =>
    simp only [EvalQuery.inst, load, setOf]
    cases q.memory.image with
    | none => exact returns_pure
    | some img =>
      exact returns_bind (address_returns (hbases.within p) (Nat.lt_succ_self _) heval) returns_pure

end

/-! ### Stored results -/

/-- The instruction `id` is evaluated with `n` definitions to go, on a chain from the root without
repetition. -/
structure UnderWay (f : Func) (root : InstId) (n : Nat) (path : List InstId) (id : InstId) : Prop where
  chain : f.DefChain root (id :: path) id
  nodup : (id :: path).Nodup
  depth : n + path.length = maxDepth + 1
  positive : 0 < n

theorem underWay_root (f : Func) (root : InstId) : UnderWay f root (maxDepth + 1) [] root :=
  ⟨.root, List.nodup_singleton root, rfl, Nat.succ_pos _⟩

/-- A definition that is consulted is evaluated within the depth, whether it has to be followed or leads
back. -/
theorem UnderWay.positive_of_follows {f : Func} {j : InstId} (h : UnderWay f root (n + 1) path id)
    (hdepth : f.ChainsWithin root maxDepth) (hfollows : f.Follows id j) : 0 < n := by
  have hle := hdepth _ _ _ h.chain h.nodup hfollows
  have hsum := h.depth
  rw [List.length_cons] at hle
  omega

theorem UnderWay.next {f : Func} {j : InstId} (h : UnderWay f root (n + 1) path id)
    (hdepth : f.ChainsWithin root maxDepth) (hfollows : f.Follows id j) (hnew : j ∉ id :: path) :
    UnderWay f root n (id :: path) j where
  chain := h.chain.step hfollows
  nodup := List.nodup_cons.2 ⟨hnew, h.nodup⟩
  depth := by
    have hsum := h.depth
    rw [List.length_cons]
    omega
  positive := h.positive_of_follows hdepth hfollows

theorem recompute_of_live (hlive : q.func.isLive id = true) (hi : q.func.inst? id = some i)
    (hnew : id ∉ path) :
    q.recompute (n + 1) path (.inst id) = q.setOf (q.recompute n (id :: path)) i := by
  simp only [recompute, hlive, hi, if_neg hnew]

theorem recompute_of_mem (hlive : q.func.isLive id = true) (hn : 0 < n) (hmem : id ∈ path) :
    q.recompute n path (.inst id) = q.onCycle := by
  obtain ⟨m, rfl⟩ : ∃ m, n = m + 1 := ⟨n - 1, by omega⟩
  obtain ⟨i, hi⟩ := Func.exists_inst?_of_lt (Func.index_lt_of_isLive hlive)
  simp only [recompute, hlive, hi, if_pos hmem]

theorem recompute_of_dead (hdead : q.func.isLive id = false) (n : Nat) (path : List InstId) :
    q.recompute n path (.inst id) = .unknown := by
  cases n with
  | zero => rfl
  | succ n => simp only [recompute, hdead]

/-- With reducible definitions the chain that led to one makes no difference to what is found for it:
what it consults is under way on all chains or on none. -/
theorem recompute_independent (hred : q.func.Reducible root)
    (hdepth : q.func.ChainsWithin root maxDepth) :
    ∀ n path m path' id, UnderWay q.func root n path id → UnderWay q.func root m path' id →
      q.recompute n path (.inst id) = q.recompute m path' (.inst id) := by
  intro n
  induction n with
  | zero =>
    intro path m path' id h
    exact absurd h.positive (Nat.lt_irrefl 0)
  | succ n ih =>
    intro path m path' id h h'
    obtain ⟨m, rfl⟩ : ∃ k, m = k + 1 := ⟨m - 1, by have := h'.positive; omega⟩
    cases hlive : q.func.isLive id with
    | false => rw [recompute_of_dead hlive, recompute_of_dead hlive]
    | true =>
      obtain ⟨i, hi⟩ := Func.exists_inst?_of_lt (Func.index_lt_of_isLive hlive)
      rw [recompute_of_live hlive hi (List.nodup_cons.1 h.nodup).1,
        recompute_of_live hlive hi (List.nodup_cons.1 h'.nodup).1]
      apply setOf_congr
      intro v hv
      cases v with
      | const c => cases n <;> cases m <;> rfl
      | arg a => cases n <;> cases m <;> rfl
      | inst j =>
        have hfollows : q.func.Follows id j := ⟨hlive, i, hi, hv⟩
        cases hj : q.func.isLive j with
        | false => rw [recompute_of_dead hj, recompute_of_dead hj]
        | true =>
          have hiff := hred.mem_iff h.chain h.nodup hfollows
          have hiff' := hred.mem_iff h'.chain h'.nodup hfollows
          by_cases hmem : j ∈ id :: path
          · rw [recompute_of_mem hj (h.positive_of_follows hdepth hfollows) hmem,
              recompute_of_mem hj (h'.positive_of_follows hdepth hfollows) (hiff'.2 (hiff.1 hmem))]
          · have hmem' : j ∉ id :: path' := fun hj' => hmem (hiff.2 (hiff'.1 hj'))
            exact ih _ _ _ _ (h.next hdepth hfollows hmem) (h'.next hdepth hfollows hmem')

/-- Nothing is stored for the instructions under way, and what is stored is what would be found anew on
any chain. -/
structure CacheRight (q : EvalQuery) (root : InstId) (path : List InstId)
    (c : Table InstId ValueSet) : Prop where
  absent : ∀ k ∈ path, c.get? k = none
  stored : ∀ k s, c.get? k = some s → ∀ n path, UnderWay q.func root n path k →
    q.recompute n path (.inst k) = s

theorem CacheRight.insert {c : Table InstId ValueSet} (hred : q.func.Reducible root)
    (hdepth : q.func.ChainsWithin root maxDepth) (h : UnderWay q.func root n path id)
    (hc : CacheRight q root (id :: path) c) :
    CacheRight q root path (c.insert id (q.recompute n path (.inst id))) where
  absent := by
    intro k hk
    have hne : id ≠ k := by
      rintro rfl
      exact (List.nodup_cons.1 h.nodup).1 hk
    rw [Table.get?_insert, if_neg hne]
    exact hc.absent k (List.mem_cons_of_mem _ hk)
  stored := by
    intro k s hk m path' h'
    rw [Table.get?_insert] at hk
    split at hk
    · rename_i heq
      subst heq
      cases hk
      exact recompute_independent hred hdepth _ _ _ _ _ h' h
    · exact hc.stored k s hk m path' h'

/-! ### The ways an evaluation with stored results goes -/

variable {c c' : Table InstId ValueSet} {s : ValueSet}

theorem value_of_dead (hdead : q.func.isLive id = false) (n : Nat) (path : List InstId) :
    q.value n path (.inst id) = pure .unknown := by
  cases n with
  | zero => rfl
  | succ n => simp only [value, hdead, Bool.not_false, if_true]

/-- A live instruction: a stored result is taken, one under way leads back, and otherwise what is found
is stored. -/
theorem value_of_live (hlive : q.func.isLive id = true) (hi : q.func.inst? id = some i) :
    q.value (n + 1) path (.inst id) c =
      match c.get? id with
      | some found => .ok (found, c)
      | none =>
        if id ∈ path then .ok (q.onCycle, c)
        else (q.inst (q.value n (id :: path)) i c).map fun found =>
          (found.1, found.2.insert id found.1) := by
  have hfirst : q.func.inst id = .ok i := by rw [Func.inst, hi]
  simp only [value, hlive, Bool.not_true, Bool.false_eq_true, if_false, hfirst]
  change (match c.get? id with
    | some found => (pure found : EvalM ValueSet)
    | none => _) c = _
  cases c.get? id with
  | some found => rfl
  | none =>
    dsimp only
    split
    · rfl
    · change (q.inst (q.value n (id :: path)) i c >>= fun found => _) = _
      cases q.inst (q.value n (id :: path)) i c <;> rfl

theorem value_of_mem (hlive : q.func.isLive id = true) (hn : 0 < n) (hget : c.get? id = none)
    (hmem : id ∈ path) : q.value n path (.inst id) c = .ok (q.onCycle, c) := by
  obtain ⟨m, rfl⟩ : ∃ m, n = m + 1 := ⟨n - 1, by omega⟩
  obtain ⟨i, hi⟩ := Func.exists_inst?_of_lt (Func.index_lt_of_isLive hlive)
  rw [value_of_live hlive hi, hget]
  exact if_pos hmem

/-- An operand that is consulted is followed, or leads back to what is under way. -/
theorem operand_returns (hdepth : q.func.ChainsWithin root maxDepth)
    (h : UnderWay q.func root (n + 1) path id) (hlive : q.func.isLive id = true)
    (hi : q.func.inst? id = some i)
    (hnext : ∀ j, UnderWay q.func root n (id :: path) j →
      Returns (CacheRight q root (id :: path)) (q.value n (id :: path) (.inst j))
        (q.recompute n (id :: path) (.inst j)))
    {v : Value} (hv : q.func.Consults i.kind v) :
    Returns (CacheRight q root (id :: path)) (q.value n (id :: path) v)
      (q.recompute n (id :: path) v) := by
  cases v with
  | const c => cases n <;> exact returns_pure
  | arg a => cases n <;> exact returns_pure
  | inst j =>
    have hfollows : q.func.Follows id j := ⟨hlive, i, hi, hv⟩
    by_cases hmem : j ∈ id :: path
    · cases hj : q.func.isLive j with
      | false =>
        rw [recompute_of_dead hj, value_of_dead hj]
        exact returns_pure
      | true =>
        have hn := h.positive_of_follows hdepth hfollows
        intro c hc
        rw [recompute_of_mem hj hn hmem]
        exact ⟨c, value_of_mem hj hn (hc.absent j hmem) hmem, hc⟩
    · exact hnext j (h.next hdepth hfollows hmem)

/-- Evaluation with stored results finds what evaluation without them does. -/
theorem value_returns (hred : q.func.Reducible root) (hdepth : q.func.ChainsWithin root maxDepth)
    (hmade : q.func.OperandsMade) (hbases : q.func.BasesEnd) :
    ∀ n path id, UnderWay q.func root n path id →
      Returns (CacheRight q root path) (q.value n path (.inst id)) (q.recompute n path (.inst id)) := by
  intro n
  induction n with
  | zero =>
    intro path id h
    exact absurd h.positive (Nat.lt_irrefl 0)
  | succ n ih =>
    intro path id h
    have hnew : id ∉ path := (List.nodup_cons.1 h.nodup).1
    cases hlive : q.func.isLive id with
    | false =>
      rw [recompute_of_dead hlive, value_of_dead hlive]
      exact returns_pure
    | true =>
      obtain ⟨i, hi⟩ := Func.exists_inst?_of_lt (Func.index_lt_of_isLive hlive)
      have hinst := inst_returns hbases (hmade id i hlive hi) fun v hv =>
        operand_returns hdepth h hlive hi (ih _) hv
      rw [← recompute_of_live hlive hi hnew] at hinst
      intro c hc
      cases hget : c.get? id with
      | some found =>
        refine ⟨c, ?_, hc⟩
        rw [value_of_live hlive hi, hget, hc.stored id found hget _ _ h]
      | none =>
        have hopen : CacheRight q root (id :: path) c := by
          refine ⟨fun k hk => ?_, hc.stored⟩
          rcases List.mem_cons.1 hk with rfl | hk
          · exact hget
          · exact hc.absent k hk
        obtain ⟨c', hrun, hright⟩ := hinst c hopen
        refine ⟨_, ?_, hright.insert hred hdepth h⟩
        rw [value_of_live hlive hi, hget]
        simp only [if_neg hnew, hrun]
        rfl

/-- What the whole evaluation of an operand finds. -/
theorem run_eq {v : Value} (hmade : q.func.OperandsMade) (hbases : q.func.BasesEnd)
    (hroot : ∀ root, v = .inst root →
      q.func.Reducible root ∧ q.func.ChainsWithin root maxDepth) :
    q.run v = .ok (q.recompute (maxDepth + 1) [] v) := by
  cases v with
  | const c => rfl
  | arg a => rfl
  | inst root =>
    obtain ⟨hred, hdepth⟩ := hroot root rfl
    have hempty : CacheRight q root [] [] := ⟨nofun, nofun⟩
    obtain ⟨c', hrun, _⟩ :=
      value_returns hred hdepth hmade hbases _ _ _ (underWay_root q.func root) [] hempty
    simp only [run, StateT.run, hrun]
    rfl

end EvalQuery

end BinaryLift
