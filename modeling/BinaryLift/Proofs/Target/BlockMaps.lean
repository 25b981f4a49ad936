import BinaryLift.Program.Iteration
import BinaryLift.Proofs.Program.Growth
import BinaryLift.Target.BlockMap

/-!
# Block maps and the functions they register

A map is kept in step with a function: each known address has one live block that carries it, it has
been queued, and what waits in the queue is known. Scheduling addresses adds the new ones, in order,
to the known addresses and to the end of the queue; this holds of every map, and of a map in step it
says that it stays so.
-/

namespace BinaryLift

section

variable {α : Type} [DecidableEq α]

theorem fresh_congr {s t : List α} (h : ∀ x, x ∈ s ↔ x ∈ t) (xs : List α) :
    fresh s xs = fresh t xs := by
  induction xs generalizing s t with
  | nil => rfl
  | cons x xs ih =>
    have hcons : ∀ y, y ∈ x :: s ↔ y ∈ x :: t := by
      intro y
      rw [List.mem_cons, List.mem_cons, h y]
    simp only [fresh, h x, ih h, ih hcons]

theorem fresh_append (seen xs ys : List α) :
    fresh seen (xs ++ ys) = fresh seen xs ++ fresh (seen ++ fresh seen xs) ys := by
  induction xs generalizing seen with
  | nil => simp [fresh]
  | cons x xs ih =>
    by_cases hx : x ∈ seen
    · simp only [List.cons_append, fresh, hx, if_true, ih]
    · simp only [List.cons_append, fresh, hx, if_false, ih, List.cons.injEq, true_and]
      congr 1
      apply fresh_congr
      intro y
      simp only [List.mem_append, List.mem_cons]
      tauto

end

namespace BlockMap

/-- The known addresses, oldest first. -/
abbrev known (m : BlockMap) : List Word := m.entries.keys

theorem blockAt_eq_none_iff {m : BlockMap} {a : Word} : m.blockAt a = none ↔ a ∉ m.known := by
  rw [blockAt, Option.map_eq_none_iff, Table.get?_eq_none_iff]

theorem mem_known_of_blockAt {m : BlockMap} {a : Word} {b : BlockId} (h : m.blockAt a = some b) :
    a ∈ m.known := by
  by_contra hn
  rw [blockAt_eq_none_iff.2 hn] at h
  cases h

/-- The addresses `found` were asked for and queued, from whatever state the map was in. -/
structure Takes (m : BlockMap) (f : Func) (found : List Word) (m' : BlockMap) (f' : Func) :
    Prop where
  grows : f.Grows f'
  entry : ∀ b, f.entry = some b → f'.entry = some b
  keeps : ∀ a b, m.blockAt a = some b → m'.blockAt a = some b
  fresh : ∀ a b, m.blockAt a = none → m'.blockAt a = some b →
    f.blocks.size ≤ b.index ∧ f'.block? b = some { address := some a }
  known : m'.known = m.known ++ BinaryLift.fresh m.known found
  scheduled : ∀ a, a ∈ m'.scheduled ↔ a ∈ m.scheduled ∨ a ∈ found
  queue : m'.pending.map (·.1) = m.pending.map (·.1) ++ BinaryLift.fresh m.scheduled found
  waiting : ∀ e ∈ m'.pending, e ∈ m.pending ∨ m'.blockAt e.1 = some e.2

theorem Takes.refl (m : BlockMap) (f : Func) : m.Takes f [] m f where
  grows := .refl f
  entry := fun _ h => h
  keeps := fun _ _ h => h
  fresh := by
    intro a b hnone hsome
    rw [hnone] at hsome
    cases hsome
  known := by simp [BinaryLift.fresh]
  scheduled := by simp
  queue := by simp [BinaryLift.fresh]
  waiting := fun _ h => .inl h

theorem Takes.trans {m m' m'' : BlockMap} {f f' f'' : Func} {xs ys : List Word}
    (h : m.Takes f xs m' f') (h' : m'.Takes f' ys m'' f'') : m.Takes f (xs ++ ys) m'' f'' where
  grows := h.grows.trans h'.grows
  entry := fun b hb => h'.entry b (h.entry b hb)
  keeps := fun a b hab => h'.keeps a b (h.keeps a b hab)
  fresh := by
    intro a b hnone hsome
    cases hmid : m'.blockAt a with
    | none =>
      obtain ⟨hle, hblock⟩ := h'.fresh a b hmid hsome
      exact ⟨Nat.le_trans h.grows.size_le hle, hblock⟩
    | some c =>
      have hcb : c = b := Option.some.inj ((h'.keeps a c hmid).symm.trans hsome)
      subst hcb
      obtain ⟨hle, hblock⟩ := h.fresh a c hnone hmid
      exact ⟨hle, h'.grows.block? hblock⟩
  known := by
    rw [h'.known, h.known, fresh_append, List.append_assoc]
  scheduled := by
    intro a
    rw [h'.scheduled, h.scheduled, List.mem_append, or_assoc]
  queue := by
    have hseen : BinaryLift.fresh m'.scheduled ys =
        BinaryLift.fresh (m.scheduled ++ BinaryLift.fresh m.scheduled xs) ys := by
      apply fresh_congr
      intro a
      rw [h.scheduled, List.mem_append, mem_fresh]
      tauto
    rw [h'.queue, h.queue, fresh_append, hseen, List.append_assoc]
  waiting := by
    intro e he
    rcases h'.waiting e he with he | he
    · rcases h.waiting e he with he | he
      · exact .inl he
      · exact .inr (h'.keeps e.1 e.2 he)
    · exact .inr he

theorem getOrCreate_cases {m m' : BlockMap} {f f' : Func} {a : Word} {reason : Reason} {b : BlockId}
    (h : m.getOrCreate f a reason = (m', f', b)) :
    (m.blockAt a = some b ∧ m' = m ∧ f' = f) ∨
      (m.blockAt a = none ∧ b = ⟨f.blocks.size⟩ ∧ f' = (f.addBlock (some a)).1 ∧
        m' = { m with entries := m.entries.insert a (b, reason) }) := by
  cases hat : m.blockAt a with
  | some c =>
    simp only [getOrCreate, hat] at h
    cases h
    exact .inl ⟨rfl, rfl, rfl⟩
  | none =>
    simp only [getOrCreate, hat] at h
    cases h
    exact .inr ⟨rfl, rfl, rfl, rfl⟩

theorem blockAt_of_getOrCreate {m m' : BlockMap} {f f' : Func} {a : Word} {reason : Reason}
    {b : BlockId} (h : m.getOrCreate f a reason = (m', f', b)) (c : Word) :
    m'.blockAt c = if a = c then some b else m.blockAt c := by
  rcases getOrCreate_cases h with ⟨hb, rfl, _⟩ | ⟨_, _, _, rfl⟩
  · split
    · rename_i heq
      rw [← heq, hb]
    · rfl
  · simp only [blockAt, Table.get?_insert]
    split <;> rfl

/-- An address keeps its block. -/
theorem getOrCreate_keeps {m m' : BlockMap} {f f' : Func} {a : Word} {reason : Reason}
    {b : BlockId} (h : m.getOrCreate f a reason = (m', f', b)) {c : Word} {d : BlockId}
    (hcd : m.blockAt c = some d) : m'.blockAt c = some d := by
  rw [blockAt_of_getOrCreate h]
  split
  · rename_i hac
    rcases getOrCreate_cases h with ⟨hb, _⟩ | ⟨hnone, _⟩
    · rw [← hb, hac, hcd]
    · rw [hac, hcd] at hnone
      cases hnone
  · exact hcd

theorem getOrCreate_grows {m m' : BlockMap} {f f' : Func} {a : Word} {reason : Reason}
    {b : BlockId} (h : m.getOrCreate f a reason = (m', f', b)) : f.Grows f' := by
  rcases getOrCreate_cases h with ⟨_, _, rfl⟩ | ⟨_, _, rfl, _⟩
  · exact .refl f'
  · exact .addBlock f _

theorem queues_getOrCreate {m m' : BlockMap} {f f' : Func} {a : Word} {reason : Reason}
    {b : BlockId} (h : m.getOrCreate f a reason = (m', f', b)) :
    m'.scheduled = m.scheduled ∧ m'.pending = m.pending := by
  rcases getOrCreate_cases h with ⟨_, rfl, _⟩ | ⟨_, _, _, rfl⟩ <;> exact ⟨rfl, rfl⟩

@[simp]
theorem blockAt_enqueue (m : BlockMap) (a c : Word) (b : BlockId) :
    (m.enqueue a b).blockAt c = m.blockAt c := by
  unfold enqueue
  split <;> rfl

theorem known_enqueue (m : BlockMap) (a : Word) (b : BlockId) : (m.enqueue a b).known = m.known := by
  unfold enqueue
  split <;> rfl

theorem mem_scheduled_enqueue (m : BlockMap) (a c : Word) (b : BlockId) :
    c ∈ (m.enqueue a b).scheduled ↔ c ∈ m.scheduled ∨ c = a := by
  unfold enqueue
  split
  · rename_i hmem
    constructor
    · exact .inl
    · rintro (hc | rfl)
      · exact hc
      · exact hmem
  · exact List.mem_cons.trans or_comm

theorem pending_enqueue (m : BlockMap) (a : Word) (b : BlockId) :
    (m.enqueue a b).pending = m.pending ++ (fresh m.scheduled [a]).map fun c => (c, b) := by
  unfold enqueue
  split <;> rename_i hmem <;> simp [fresh, hmem]

/-- Asking for the block of an address and queueing it. Neither step looks at what the other did
before, and the block that is known need not be live. -/
theorem schedule_takes {m m' : BlockMap} {f f' : Func} {a : Word} {reason : Reason} {b : BlockId}
    (h : m.schedule f a reason = (m', f', b)) :
    m.Takes f [a] m' f' ∧ m'.blockAt a = some b := by
  cases hg : m.getOrCreate f a reason with
  | mk m₁ p =>
    obtain ⟨f₁, b₁⟩ := p
    simp only [schedule, hg] at h
    cases h
    have hat : ∀ c, (m₁.enqueue a b).blockAt c = if a = c then some b else m.blockAt c := by
      intro c
      rw [blockAt_enqueue, blockAt_of_getOrCreate hg]
    obtain ⟨hscheduled, hpending⟩ := queues_getOrCreate hg
    refine ⟨?_, by rw [hat, if_pos rfl]⟩
    constructor
    case known =>
      rw [known_enqueue]
      rcases getOrCreate_cases hg with ⟨hb, rfl, _⟩ | ⟨hnone, _, _, rfl⟩
      · simp [BinaryLift.fresh, mem_known_of_blockAt hb]
      · have hnew := blockAt_eq_none_iff.1 hnone
        simp only [known] at hnew ⊢
        simp [Table.keys_insert, BinaryLift.fresh, hnew]
    case scheduled =>
      intro c
      rw [mem_scheduled_enqueue, hscheduled, List.mem_singleton]
    case queue =>
      rw [pending_enqueue, hpending, hscheduled, List.map_append, List.map_map]
      simp [Function.comp_def]
    case waiting =>
      intro e he
      rw [pending_enqueue, hpending, List.mem_append, List.mem_map] at he
      rcases he with he | ⟨c, hc, rfl⟩
      · exact .inl he
      · have hca : c = a := List.mem_singleton.1 (mem_fresh.1 hc).1
        exact .inr (by rw [hat, if_pos hca.symm])
    case grows => exact getOrCreate_grows hg
    case entry =>
      intro e he
      rcases getOrCreate_cases hg with ⟨_, _, rfl⟩ | ⟨_, _, rfl, _⟩
      · exact he
      · simp [Func.addBlock, he]
    case keeps =>
      intro c d hcd
      rw [blockAt_enqueue]
      exact getOrCreate_keeps hg hcd
    case fresh =>
      intro c d hnone hsome
      rw [hat] at hsome
      split at hsome
      · rename_i heq
        subst heq
        cases hsome
        rcases getOrCreate_cases hg with ⟨hb, _⟩ | ⟨_, rfl, rfl, _⟩
        · rw [hnone] at hb
          cases hb
        · exact ⟨Nat.le_refl _, by rw [Func.block?_addBlock, if_pos rfl]⟩
      · rw [hnone] at hsome
        cases hsome

/-- The map and the function are in step, and every known address satisfies `valid`. -/
structure Registered (valid : Word → Bool) (m : BlockMap) (f : Func) : Prop where
  nodup : m.known.Nodup
  scheduled : ∀ a, a ∈ m.scheduled ↔ a ∈ m.known
  valid : ∀ a ∈ m.known, valid a = true
  carries : ∀ a b, m.blockAt a = some b → ∃ data, f.block? b = some data ∧ data.address = some a
  waiting : ∀ e ∈ m.pending, m.blockAt e.1 = some e.2

/-- The addresses `found` were scheduled one after another. -/
structure Discovers (m : BlockMap) (f : Func) (found : List Word) (m' : BlockMap) (f' : Func) :
    Prop where
  grows : f.Grows f'
  known : m'.known = m.known ++ fresh m.known found
  queue : m'.pending.map (·.1) = m.pending.map (·.1) ++ fresh m.known found
  keeps : ∀ a b, m.blockAt a = some b → m'.blockAt a = some b

theorem Registered.injective {valid : Word → Bool} {m : BlockMap} {f : Func}
    (h : m.Registered valid f) {a a' : Word} {b : BlockId} (ha : m.blockAt a = some b)
    (ha' : m.blockAt a' = some b) : a = a' := by
  obtain ⟨data, hd, haddr⟩ := h.carries a b ha
  obtain ⟨data', hd', haddr'⟩ := h.carries a' b ha'
  rw [hd] at hd'
  cases hd'
  rw [haddr] at haddr'
  exact Option.some.inj haddr'

theorem Registered.of_keeps {valid : Word → Bool} {m : BlockMap} {f g : Func}
    (h : m.Registered valid f)
    (hkeep : ∀ b data, f.block? b = some data →
      ∃ data', g.block? b = some data' ∧ data'.address = data.address) : m.Registered valid g where
  nodup := h.nodup
  scheduled := h.scheduled
  valid := h.valid
  carries := by
    intro a b hab
    obtain ⟨data, hd, haddr⟩ := h.carries a b hab
    obtain ⟨data', hd', haddr'⟩ := hkeep b data hd
    exact ⟨data', hd', by rw [haddr', haddr]⟩
  waiting := h.waiting

theorem Registered.grows {valid : Word → Bool} {m : BlockMap} {f g : Func}
    (h : m.Registered valid f) (hg : f.Grows g) : m.Registered valid g :=
  h.of_keeps fun _ data hd => ⟨data, hg.block? hd, rfl⟩

theorem Registered.of_extendsAt {valid : Word → Bool} {m : BlockMap} {f g : Func} {b : BlockId}
    (h : m.Registered valid f) (hext : f.ExtendsAt b g) : m.Registered valid g := by
  refine h.of_keeps fun c data hd => ?_
  obtain ⟨data', hd', _, haddr⟩ := hext.term hd
  exact ⟨data', hd', haddr⟩

theorem Discovers.refl (m : BlockMap) (f : Func) : m.Discovers f [] m f where
  grows := .refl f
  known := by simp [fresh]
  queue := by simp [fresh]
  keeps := fun _ _ h => h

theorem Discovers.trans {m m' m'' : BlockMap} {f f' f'' : Func} {xs ys : List Word}
    (h : m.Discovers f xs m' f') (h' : m'.Discovers f' ys m'' f'') :
    m.Discovers f (xs ++ ys) m'' f'' where
  grows := h.grows.trans h'.grows
  known := by
    rw [h'.known, h.known, fresh_append, List.append_assoc]
  queue := by
    rw [h'.queue, h.queue, h.known, fresh_append, List.append_assoc]
  keeps := fun a b hab => h'.keeps a b (h.keeps a b hab)

theorem Discovers.addBlock (m : BlockMap) (f : Func) (a : Option Word) :
    m.Discovers f [] m (f.addBlock a).1 where
  grows := .addBlock f a
  known := by simp [fresh]
  queue := by simp [fresh]
  keeps := fun _ _ h => h

theorem Takes.discovers {valid : Word → Bool} {m m' : BlockMap} {f f' : Func} {found : List Word}
    (h : m.Registered valid f) (ht : m.Takes f found m' f') : m.Discovers f found m' f' where
  grows := ht.grows
  known := ht.known
  queue := by
    rw [ht.queue, fresh_congr h.scheduled]
  keeps := ht.keeps

/-- A map in step stays so while valid addresses are scheduled. -/
theorem Takes.registered {valid : Word → Bool} {m m' : BlockMap} {f f' : Func} {found : List Word}
    (h : m.Registered valid f) (hvalid : ∀ a ∈ found, valid a = true)
    (ht : m.Takes f found m' f') : m'.Registered valid f' where
  nodup := by
    rw [ht.known]
    refine List.nodup_append.2 ⟨h.nodup, nodup_fresh _ _, ?_⟩
    rintro a hold _ hnew rfl
    exact (mem_fresh.1 hnew).2 hold
  scheduled := by
    intro a
    rw [ht.scheduled, ht.known, List.mem_append, mem_fresh, h.scheduled]
    tauto
  valid := by
    intro a ha
    rw [ht.known, List.mem_append, mem_fresh] at ha
    rcases ha with ha | ⟨ha, _⟩
    · exact h.valid a ha
    · exact hvalid a ha
  carries := by
    intro a b hab
    cases hold : m.blockAt a with
    | none => exact ⟨_, (ht.fresh a b hold hab).2, rfl⟩
    | some c =>
      have hcb : c = b := Option.some.inj ((ht.keeps a c hold).symm.trans hab)
      obtain ⟨data, hd, haddr⟩ := h.carries a c hold
      rw [← hcb]
      exact ⟨data, ht.grows.block? hd, haddr⟩
  waiting := by
    intro e he
    rcases ht.waiting e he with he | he
    · exact ht.keeps _ _ (h.waiting e he)
    · exact he

/-- What scheduling one address does to a map in step. -/
theorem schedule_spec {m m' : BlockMap} {f f' : Func} {valid : Word → Bool}
    (h : m.Registered valid f) {a : Word} (hvalid : valid a = true) {reason : Reason} {b : BlockId}
    (hsched : m.schedule f a reason = (m', f', b)) :
    m'.Registered valid f' ∧ m.Discovers f [a] m' f' ∧ m'.blockAt a = some b := by
  obtain ⟨htakes, hat⟩ := schedule_takes hsched
  refine ⟨htakes.registered h ?_, htakes.discovers h, hat⟩
  intro c hc
  rw [List.mem_singleton.1 hc]
  exact hvalid

end BlockMap

end BinaryLift
