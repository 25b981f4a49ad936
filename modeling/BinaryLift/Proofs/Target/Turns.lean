import BinaryLift.Proofs.Target.BlockMaps

/-!
# One block and one turn for each address

A block map is used by several parties at once: addresses are asked for, queued and taken in any
order, and blocks the map knows nothing of are added to the same function. Each use is a call with
an answer, and what a map holds is told by the answers so far: the first request of an address gives
its entry, the first queueing its place in the queue.
-/

namespace BinaryLift

/-- A use of a block map or of its function. -/
inductive MapCall where
  | request (address : Word) (reason : Reason)
  | enqueue (address : Word) (block : BlockId)
  | next
  /-- A block that the map is not told of. -/
  | addBlock (address : Option Word)

/-- A use together with its answer. -/
inductive MapEvent where
  | requested (address : Word) (reason : Reason) (answer : BlockId)
  | enqueued (address : Word) (block : BlockId)
  | taken (answer : Option (Word × BlockId))
  | added (address : Option Word) (answer : BlockId)
deriving DecidableEq

namespace MapEvent

def request? : MapEvent → Option (Word × BlockId × Reason)
  | requested a reason b => some (a, b, reason)
  | _ => none

def enqueue? : MapEvent → Option (Word × BlockId)
  | enqueued a b => some (a, b)
  | _ => none

def turn? : MapEvent → Option (Word × BlockId)
  | taken e => e
  | _ => none

/-- Addresses asked for, with the block that was answered and the reason given. -/
def requests (es : List MapEvent) : List (Word × BlockId × Reason) := es.filterMap request?

/-- Addresses queued, with their blocks; some may have been queued before. -/
def enqueues (es : List MapEvent) : List (Word × BlockId) := es.filterMap enqueue?

/-- What was taken from the queue. -/
def turns (es : List MapEvent) : List (Word × BlockId) := es.filterMap turn?

end MapEvent

/-- The first entry for each address, in order, without those for addresses seen before. -/
def firstsAfter (seen : List Word) : List (Word × BlockId) → List (Word × BlockId)
  | [] => []
  | e :: es => if seen.contains e.1 then firstsAfter seen es else e :: firstsAfter (e.1 :: seen) es

/-- The first entry for each address, in order. -/
def firsts (es : List (Word × BlockId)) : List (Word × BlockId) := firstsAfter [] es

theorem firstsAfter_snoc (seen : List Word) (es : List (Word × BlockId)) (e : Word × BlockId) :
    firstsAfter seen (es ++ [e]) =
      firstsAfter seen es ++ if e.1 ∈ seen ∨ e.1 ∈ es.map (·.1) then [] else [e] := by
  induction es generalizing seen with
  | nil => simp [firstsAfter]
  | cons x es ih =>
    by_cases hx : x.1 ∈ seen
    · -- an address that was seen adds nothing to what counts as seen
      have hsame : (e.1 ∈ seen ∨ e.1 ∈ (x :: es).map (·.1)) ↔
          (e.1 ∈ seen ∨ e.1 ∈ es.map (·.1)) := by
        rw [List.map_cons, List.mem_cons]
        constructor
        · rintro (h | h | h)
          · exact .inl h
          · exact .inl (h ▸ hx)
          · exact .inr h
        · exact fun h => h.imp id .inr
      simp only [List.cons_append, firstsAfter, List.contains_iff_mem, hx, if_true, ih, hsame]
    · have hsame : (e.1 ∈ x.1 :: seen ∨ e.1 ∈ es.map (·.1)) ↔
          (e.1 ∈ seen ∨ e.1 ∈ (x :: es).map (·.1)) := by
        rw [List.map_cons, List.mem_cons, List.mem_cons]
        tauto
      simp only [List.cons_append, firstsAfter, List.contains_iff_mem, hx, if_false, ih, hsame]

theorem find?_of_mem_firstsAfter {seen : List Word} {es : List (Word × BlockId)}
    {e : Word × BlockId} (h : e ∈ firstsAfter seen es) :
    e.1 ∉ seen ∧ es.find? (·.1 = e.1) = some e := by
  induction es generalizing seen with
  | nil => cases h
  | cons x es ih =>
    simp only [firstsAfter, List.contains_iff_mem] at h
    split at h
    · rename_i hx
      obtain ⟨hseen, hfind⟩ := ih h
      have hne : x.1 ≠ e.1 := fun heq => hseen (heq ▸ hx)
      exact ⟨hseen, by rw [List.find?_cons_of_neg (by simpa using hne), hfind]⟩
    · rename_i hx
      rcases List.mem_cons.1 h with rfl | h
      · exact ⟨hx, by rw [List.find?_cons_of_pos (by simp)]⟩
      · obtain ⟨hseen, hfind⟩ := ih h
        obtain ⟨hne, hnot⟩ := not_or.1 (mt List.mem_cons.2 hseen)
        exact ⟨hnot, by rw [List.find?_cons_of_neg (by simpa using Ne.symm hne), hfind]⟩

theorem nodup_firstsAfter (seen : List Word) (es : List (Word × BlockId)) :
    ((firstsAfter seen es).map (·.1)).Nodup := by
  induction es generalizing seen with
  | nil => exact List.nodup_nil
  | cons x es ih =>
    simp only [firstsAfter]
    split
    · exact ih seen
    · refine List.nodup_cons.2 ⟨?_, ih (x.1 :: seen)⟩
      intro hx
      obtain ⟨e, he, heq⟩ := List.mem_map.1 hx
      exact (find?_of_mem_firstsAfter he).1 (heq ▸ List.mem_cons_self)

/-- A function and the map of its blocks. -/
structure Registry where
  func : Func
  blocks : BlockMap := {}

namespace Registry

open MapEvent

/-- Carry out one use. -/
def call (s : Registry) : MapCall → Registry × MapEvent
  | .request a reason =>
    let (m, f, b) := s.blocks.getOrCreate s.func a reason
    (⟨f, m⟩, .requested a reason b)
  | .enqueue a b => ({ s with blocks := s.blocks.enqueue a b }, .enqueued a b)
  | .next =>
    let (m, e) := s.blocks.next
    ({ s with blocks := m }, .taken e)
  | .addBlock a =>
    let (f, b) := s.func.addBlock a
    ({ s with func := f }, .added a b)

/-- Carry out uses from left to right and log them. -/
def run (s : Registry) : List MapCall → Registry × List MapEvent
  | [] => (s, [])
  | c :: cs =>
    let (s, e) := s.call c
    let (s, es) := run s cs
    (s, e :: es)

/-- What a log says of the state it led to. -/
structure Tracks (es : List MapEvent) (s : Registry) : Prop where
  entry : ∀ a, s.blocks.entries.get? a = ((requests es).find? (·.1 = a)).map (·.2)
  answers : ∀ x ∈ requests es, s.blocks.blockAt x.1 = some x.2.1
  carries : ∀ a b, s.blocks.blockAt a = some b →
    ∃ data, s.func.block? b = some data ∧ data.address = some a
  scheduled : ∀ a, a ∈ s.blocks.scheduled ↔ a ∈ (enqueues es).map (·.1)
  queue : turns es ++ s.blocks.pending = firsts (enqueues es)

theorem tracks_start (f : Func) : Tracks [] ⟨f, {}⟩ where
  entry := fun _ => rfl
  answers := by
    intro x hx
    cases hx
  carries := by
    intro a b h
    cases h
  scheduled := fun _ => Iff.rfl
  queue := rfl

variable {es : List MapEvent} {s : Registry}

/-! ### One use -/

theorem Tracks.request (h : Tracks es s) (a : Word) (reason : Reason) :
    Tracks (es ++ [(s.call (.request a reason)).2]) (s.call (.request a reason)).1 := by
  cases hg : s.blocks.getOrCreate s.func a reason with
  | mk m p =>
    obtain ⟨f, b⟩ := p
    have hcall : s.call (.request a reason) = (⟨f, m⟩, .requested a reason b) := by
      simp only [call, hg]
    have hrequests :
        requests (es ++ [.requested a reason b]) = requests es ++ [(a, b, reason)] := by
      simp [requests, request?]
    have henqueues : enqueues (es ++ [.requested a reason b]) = enqueues es := by
      simp [enqueues, enqueue?]
    have hturns : turns (es ++ [.requested a reason b]) = turns es := by
      simp [turns, turn?]
    have hat := BlockMap.blockAt_of_getOrCreate hg
    obtain ⟨hscheduled, hpending⟩ := BlockMap.queues_getOrCreate hg
    rw [hcall]
    constructor
    case entry =>
      intro c
      rw [hrequests, List.find?_append]
      rcases BlockMap.getOrCreate_cases hg with ⟨hb, rfl, _⟩ | ⟨hnone, _, _, rfl⟩
      · rw [h.entry c]
        cases hfind : (requests es).find? (·.1 = c) with
        | some x => rfl
        | none =>
          -- the address has an entry, so it was requested before
          have hca : a ≠ c := by
            rintro rfl
            rw [BlockMap.blockAt, h.entry a, hfind] at hb
            cases hb
          simp [hca]
      · simp only [Table.get?_insert]
        by_cases hac : a = c
        · subst hac
          have hfind : (requests es).find? (·.1 = a) = none := by
            have hentry := h.entry a
            rw [Option.map_eq_none_iff.1 hnone] at hentry
            exact Option.map_eq_none_iff.1 hentry.symm
          simp [hfind]
        · simp [hac, h.entry c]
    case answers =>
      intro x hx
      rw [hrequests, List.mem_append, List.mem_singleton] at hx
      rcases hx with hx | rfl
      · exact BlockMap.getOrCreate_keeps hg (h.answers x hx)
      · rw [hat, if_pos rfl]
    case carries =>
      intro c d hcd
      rcases BlockMap.getOrCreate_cases hg with ⟨_, rfl, rfl⟩ | ⟨_, rfl, rfl, _⟩
      · exact h.carries c d hcd
      · rw [hat] at hcd
        split at hcd
        · rename_i hac
          cases hcd
          exact ⟨{ address := some a }, by rw [Func.block?_addBlock, if_pos rfl], congrArg some hac⟩
        · obtain ⟨data, hdata, haddr⟩ := h.carries c d hcd
          exact ⟨data, (Func.Grows.addBlock s.func (some a)).block? hdata, haddr⟩
    case scheduled =>
      intro c
      rw [henqueues, hscheduled, h.scheduled]
    case queue => rw [hturns, henqueues, hpending, h.queue]

theorem Tracks.enqueue (h : Tracks es s) (a : Word) (b : BlockId) :
    Tracks (es ++ [(s.call (.enqueue a b)).2]) (s.call (.enqueue a b)).1 := by
  have hrequests : requests (es ++ [.enqueued a b]) = requests es := by simp [requests, request?]
  have henqueues : enqueues (es ++ [.enqueued a b]) = enqueues es ++ [(a, b)] := by
    simp [enqueues, enqueue?]
  have hturns : turns (es ++ [.enqueued a b]) = turns es := by simp [turns, turn?]
  have hentries : (s.blocks.enqueue a b).entries = s.blocks.entries := by
    unfold BlockMap.enqueue
    split <;> rfl
  change Tracks (es ++ [.enqueued a b]) { s with blocks := s.blocks.enqueue a b }
  constructor
  case entry =>
    intro c
    rw [hrequests, hentries, h.entry]
  case answers =>
    intro x hx
    rw [hrequests] at hx
    rw [BlockMap.blockAt_enqueue, h.answers x hx]
  case carries =>
    intro c d hcd
    rw [BlockMap.blockAt_enqueue] at hcd
    exact h.carries c d hcd
  case scheduled =>
    intro c
    rw [BlockMap.mem_scheduled_enqueue, h.scheduled, henqueues]
    simp
  case queue =>
    have hnew : (fresh s.blocks.scheduled [a]).map (fun c => (c, b)) =
        if a ∈ (enqueues es).map (·.1) then [] else [(a, b)] := by
      by_cases hmem : a ∈ s.blocks.scheduled
      · rw [if_pos ((h.scheduled a).1 hmem)]
        simp [fresh, hmem]
      · rw [if_neg (mt (h.scheduled a).2 hmem)]
        simp [fresh, hmem]
    rw [hturns, henqueues, BlockMap.pending_enqueue, ← List.append_assoc, h.queue, hnew, firsts,
      firsts, firstsAfter_snoc]
    simp only [List.not_mem_nil, false_or]

theorem Tracks.next (h : Tracks es s) : Tracks (es ++ [(s.call .next).2]) (s.call .next).1 := by
  have hlog : ∀ e, requests (es ++ [.taken e]) = requests es ∧
      enqueues (es ++ [.taken e]) = enqueues es ∧
      turns (es ++ [.taken e]) = turns es ++ e.toList := by
    intro e
    cases e <;> simp [requests, enqueues, turns, request?, enqueue?, turn?]
  cases hp : s.blocks.pending with
  | nil =>
    have hcall : s.call .next = (s, .taken none) := by
      simp only [call, BlockMap.next, hp]
    obtain ⟨hrequests, henqueues, hturns⟩ := hlog none
    rw [hcall]
    refine ⟨by rw [hrequests]; exact h.entry, by rw [hrequests]; exact h.answers, h.carries,
      by rw [henqueues]; exact h.scheduled, ?_⟩
    rw [hturns, henqueues, Option.toList_none, List.append_nil, h.queue]
  | cons e rest =>
    have hcall : s.call .next = ({ s with blocks := { s.blocks with pending := rest } },
        .taken (some e)) := by
      simp only [call, BlockMap.next, hp]
    obtain ⟨hrequests, henqueues, hturns⟩ := hlog (some e)
    rw [hcall]
    refine ⟨by rw [hrequests]; exact h.entry, by rw [hrequests]; exact h.answers, h.carries,
      by rw [henqueues]; exact h.scheduled, ?_⟩
    rw [hturns, henqueues, Option.toList_some, List.append_assoc, List.singleton_append, ← hp,
      h.queue]

theorem Tracks.addBlock (h : Tracks es s) (a : Option Word) :
    Tracks (es ++ [(s.call (.addBlock a)).2]) (s.call (.addBlock a)).1 := by
  have hcall : s.call (.addBlock a) =
      ({ s with func := (s.func.addBlock a).1 }, .added a (s.func.addBlock a).2) := rfl
  obtain ⟨hrequests, henqueues, hturns⟩ :
      requests (es ++ [.added a (s.func.addBlock a).2]) = requests es ∧
      enqueues (es ++ [.added a (s.func.addBlock a).2]) = enqueues es ∧
      turns (es ++ [.added a (s.func.addBlock a).2]) = turns es := by
    simp [requests, enqueues, turns, request?, enqueue?, turn?]
  rw [hcall]
  constructor
  case entry => rw [hrequests]; exact h.entry
  case answers => rw [hrequests]; exact h.answers
  case carries =>
    intro c d hcd
    obtain ⟨data, hdata, haddr⟩ := h.carries c d hcd
    exact ⟨data, (Func.Grows.addBlock s.func a).block? hdata, haddr⟩
  case scheduled => rw [henqueues]; exact h.scheduled
  case queue => rw [hturns, henqueues]; exact h.queue

theorem Tracks.call (h : Tracks es s) (c : MapCall) :
    Tracks (es ++ [(s.call c).2]) (s.call c).1 := by
  cases c with
  | request a reason => exact h.request a reason
  | enqueue a b => exact h.enqueue a b
  | next => exact h.next
  | addBlock a => exact h.addBlock a

/-! ### A whole run -/

theorem Tracks.run (h : Tracks es s) (cs : List MapCall) :
    Tracks (es ++ (s.run cs).2) (s.run cs).1 := by
  induction cs generalizing es s with
  | nil => simpa [Registry.run] using h
  | cons c cs ih =>
    have := ih (h.call c)
    rwa [List.append_assoc, List.singleton_append] at this

theorem tracks_run (f : Func) (cs : List MapCall) :
    Tracks ((Registry.mk f {}).run cs).2 ((Registry.mk f {}).run cs).1 := by
  simpa using (tracks_start f).run cs

/-- The answers to two requests agree exactly when their addresses do. -/
theorem Tracks.answers_iff (h : Tracks es s) {x y : Word × BlockId × Reason}
    (hx : x ∈ requests es) (hy : y ∈ requests es) : x.2.1 = y.2.1 ↔ x.1 = y.1 := by
  constructor
  · intro heq
    -- a block carries one address
    obtain ⟨data, hdata, haddr⟩ := h.carries x.1 x.2.1 (h.answers x hx)
    obtain ⟨data', hdata', haddr'⟩ := h.carries y.1 y.2.1 (h.answers y hy)
    rw [← heq, hdata] at hdata'
    cases hdata'
    exact Option.some.inj (haddr.symm.trans haddr')
  · intro heq
    have hxy := h.answers y hy
    rw [← heq, h.answers x hx] at hxy
    exact Option.some.inj hxy

theorem Tracks.reason (h : Tracks es s) (a : Word) :
    s.blocks.reason a = ((requests es).find? (·.1 = a)).map (·.2.2) := by
  rw [BlockMap.reason, h.entry, Option.map_map]
  rfl

/-- What was taken is what was first queued for its address. -/
theorem Tracks.turn (h : Tracks es s) {e : Word × BlockId} (he : e ∈ turns es) :
    (enqueues es).find? (·.1 = e.1) = some e := by
  have hfirst : e ∈ firsts (enqueues es) := h.queue ▸ List.mem_append_left _ he
  exact (find?_of_mem_firstsAfter hfirst).2

theorem Tracks.nodup_turns (h : Tracks es s) : ((turns es).map (·.1)).Nodup := by
  have hall := nodup_firstsAfter [] (enqueues es)
  rw [← firsts, ← h.queue, List.map_append] at hall
  exact hall.sublist (List.sublist_append_left _ _)

/-- Taking answers the first of the first queueings that has had no turn. -/
theorem Tracks.call_next (h : Tracks es s) :
    (s.call .next).2 = .taken (firsts (enqueues es))[(turns es).length]? := by
  rw [← h.queue, List.getElem?_append_right (Nat.le_refl _), Nat.sub_self]
  cases hp : s.blocks.pending with
  | nil => simp only [Registry.call, BlockMap.next, hp, List.getElem?_nil]
  | cons e rest => simp only [Registry.call, BlockMap.next, hp, List.getElem?_cons_zero]

/-- However the uses of a new map are interleaved, an address has the block and the reason of its
first request, and the turn and the block of its first queueing. -/
theorem run_keeps_one_turn (f : Func) (cs : List MapCall) :
    let s := ((Registry.mk f {}).run cs).1
    let es := ((Registry.mk f {}).run cs).2
    (∀ x ∈ requests es, ∀ y ∈ requests es, x.2.1 = y.2.1 ↔ x.1 = y.1) ∧
    (∀ x ∈ requests es, s.blocks.blockAt x.1 = some x.2.1 ∧
      ∃ data, s.func.block? x.2.1 = some data ∧ data.address = some x.1) ∧
    (∀ a, s.blocks.reason a = ((requests es).find? (·.1 = a)).map (·.2.2)) ∧
    turns es ++ s.blocks.pending = firsts (enqueues es) ∧
    ((turns es).map (·.1)).Nodup ∧
    (∀ e ∈ turns es, (enqueues es).find? (·.1 = e.1) = some e) ∧
    (s.call .next).2 = .taken (firsts (enqueues es))[(turns es).length]? := by
  intro s es
  have h : Tracks es s := tracks_run f cs
  exact ⟨fun _ hx _ hy => h.answers_iff hx hy,
    fun x hx => ⟨h.answers x hx, h.carries x.1 x.2.1 (h.answers x hx)⟩,
    h.reason, h.queue, h.nodup_turns, fun _ he => h.turn he, h.call_next⟩

/-- An address that is queued again after its turn gets no other. -/
example : turns ((Registry.mk { name := "f" } {}).run
    [.enqueue 4 ⟨0⟩, .next, .enqueue 4 ⟨1⟩, .enqueue 8 ⟨1⟩, .next, .next]).2 =
      [(4, ⟨0⟩), (8, ⟨1⟩)] := by
  decide

end Registry

end BinaryLift
