import Dotenv.Proofs.Keyed
import Dotenv.Proofs.Secret.Traffic
/-!
# Requests and fetches interleaved

Traffic around a coalescer in its smallest steps. A request looks at the cache and joins a window in
two steps, and anything may happen between them. A batch that the fetcher refuses is handed over
again, one key at a time, and nobody looks at the cache before. The reply for each key is kept, and
its requests are answered, in a step of its own.

Every step of `Traffic` is a run of these steps. From the moment at which a value is kept for a key,
the fetcher is handed the key only for requests that had found nothing at hand before that moment,
and at most twice for each of them.
-/

set_option autoImplicit false

namespace Dotenv

inductive Flight where
  | whole (batch : Batch Nat)
  /-- The batch was refused as a whole, and `left` of it was not handed over again yet. -/
  | singly (batch left : Batch Nat)
  /-- The replies are there, and `left` is still to be answered. -/
  | ended (left : Batch Nat) (replies : Text → Reply)

def Flight.retriable : Flight → Batch Nat
  | whole batch => if 1 < batch.length then batch else []
  | singly _ left => left
  | ended _ _ => []

inductive Move where
  | look (key : Text)
  | join (key : Text) (ticket : Nat)
  | fire (batch : Batch Nat)
  | refuse (batch : Batch Nat)
  | retry (key : Text) (tickets : List Nat)
  | finish (batch : Batch Nat) (replies : Text → Reply)
  | deliver (key : Text) (tickets : List Nat) (reply : Reply)

def Move.handed : Move → Batch Nat
  | fire batch => batch
  | retry key tickets => [(key, tickets)]
  | _ => []

structure Interleaving where
  coalescer : Coalescer Nat
  timers : Nat
  /-- The requests that found nothing at hand and have not joined a window yet. -/
  undecided : List (Text × Nat)
  flights : List Flight
  answered : List (Nat × Reply)
  /-- The key of every request so far; its ticket is its place. -/
  asked : List Text

namespace Interleaving

def idle (keeps : Bool) : Interleaving := ⟨.new keeps, 0, [], [], [], []⟩

/-- A batch in flight, in some state; one that has no requests left is gone. -/
def flying (state : Batch Nat → Flight) (batch : Batch Nat) : List Flight :=
  (Traffic.begun batch).map state

/-- The steps. Nothing is asked of the fetcher: it may refuse what it likes and reply what it
likes. -/
inductive Step (course : Interleaving) : Move → Interleaving → Prop
  | found (key : Text) {value : Value} (atHand : course.coalescer.held? key = some value) :
      Step course (.look key)
        { course with
          asked := course.asked ++ [key]
          answered := course.answered ++ [(course.asked.length, .ok value)] }
  | missed (key : Text) (absent : course.coalescer.held? key = none) :
      Step course (.look key)
        { course with
          asked := course.asked ++ [key]
          undecided := course.undecided ++ [(key, course.asked.length)] }
  | joined {key : Text} {ticket : Nat} (front back : List (Text × Nat)) {opens : Bool}
      {coalescer : Coalescer Nat} (waits : course.undecided = front ++ (key, ticket) :: back)
      (entered : course.coalescer.enter key ticket = (opens, coalescer)) :
      Step course (.join key ticket)
        { course with
          coalescer, timers := course.timers + opens.toNat, undecided := front ++ back }
  | fired {batch : Batch Nat} {coalescer : Coalescer Nat} (runs : 0 < course.timers)
      (flushed : course.coalescer.flush = (batch, coalescer)) :
      Step course (.fire batch)
        { course with
          coalescer, timers := course.timers - 1
          flights := course.flights ++ flying .whole batch }
  | refused {batch : Batch Nat} (front back : List Flight)
      (flies : course.flights = front ++ .whole batch :: back) (several : 1 < batch.length) :
      Step course (.refuse batch)
        { course with flights := front ++ .singly batch batch :: back }
  | retried {batch : Batch Nat} {key : Text} {tickets : List Nat} (front back : List Flight)
      (before after : Batch Nat)
      (flies : course.flights =
        front ++ .singly batch (before ++ (key, tickets) :: after) :: back) :
      Step course (.retry key tickets)
        { course with flights := front ++ .singly batch (before ++ after) :: back }
  | finished {batch : Batch Nat} {flight : Flight} (front back : List Flight)
      (replies : Text → Reply) (flies : course.flights = front ++ flight :: back)
      (all : flight = .whole batch ∨ flight = .singly batch []) :
      Step course (.finish batch replies)
        { course with flights := front ++ (flying (.ended · replies) batch ++ back) }
  | delivered {key : Text} {tickets : List Nat} {rest : Batch Nat} {replies : Text → Reply}
      (front back : List Flight)
      (flies : course.flights = front ++ .ended ((key, tickets) :: rest) replies :: back) :
      Step course (.deliver key tickets (replies key))
        { course with
          coalescer := { course.coalescer with
            cache := course.coalescer.cache.map (Coalescer.keep key (replies key)) }
          flights := front ++ (flying (.ended · replies) rest ++ back)
          answered := course.answered ++ tickets.map fun ticket => (ticket, replies key) }

inductive Run (first : Interleaving) : List Move → Interleaving → Prop
  | start : Run first [] first
  | step {moves : List Move} {course next : Interleaving} {move : Move}
      (before : Run first moves course) (taken : Step course move next) :
      Run first (moves ++ [move]) next

variable {first course next : Interleaving} {move : Move} {moves : List Move} {key : Text}

theorem Run.append {later : List Move} (ran : Run first moves course)
    (went : Run course later next) : Run first (moves ++ later) next := by
  induction went with
  | start =>
    rw [List.append_nil]
    exact ran
  | step before taken ih =>
    rw [← List.append_assoc]
    exact .step ih taken

/-! ## Coarser steps -/

/-- Traffic between two of its steps: no request is undecided, no batch was refused, and none is
half answered. -/
def ofTraffic (traffic : Traffic) : Interleaving :=
  { coalescer := traffic.coalescer, timers := traffic.timers, undecided := []
    flights := traffic.inFlight.map .whole, answered := traffic.answered, asked := traffic.asked }

theorem run_deliver (replies : Text → Reply) (batch : Batch Nat) (course : Interleaving)
    (front back : List Flight)
    (flies : course.flights = front ++ (flying (.ended · replies) batch ++ back)) :
    ∃ moves, Run course moves
      { course with
        coalescer := (course.coalescer.complete batch replies).2
        flights := front ++ back
        answered := course.answered ++ Coalescer.answers batch replies } := by
  induction batch generalizing course with
  | nil =>
    have unchanged : course.coalescer.cache.map (Coalescer.keepAll [] replies) =
        course.coalescer.cache := Option.map_id_apply
    have gone : course.flights = front ++ back := flies
    refine ⟨[], ?_⟩
    simp only [Coalescer.complete, Keyed.keys, List.map_nil, unchanged, Coalescer.answers,
      List.flatMap_nil, List.append_nil, ← gone]
    exact .start
  | cons entry rest ih =>
    obtain ⟨key, tickets⟩ := entry
    have delivers : Step course (.deliver key tickets (replies key)) _ :=
      .delivered front back flies
    obtain ⟨moves, ran⟩ := ih { course with
      coalescer := { course.coalescer with
        cache := course.coalescer.cache.map (Coalescer.keep key (replies key)) }
      flights := front ++ (flying (.ended · replies) rest ++ back)
      answered := course.answered ++ tickets.map fun ticket => (ticket, replies key) } rfl
    refine ⟨[.deliver key tickets (replies key)] ++ moves, (Run.step .start delivers).append ?_⟩
    simp only [Coalescer.complete, Option.map_map, List.append_assoc] at ran ⊢
    exact ran

theorem run_of_step {fetches : List Text → (Text → Reply) → Prop} {traffic next : Traffic}
    {incident : Incident} (taken : Traffic.Step fetches traffic incident next) :
    ∃ moves, Run (ofTraffic traffic) moves (ofTraffic next) := by
  cases taken with
  | held key got =>
    obtain ⟨atHand, rfl⟩ := Coalescer.held_of_get got
    exact ⟨_, .step .start (.found key atHand)⟩
  | joined key got =>
    have absent : traffic.coalescer.held? key = none := by
      unfold Coalescer.get at got
      split at got
      · cases got
      · assumption
    obtain ⟨rfl, rfl⟩ := Coalescer.joined_of_get got
    have missed : Step (ofTraffic traffic) (.look key) _ := .missed key absent
    exact ⟨_, .step (.step .start missed) (.joined [] [] rfl rfl)⟩
  | fired runs flushed =>
    rename_i batch coalescer
    have fires : Step (ofTraffic traffic) (.fire batch) _ := .fired runs flushed
    refine ⟨[.fire batch], .step .start ?_⟩
    simp only [ofTraffic, flying, List.map_append] at fires ⊢
    exact fires
  | finished front back replies flies fetched completed =>
    rename_i batch answers coalescer
    have flown : (ofTraffic traffic).flights =
        front.map .whole ++ .whole batch :: back.map .whole := by
      simp [ofTraffic, flies]
    have finishes : Step (ofTraffic traffic) (.finish batch replies) _ :=
      .finished _ _ replies flown (.inl rfl)
    obtain ⟨moves, ran⟩ := run_deliver replies batch
      { ofTraffic traffic with
        flights := front.map .whole ++ (flying (.ended · replies) batch ++ back.map .whole) }
      _ _ rfl
    refine ⟨[.finish batch replies] ++ moves, (Run.step .start finishes).append ?_⟩
    cases completed
    simp only [ofTraffic, List.map_append] at ran ⊢
    exact ran

/-! ## What is at hand -/

theorem Step.held?_isSome (taken : Step course move next)
    (atHand : (course.coalescer.held? key).isSome = true) :
    (next.coalescer.held? key).isSome = true := by
  cases taken with
  | found other found => exact atHand
  | missed other absent => exact atHand
  | joined front back waits entered =>
    cases entered
    exact atHand
  | fired runs flushed =>
    cases flushed
    exact atHand
  | refused front back flies several => exact atHand
  | retried front back before after flies => exact atHand
  | finished front back replies flies all => exact atHand
  | delivered front back flies =>
    unfold Coalescer.held? at atHand ⊢
    cases kept : course.coalescer.cache with
    | none =>
      rw [kept] at atHand
      cases atHand
    | some entries =>
      rw [kept] at atHand
      change (entries.get? key).isSome = true at atHand
      change ((Coalescer.keep _ _ entries).get? key).isSome = true
      rw [Coalescer.get?_keep, Option.isSome_or, atHand, Bool.or_true]

theorem Run.held?_isSome (ran : Run first moves course)
    (atHand : (first.coalescer.held? key).isSome = true) :
    (course.coalescer.held? key).isSome = true := by
  induction ran with
  | start => exact atHand
  | step before taken ih => exact taken.held?_isSome ih

def handable (course : Interleaving) : Batch Nat :=
  course.coalescer.waiting ++ course.flights.flatMap Flight.retriable

def pending (course : Interleaving) : List (Text × Nat) :=
  course.undecided ++ Coalescer.requests course.handable

/-- How often the fetcher may still be handed a key at most: for each undecided request, and for
those that wait, in the batch of a window and then alone; for a batch in flight alone. -/
def chances (key : Text) (course : Interleaving) : Nat :=
  2 * (course.undecided.map Prod.fst).count key + 2 * course.coalescer.waiting.keys.count key +
    (Keyed.keys (course.flights.flatMap Flight.retriable)).count key

theorem retriable_flying_whole (batch : Batch Nat) :
    (flying .whole batch).flatMap Flight.retriable = if 1 < batch.length then batch else [] := by
  cases batch with
  | nil => rfl
  | cons entry rest => simp [flying, Traffic.begun, Flight.retriable]

theorem retriable_flying_ended (batch : Batch Nat) (replies : Text → Reply) :
    (flying (.ended · replies) batch).flatMap Flight.retriable = [] := by
  cases batch <;> rfl

/-- What a step does to the requests that a batch may still be formed for: one of them joins the
window, or a request that found nothing is new. Nothing else is added, and the fetcher is handed
what was there. -/
theorem Step.handable (taken : Step course move next) :
    (∃ key ticket front back, move = .join key ticket ∧
      course.undecided = front ++ (key, ticket) :: back ∧ next.undecided = front ++ back ∧
      next.handable = Coalescer.join key ticket course.coalescer.waiting ++
        course.flights.flatMap Flight.retriable) ∨
    (move.handed ++ next.handable ⊆ course.handable ∧
      (next.undecided = course.undecided ∨
        ∃ key, course.coalescer.held? key = none ∧
          next.undecided = course.undecided ++ [(key, course.asked.length)])) := by
  cases taken with
  | found other found => exact .inr ⟨List.Subset.refl _, .inl rfl⟩
  | missed other absent => exact .inr ⟨List.Subset.refl _, .inr ⟨other, absent, rfl⟩⟩
  | joined front back waits entered =>
    cases entered
    exact .inl ⟨_, _, front, back, rfl, waits, rfl, rfl⟩
  | fired runs flushed =>
    cases flushed
    refine .inr ⟨?_, .inl rfl⟩
    intro entry member
    simp only [Move.handed, Interleaving.handable, List.nil_append, List.flatMap_append,
      retriable_flying_whole, List.mem_append] at member ⊢
    rcases member with waits | flies | again
    · exact .inl waits
    · exact .inr flies
    · split at again
      · exact .inl again
      · cases again
  | refused front back flies several =>
    refine .inr ⟨?_, .inl rfl⟩
    simp [Move.handed, Interleaving.handable, flies, Flight.retriable, several]
  | retried front back before after flies =>
    refine .inr ⟨?_, .inl rfl⟩
    intro entry member
    simp only [Move.handed, Interleaving.handable, flies, List.flatMap_append, List.flatMap_cons,
      Flight.retriable, List.mem_append, List.mem_cons, List.not_mem_nil, or_false] at member ⊢
    tauto
  | finished front back replies flies all =>
    refine .inr ⟨?_, .inl rfl⟩
    intro entry member
    simp only [Move.handed, Interleaving.handable, flies, List.flatMap_append, List.flatMap_cons,
      retriable_flying_ended, List.mem_append, List.not_mem_nil, false_or] at member ⊢
    tauto
  | delivered front back flies =>
    refine .inr ⟨?_, .inl rfl⟩
    simp [Move.handed, Interleaving.handable, flies, retriable_flying_ended, Flight.retriable]

theorem requests_subset {batch other : Batch Nat} (subset : batch ⊆ other) :
    Coalescer.requests batch ⊆ Coalescer.requests other := by
  intro request member
  obtain ⟨entry, inBatch, isRequest⟩ := List.mem_flatMap.mp member
  exact List.mem_flatMap.mpr ⟨entry, subset inBatch, isRequest⟩

theorem requests_append (batch other : Batch Nat) :
    Coalescer.requests (batch ++ other) =
      Coalescer.requests batch ++ Coalescer.requests other :=
  List.flatMap_append

/-- With the value of a key at hand, no request is added to those for which the fetcher may be handed
the key, and it is handed the key for no other. -/
theorem Step.pending (taken : Step course move next)
    (atHand : (course.coalescer.held? key).isSome = true) (ticket : Nat)
    (member : (key, ticket) ∈ Coalescer.requests move.handed ++ next.pending) :
    (key, ticket) ∈ course.pending := by
  rcases taken.handable with ⟨other, joining, front, back, rfl, before, after, handable⟩ |
    ⟨subset, undecided⟩
  · -- The request that joins is as much pending in the window as it was undecided.
    have joins := (Coalescer.requests_join other joining course.coalescer.waiting).mem_iff
      (a := (key, ticket))
    have here : course.handable =
        course.coalescer.waiting ++ course.flights.flatMap Flight.retriable := rfl
    have nothing : Coalescer.requests (Move.join other joining).handed = [] := rfl
    simp only [Interleaving.pending, nothing, before, after, here, handable, requests_append, joins,
      List.nil_append, List.mem_append, List.mem_cons] at member ⊢
    tauto
  · have stays := requests_subset subset
    rw [requests_append, List.append_subset] at stays
    have isNew : ∀ other, course.coalescer.held? other = none →
        (key, ticket) ≠ (other, course.asked.length) := by
      rintro _ absent ⟨⟩
      rw [absent] at atHand
      cases atHand
    simp only [Interleaving.pending, List.mem_append] at member ⊢
    rcases member with handed | wasUndecided | goesOn
    · exact .inr (stays.1 handed)
    · rcases undecided with same | ⟨other, absent, more⟩
      · exact .inl (same ▸ wasUndecided)
      · rw [more] at wasUndecided
        rcases List.mem_append.mp wasUndecided with earlier | now
        · exact .inl earlier
        · exact absurd (List.mem_singleton.mp now) (isNew other absent)
    · exact .inr (stays.2 goesOn)

theorem Run.pending (ran : Run first moves course)
    (atHand : (first.coalescer.held? key).isSome = true) (ticket : Nat)
    (member : (key, ticket) ∈ course.pending) : (key, ticket) ∈ first.pending := by
  induction ran with
  | start => exact member
  | step before taken ih =>
    exact ih (taken.pending (before.held?_isSome atHand) ticket (List.mem_append_right _ member))

def Filled (course : Interleaving) : Prop := ∀ entry ∈ course.handable, entry.2 ≠ []

theorem filled_join (other : Text) (ticket : Nat) (batch : Batch Nat)
    (filled : ∀ entry ∈ batch, entry.2 ≠ []) :
    ∀ entry ∈ Coalescer.join other ticket batch, entry.2 ≠ [] := by
  induction batch with
  | nil =>
    intro entry member
    rw [List.mem_singleton.mp member]
    exact List.cons_ne_nil ticket []
  | cons entry rest ih =>
    obtain ⟨key, tickets⟩ := entry
    obtain ⟨_, more⟩ := List.forall_mem_cons.mp filled
    rw [Coalescer.join_cons]
    split
    · exact List.forall_mem_cons.mpr ⟨by simp, more⟩
    · exact List.forall_mem_cons.mpr ⟨filled _ List.mem_cons_self, ih more⟩

theorem Filled.step (filled : course.Filled) (taken : Step course move next) :
    ∀ entry ∈ move.handed ++ next.handable, entry.2 ≠ [] := by
  rcases taken.handable with ⟨other, ticket, _, _, rfl, _, _, handable⟩ | ⟨subset, _⟩
  · obtain ⟨waiting, flights⟩ := List.forall_mem_append.mp filled
    rw [handable]
    refine List.forall_mem_append.mpr ⟨?_, List.forall_mem_append.mpr ⟨?_, flights⟩⟩
    · rintro _ ⟨⟩
    · exact filled_join other ticket _ waiting
  · exact fun entry member => filled entry (subset member)

theorem Run.filled {keeps : Bool} (ran : Run (idle keeps) moves course) : course.Filled := by
  induction ran with
  | start =>
    intro entry member
    cases member
  | step before taken ih =>
    exact fun entry member => ih.step taken entry (List.mem_append_right _ member)

/-! ## How often a key is handed over -/

theorem count_keys_join (other key : Text) (ticket : Nat) (batch : Batch Nat) :
    (Coalescer.join other ticket batch).keys.count key ≤
      (Keyed.keys batch).count key + [other].count key := by
  induction batch with
  | nil => exact Nat.le_add_left _ _
  | cons entry rest ih =>
    obtain ⟨first, tickets⟩ := entry
    rw [Coalescer.join_cons]
    split
    · exact Nat.le_add_right _ _
    · simp only [Keyed.keys, List.map_cons, List.count_cons] at ih ⊢
      omega

theorem keys_append (batch other : Batch Nat) :
    Keyed.keys (batch ++ other) = Keyed.keys batch ++ Keyed.keys other := List.map_append

theorem Step.chances (taken : Step course move next)
    (atHand : (course.coalescer.held? key).isSome = true) :
    move.handed.keys.count key + next.chances key ≤ course.chances key := by
  unfold Interleaving.chances
  cases taken with
  | found other found => exact (Nat.zero_add _).le
  | missed other absent =>
    have differs : other ≠ key := by
      rintro rfl
      rw [absent] at atHand
      cases atHand
    simp [Move.handed, Keyed.keys, differs]
  | @joined other ticket front back _ _ waits entered =>
    cases entered
    have joins := count_keys_join other key ticket course.coalescer.waiting
    simp only [waits, Move.handed, List.map_append, List.map_cons, List.count_append,
      List.count_cons, List.count_nil, Keyed.keys, List.map_nil] at joins ⊢
    omega
  | fired runs flushed =>
    cases flushed
    have again : (Keyed.keys (if 1 < course.coalescer.waiting.length then course.coalescer.waiting
        else [])).count key ≤ course.coalescer.waiting.keys.count key := by
      split
      · exact Nat.le_refl _
      · exact Nat.zero_le _
    simp only [Move.handed, List.flatMap_append, retriable_flying_whole, keys_append,
      List.count_append]
    have closed : (Keyed.keys ([] : Batch Nat)).count key = 0 := rfl
    rw [closed]
    omega
  | refused front back flies several =>
    simp [Move.handed, flies, Flight.retriable, several, Keyed.keys]
  | retried front back before after flies =>
    simp only [Move.handed, flies, List.flatMap_append, List.flatMap_cons, Flight.retriable,
      Keyed.keys, List.map_append, List.map_cons, List.map_nil, List.count_append,
      List.count_cons, List.count_nil]
    omega
  | finished front back replies flies all =>
    simp only [Move.handed, flies, List.flatMap_append, List.flatMap_cons, retriable_flying_ended,
      Keyed.keys, List.map_append, List.map_nil, List.count_append, List.count_nil]
    omega
  | delivered front back flies =>
    simp [Move.handed, flies, retriable_flying_ended, Flight.retriable, Keyed.keys]

theorem Run.chances (ran : Run first moves course)
    (atHand : (first.coalescer.held? key).isSome = true) :
    (moves.flatMap fun move => move.handed.keys).count key + course.chances key ≤
      first.chances key := by
  induction ran with
  | start => exact (Nat.zero_add _).le
  | @step moves course next move before taken ih =>
    have step := taken.chances (before.held?_isSome atHand)
    simp only [List.flatMap_append, List.flatMap_singleton, List.count_append]
    omega

structure AnswersAtOnce (course next : Interleaving) (value : Value) : Prop where
  coalescer : next.coalescer = course.coalescer
  undecided : next.undecided = course.undecided
  answered : next.answered = course.answered ++ [(course.asked.length, .ok value)]

end Interleaving

end Dotenv
