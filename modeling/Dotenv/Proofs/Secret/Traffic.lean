import Dotenv.Resolver.Secret
import Mathlib.Data.List.Nodup
import Mathlib.Data.List.Range
/-!
# Traffic around a coalescer

A coalescer while requests come in, windows close and fetches end, in any order: a fetch may end
after any number of other steps. Requests are numbered in the order in which they are made, and the
number is the ticket. The invariant says where a request is (it waits, or is in one batch, or was
answered) and that a timer runs just while a window is open.
-/

set_option autoImplicit false

namespace Dotenv

namespace Coalescer

variable {Ticket : Type}

def requests (batch : Batch Ticket) : List (Text × Ticket) :=
  batch.flatMap fun entry => entry.2.map fun ticket => (entry.1, ticket)

/-! ## Joining a batch -/

section
variable (key : Text) (ticket : Ticket) (batch : Batch Ticket)

theorem join_cons (other : Text) (tickets : List Ticket) :
    join key ticket ((other, tickets) :: batch) =
      if other = key then (other, tickets ++ [ticket]) :: batch
      else (other, tickets) :: join key ticket batch := by
  by_cases same : other = key
  · simp [join, Keyed.set, Keyed.get?, same]
  · simp [join, Keyed.set, Keyed.get?, same]

theorem requests_join :
    (requests (join key ticket batch)).Perm ((key, ticket) :: requests batch) := by
  induction batch with
  | nil => exact .refl _
  | cons entry rest ih =>
    obtain ⟨other, tickets⟩ := entry
    rw [join_cons]
    split
    · rename_i same
      subst same
      simp only [requests, List.flatMap_cons, List.map_append, List.map_cons, List.map_nil,
        List.append_assoc, List.singleton_append]
      exact List.perm_middle
    · simp only [requests, List.flatMap_cons] at ih ⊢
      exact (ih.append_left _).trans List.perm_middle

theorem mem_keys_join (other : Text) :
    other ∈ (join key ticket batch).keys ↔ other = key ∨ other ∈ Keyed.keys batch := by
  induction batch with
  | nil => simp [join, Keyed.set, Keyed.keys]
  | cons entry rest ih =>
    obtain ⟨first, tickets⟩ := entry
    rw [join_cons]
    split
    · rename_i same
      simp [Keyed.keys, same]
    · simp only [Keyed.keys, List.map_cons, List.mem_cons] at ih ⊢
      rw [ih]
      exact or_left_comm

theorem nodup_keys_join (distinct : (Keyed.keys batch).Nodup) :
    (join key ticket batch).keys.Nodup := by
  induction batch with
  | nil => exact List.nodup_singleton key
  | cons entry rest ih =>
    obtain ⟨first, tickets⟩ := entry
    obtain ⟨absent, restDistinct⟩ := List.nodup_cons.mp distinct
    rw [join_cons]
    split
    · exact distinct
    · rename_i differs
      refine List.nodup_cons.mpr ⟨?_, ih restDistinct⟩
      rw [← Keyed.keys, mem_keys_join]
      rintro (same | present)
      · exact differs same
      · exact absent present

theorem join_ne_nil : join key ticket batch ≠ [] := by
  intro none
  have member := (mem_keys_join key ticket batch key).mpr (Or.inl rfl)
  rw [none] at member
  cases member

end

/-! ## Asking -/

theorem held_of_get {coalescer next : Coalescer Ticket} {key : Text} {ticket : Ticket}
    {value : Value} (got : coalescer.get key ticket = (.held value, next)) :
    coalescer.held? key = some value ∧ next = coalescer := by
  unfold get at got
  split at got
  · rename_i atHand found
    cases got
    exact ⟨found, rfl⟩
  · cases got

theorem joined_of_get {coalescer next : Coalescer Ticket} {key : Text} {ticket : Ticket}
    {opens : Bool} (got : coalescer.get key ticket = (.joined opens, next)) :
    opens = !coalescer.scheduled ∧
      next = { coalescer with
        waiting := join key ticket coalescer.waiting, scheduled := true } := by
  unfold get at got
  split at got
  · cases got
  · cases got
    exact ⟨rfl, rfl⟩

/-! ## Answering a batch -/

theorem mem_answers (batch : Batch Ticket) (replies : Text → Reply) (ticket : Ticket)
    (reply : Reply) :
    (ticket, reply) ∈ answers batch replies ↔
      ∃ key, (key, ticket) ∈ requests batch ∧ reply = replies key := by
  simp only [answers, requests, List.mem_flatMap, List.mem_map, Prod.mk.injEq]
  constructor
  · rintro ⟨⟨key, tickets⟩, present, _, member, rfl, rfl⟩
    exact ⟨key, ⟨_, present, _, member, rfl, rfl⟩, rfl⟩
  · rintro ⟨key, ⟨entry, present, _, member, rfl, rfl⟩, rfl⟩
    exact ⟨entry, present, _, member, rfl, rfl⟩

theorem tickets_answers (batch : Batch Ticket) (replies : Text → Reply) :
    (answers batch replies).map Prod.fst = (requests batch).map Prod.snd := by
  simp only [answers, requests, List.map_flatMap, List.map_map, Function.comp_def, List.map_id']

theorem get?_keep (first key : Text) (reply : Reply) (cache : Keyed Value) :
    (keep first reply cache).get? key =
      (if key = first then reply.toOption else none).or (cache.get? key) := by
  unfold keep
  cases reply with
  | ok value =>
    rw [Keyed.get?_set]
    by_cases same : key = first
    · rw [if_pos same, if_pos same.symm]
      rfl
    · rw [if_neg same, if_neg (Ne.symm same)]
      rfl
  | error error => by_cases same : key = first <;> simp [same, Except.toOption]

theorem get?_keepAll (keys : List Text) (replies : Text → Reply) (cache : Keyed Value)
    (key : Text) :
    (keepAll keys replies cache).get? key =
      (if key ∈ keys then (replies key).toOption else none).or (cache.get? key) := by
  induction keys generalizing cache with
  | nil => rfl
  | cons first rest ih =>
    refine (ih _).trans ?_
    have kept : (keep first (replies first) cache).get? key =
        (if key = first then (replies key).toOption else none).or (cache.get? key) := by
      rw [get?_keep]
      by_cases same : key = first
      · rw [if_pos same, if_pos same, same]
      · rw [if_neg same, if_neg same]
    rw [kept]
    by_cases inRest : key ∈ rest
    · rw [if_pos inRest, if_pos (List.mem_cons_of_mem first inRest)]
      by_cases same : key = first
      · cases replies key <;> simp [same, Except.toOption]
      · rw [if_neg same]
        rfl
    · rw [if_neg inRest]
      by_cases same : key = first <;> simp [same, inRest]

end Coalescer

/-! ## Steps -/

structure Traffic where
  coalescer : Coalescer Nat
  timers : Nat
  /-- The batches whose fetches have begun and not ended. -/
  inFlight : List (Batch Nat)
  answered : List (Nat × Reply)
  /-- The key of every request so far; its ticket is its place. -/
  asked : List Text
  /-- The keys that joined a window since one was closed last. -/
  recent : List Text

inductive Incident where
  | request (key : Text)
  | fire
  | finish (batch : Batch Nat) (replies : Text → Reply)

namespace Traffic

def idle (keeps : Bool) : Traffic := ⟨.new keeps, 0, [], [], [], []⟩

/-- The batches that a closed window gives: an empty one is not fetched. -/
def begun (batch : Batch Nat) : List (Batch Nat) := if batch = [] then [] else [batch]

/-- What an incident leads to. A fetch of a list of keys may end with any replies that `fetches`
allows for that list. -/
inductive Step (fetches : List Text → (Text → Reply) → Prop) (traffic : Traffic) :
    Incident → Traffic → Prop
  /-- The value is at hand, and the request is answered at once. -/
  | held (key : Text) {value : Value} {coalescer : Coalescer Nat}
      (got : traffic.coalescer.get key traffic.asked.length = (.held value, coalescer)) :
      Step fetches traffic (.request key)
        { traffic with
          coalescer, asked := traffic.asked ++ [key]
          answered := traffic.answered ++ [(traffic.asked.length, .ok value)] }
  | joined (key : Text) {opens : Bool} {coalescer : Coalescer Nat}
      (got : traffic.coalescer.get key traffic.asked.length = (.joined opens, coalescer)) :
      Step fetches traffic (.request key)
        { traffic with
          coalescer, timers := traffic.timers + opens.toNat
          asked := traffic.asked ++ [key], recent := traffic.recent ++ [key] }
  | fired {batch : Batch Nat} {coalescer : Coalescer Nat} (runs : 0 < traffic.timers)
      (flushed : traffic.coalescer.flush = (batch, coalescer)) :
      Step fetches traffic .fire
        { traffic with
          coalescer, timers := traffic.timers - 1
          inFlight := traffic.inFlight ++ begun batch, recent := [] }
  | finished {batch : Batch Nat} (front back : List (Batch Nat)) (replies : Text → Reply)
      {answers : List (Nat × Reply)} {coalescer : Coalescer Nat}
      (flies : traffic.inFlight = front ++ batch :: back) (fetched : fetches batch.keys replies)
      (completed : traffic.coalescer.complete batch replies = (answers, coalescer)) :
      Step fetches traffic (.finish batch replies)
        { traffic with
          coalescer, inFlight := front ++ back, answered := traffic.answered ++ answers }

inductive Reachable (fetches : List Text → (Text → Reply) → Prop) (keeps : Bool) : Traffic → Prop
  | start : Reachable fetches keeps (idle keeps)
  | step {traffic next : Traffic} {incident : Incident} (before : Reachable fetches keeps traffic)
      (taken : Step fetches traffic incident next) : Reachable fetches keeps next

/-! ## The invariant -/

/-- The requests that were not answered yet: those that wait, and those of each batch. -/
def unanswered (traffic : Traffic) : List (Text × Nat) :=
  Coalescer.requests traffic.coalescer.waiting ++ traffic.inFlight.flatMap Coalescer.requests

structure Sound (traffic : Traffic) : Prop where
  /-- A request waits just while a window is open. -/
  waits : traffic.coalescer.waiting ≠ [] ↔ traffic.coalescer.scheduled = true
  /-- One timer runs while a window is open, and none otherwise. -/
  timed : traffic.timers = traffic.coalescer.scheduled.toNat
  /-- Each request is at one place: it waits, or is in one batch, or was answered. -/
  placed : (traffic.unanswered.map Prod.snd ++ traffic.answered.map Prod.fst).Perm
    (List.range traffic.asked.length)
  /-- A request that was not answered stands under the key that it asked for. -/
  keyed : ∀ request ∈ traffic.unanswered, traffic.asked[request.2]? = some request.1
  /-- No key is twice in a batch. -/
  distinct : ∀ batch ∈ traffic.coalescer.waiting :: traffic.inFlight, batch.keys.Nodup
  /-- The keys that wait are those asked for since the last window. -/
  fresh : ∀ key, key ∈ traffic.coalescer.waiting.keys ↔ key ∈ traffic.recent

/-! ## Steps keep the invariant -/

section
variable {fetches : List Text → (Text → Reply) → Prop} {keeps : Bool} {traffic next : Traffic}
  {incident : Incident}

theorem idle_sound (keeps : Bool) : (idle keeps).Sound where
  waits := by simp [idle, Coalescer.new]
  timed := rfl
  placed := .refl _
  keyed := by simp [idle, unanswered, Coalescer.new, Coalescer.requests]
  distinct := by simp [idle, Coalescer.new, Keyed.keys]
  fresh := by simp [idle, Coalescer.new, Keyed.keys]

theorem asked_append {asked : List Text} {ticket : Nat} {key : Text} (other : Text)
    (found : asked[ticket]? = some key) : (asked ++ [other])[ticket]? = some key := by
  obtain ⟨inside, -⟩ := List.getElem?_eq_some_iff.mp found
  rw [List.getElem?_append_left inside, found]

theorem Sound.held (sound : traffic.Sound) {key : Text} {value : Value}
    {coalescer : Coalescer Nat}
    (got : traffic.coalescer.get key traffic.asked.length = (.held value, coalescer)) :
    Sound { traffic with
      coalescer, asked := traffic.asked ++ [key]
      answered := traffic.answered ++ [(traffic.asked.length, .ok value)] } := by
  obtain ⟨-, rfl⟩ := Coalescer.held_of_get got
  refine ⟨sound.waits, sound.timed, ?_, ?_, sound.distinct, sound.fresh⟩
  · rw [List.map_append, ← List.append_assoc, List.length_append, List.length_singleton,
      List.range_succ]
    exact sound.placed.append_right _
  · intro request member
    exact asked_append key (sound.keyed request member)

theorem unanswered_joined (traffic : Traffic) (key : Text) (timers : Nat)
    (asked recent : List Text) :
    (unanswered { traffic with
      coalescer := { traffic.coalescer with
        waiting := Coalescer.join key traffic.asked.length traffic.coalescer.waiting
        scheduled := true }
      timers, asked, recent }).Perm ((key, traffic.asked.length) :: traffic.unanswered) :=
  (Coalescer.requests_join key traffic.asked.length traffic.coalescer.waiting).append_right _

theorem Sound.joined (sound : traffic.Sound) {key : Text} {opens : Bool}
    {coalescer : Coalescer Nat}
    (got : traffic.coalescer.get key traffic.asked.length = (.joined opens, coalescer)) :
    Sound { traffic with
      coalescer, timers := traffic.timers + opens.toNat
      asked := traffic.asked ++ [key], recent := traffic.recent ++ [key] } := by
  obtain ⟨rfl, rfl⟩ := Coalescer.joined_of_get got
  have rearranged := unanswered_joined traffic key
    (traffic.timers + (!traffic.coalescer.scheduled).toNat) (traffic.asked ++ [key])
    (traffic.recent ++ [key])
  refine ⟨?_, ?_, ?_, ?_, ?_, ?_⟩
  · exact iff_of_true (Coalescer.join_ne_nil _ _ _) rfl
  · rw [sound.timed]
    cases traffic.coalescer.scheduled <;> rfl
  · have tickets := (rearranged.map Prod.snd).append_right (traffic.answered.map Prod.fst)
    refine tickets.trans ?_
    rw [List.length_append, List.length_singleton, List.range_succ]
    exact (sound.placed.cons _).trans (List.perm_append_singleton _ _).symm
  · intro request member
    rcases List.mem_cons.mp (rearranged.mem_iff.mp member) with rfl | earlier
    · exact List.getElem?_concat_length
    · exact asked_append key (sound.keyed request earlier)
  · intro batch member
    rcases List.mem_cons.mp member with rfl | flies
    · exact Coalescer.nodup_keys_join _ _ _ (sound.distinct _ List.mem_cons_self)
    · exact sound.distinct batch (List.mem_cons_of_mem _ flies)
  · intro other
    rw [Coalescer.mem_keys_join, sound.fresh, List.mem_append, List.mem_singleton, or_comm]

theorem Sound.begun_waiting (sound : traffic.Sound) (runs : 0 < traffic.timers) :
    begun traffic.coalescer.waiting = [traffic.coalescer.waiting] := by
  have scheduled : traffic.coalescer.scheduled = true := by
    cases isScheduled : traffic.coalescer.scheduled with
    | true => rfl
    | false =>
      rw [sound.timed, isScheduled] at runs
      cases runs
  rw [begun, if_neg (sound.waits.mpr scheduled)]

theorem Sound.fired (sound : traffic.Sound) {batch : Batch Nat} {coalescer : Coalescer Nat}
    (runs : 0 < traffic.timers) (flushed : traffic.coalescer.flush = (batch, coalescer)) :
    Sound { traffic with
      coalescer, timers := traffic.timers - 1
      inFlight := traffic.inFlight ++ begun batch, recent := [] } := by
  cases flushed
  rw [sound.begun_waiting runs]
  have sameRequests : (unanswered { traffic with
      coalescer := { traffic.coalescer with waiting := [], scheduled := false }
      timers := traffic.timers - 1
      inFlight := traffic.inFlight ++ [traffic.coalescer.waiting], recent := [] }).Perm
      traffic.unanswered := by
    simp only [unanswered, Coalescer.requests, List.flatMap_append, List.flatMap_cons,
      List.flatMap_nil, List.append_nil, List.nil_append]
    exact List.perm_append_comm
  refine ⟨by simp, ?_, ?_, ?_, ?_, ?_⟩
  · have oneTimer : traffic.timers ≤ 1 := by
      rw [sound.timed]
      exact Bool.toNat_le _
    show traffic.timers - 1 = 0
    omega
  · exact ((sameRequests.map Prod.snd).append_right _).trans sound.placed
  · intro request member
    exact sound.keyed request (sameRequests.mem_iff.mp member)
  · intro other member
    rcases List.mem_cons.mp member with rfl | flies
    · exact List.nodup_nil
    · rcases List.mem_append.mp flies with flew | isBatch
      · exact sound.distinct other (List.mem_cons_of_mem _ flew)
      · rw [List.mem_singleton.mp isBatch]
        exact sound.distinct _ List.mem_cons_self
  · intro key
    exact iff_of_false List.not_mem_nil List.not_mem_nil

theorem unanswered_finished {batch : Batch Nat} {front back : List (Batch Nat)}
    (flies : traffic.inFlight = front ++ batch :: back) (cache : Option (Keyed Value))
    (answered : List (Nat × Reply)) :
    traffic.unanswered.Perm (Coalescer.requests batch ++ unanswered { traffic with
      coalescer := { traffic.coalescer with cache }
      inFlight := front ++ back, answered }) := by
  simp only [unanswered, flies, List.flatMap_append, List.flatMap_cons]
  exact ((List.perm_append_comm_assoc _ _ _).append_left _).trans
    (List.perm_append_comm_assoc _ _ _)

theorem Sound.finished (sound : traffic.Sound) {batch : Batch Nat} {front back : List (Batch Nat)}
    {replies : Text → Reply} {answers : List (Nat × Reply)} {coalescer : Coalescer Nat}
    (flies : traffic.inFlight = front ++ batch :: back)
    (completed : traffic.coalescer.complete batch replies = (answers, coalescer)) :
    Sound { traffic with
      coalescer, inFlight := front ++ back, answered := traffic.answered ++ answers } := by
  cases completed
  have parted := unanswered_finished flies
    (traffic.coalescer.cache.map (Coalescer.keepAll batch.keys replies))
    (traffic.answered ++ Coalescer.answers batch replies)
  refine ⟨sound.waits, sound.timed, ?_, ?_, ?_, sound.fresh⟩
  · have before := ((parted.map Prod.snd).append_right _).symm.trans sound.placed
    refine .trans ?_ before
    rw [List.map_append, List.map_append, Coalescer.tickets_answers, List.append_assoc]
    exact (List.perm_append_comm.append_left _).trans (List.perm_append_comm_assoc _ _ _)
  · intro request member
    exact sound.keyed request (parted.mem_iff.mpr (List.mem_append_right _ member))
  · intro other member
    refine sound.distinct other ?_
    rw [flies]
    rcases List.mem_cons.mp member with rfl | stillFlies
    · exact List.mem_cons_self
    · rcases List.mem_append.mp stillFlies with inFront | inBack
      · exact List.mem_cons_of_mem _ (List.mem_append_left _ inFront)
      · exact List.mem_cons_of_mem _ (List.mem_append_right _ (List.mem_cons_of_mem _ inBack))

theorem Sound.step (sound : traffic.Sound) (taken : Step fetches traffic incident next) :
    next.Sound := by
  cases taken with
  | held key got => exact sound.held got
  | joined key got => exact sound.joined got
  | fired runs flushed => exact sound.fired runs flushed
  | finished front back replies flies fetched completed => exact sound.finished flies completed

theorem Reachable.sound (reached : Reachable fetches keeps traffic) : traffic.Sound := by
  induction reached with
  | start => exact idle_sound keeps
  | step _ taken ih => exact ih.step taken

/-! ## What a window and a fetch do -/

/-- A window was closed: all that waited is one batch, and its keys are those asked for since the
window before. -/
structure Closes (traffic next : Traffic) (batch : Batch Nat) : Prop where
  all : batch = traffic.coalescer.waiting ∧ next.coalescer.waiting = []
  flies : next.inFlight = traffic.inFlight ++ [batch]
  distinct : batch.keys.Nodup
  exactly : ∀ key, key ∈ batch.keys ↔ key ∈ traffic.recent

theorem Sound.closes (sound : traffic.Sound) (taken : Step fetches traffic .fire next) :
    ∃ batch, Closes traffic next batch := by
  cases taken with
  | fired runs flushed =>
    cases flushed
    refine ⟨traffic.coalescer.waiting, ⟨rfl, rfl⟩, ?_, ?_, sound.fresh⟩
    · rw [sound.begun_waiting runs]
    · exact sound.distinct _ List.mem_cons_self

/-- A fetch has ended: the requests of its batch and no others were answered, each with the reply
for its own key, so those for one key with the same reply. -/
structure Finishes (traffic next : Traffic) (batch : Batch Nat) (replies : Text → Reply) :
    Prop where
  parts : traffic.unanswered.Perm (Coalescer.requests batch ++ next.unanswered)
  adds : ∃ answers, next.answered = traffic.answered ++ answers ∧
    ∀ ticket reply, (ticket, reply) ∈ answers ↔
      ∃ key, (key, ticket) ∈ Coalescer.requests batch ∧ reply = replies key
  shared : ∀ key first second, (key, first) ∈ Coalescer.requests batch →
    (key, second) ∈ Coalescer.requests batch →
      ∃ reply, (first, reply) ∈ next.answered ∧ (second, reply) ∈ next.answered

theorem Step.finishes {batch : Batch Nat} {replies : Text → Reply}
    (taken : Step fetches traffic (.finish batch replies) next) :
    Finishes traffic next batch replies := by
  cases taken with
  | finished front back replies flies fetched completed =>
    cases completed
    refine ⟨unanswered_finished flies _ _, ⟨_, rfl, Coalescer.mem_answers batch replies⟩, ?_⟩
    intro key first second isFirst isSecond
    have answer : ∀ ticket, (key, ticket) ∈ Coalescer.requests batch →
        (ticket, replies key) ∈ traffic.answered ++ Coalescer.answers batch replies := by
      intro ticket member
      exact List.mem_append_right _
        ((Coalescer.mem_answers batch replies ticket _).mpr ⟨key, member, rfl⟩)
    exact ⟨replies key, answer first isFirst, answer second isSecond⟩

/-- No request is lost, doubled or crossed with another, whatever the order of requests, windows
and fetches, and whatever the fetches give. -/
theorem reachable_conserves (fetches : List Text → (Text → Reply) → Prop) (keeps : Bool)
    (traffic : Traffic) (reached : Reachable fetches keeps traffic) :
    traffic.Sound ∧ (traffic.answered.map Prod.fst).Nodup ∧
      (∀ next, Step fetches traffic .fire next → ∃ batch, Closes traffic next batch) ∧
      ∀ batch replies next, Step fetches traffic (.finish batch replies) next →
        Finishes traffic next batch replies := by
  have sound := reached.sound
  refine ⟨sound, ?_, fun next taken => sound.closes taken, fun _ _ _ taken => taken.finishes⟩
  have onePlace := sound.placed.nodup_iff.mpr List.nodup_range
  exact (List.nodup_append.mp onePlace).2.1

/-- Two requests for one key, and while their fetch lasts one more for it in a new window. -/
theorem reachable_conserves_overlap :
    let fetches : List Text → (Text → Reply) → Prop := fun _ _ => True
    let replies : Text → Reply := fun key => .ok (.text key)
    let second : Batch Nat := [(['B'], [2]), (['A'], [3])]
    let traffic : Traffic :=
      { coalescer := ⟨none, second, true⟩, timers := 1, inFlight := []
        answered := [(0, replies ['A']), (1, replies ['A'])]
        asked := [['A'], ['A'], ['B'], ['A']], recent := [['B'], ['A']] }
    Reachable fetches false traffic ∧ traffic.Sound ∧
      ∃ next, Step fetches traffic .fire next ∧ ∃ batch, Closes traffic next batch := by
  intro fetches replies second traffic
  have opened : Reachable fetches false _ := .step .start (.joined ['A'] rfl)
  have waiting : Reachable fetches false _ := .step opened (.joined ['A'] rfl)
  have flying : Reachable fetches false _ := .step waiting (.fired Nat.one_pos rfl)
  have reopened : Reachable fetches false _ := .step flying (.joined ['B'] rfl)
  have joined : Reachable fetches false _ := .step reopened (.joined ['A'] rfl)
  have reached : Reachable fetches false traffic :=
    .step joined (.finished [] [] replies rfl trivial rfl)
  have fires : Step fetches traffic .fire _ := .fired Nat.one_pos rfl
  obtain ⟨sound, -, closes, -⟩ := reachable_conserves fetches false traffic reached
  exact ⟨reached, sound, _, fires, closes _ fires⟩

end

end Traffic

end Dotenv
