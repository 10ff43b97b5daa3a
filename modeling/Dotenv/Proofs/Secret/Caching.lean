import Dotenv.Proofs.Keyed
import Dotenv.Proofs.Secret.Traffic
/-!
# What a cache holds

Runs of a coalescer with their history. Where values are kept, what is at hand for a key is the
value of the last completed fetch that gave the key one, in whatever order requests, windows and
fetches follow each other.
-/

set_option autoImplicit false

namespace Dotenv

namespace Traffic

/-! ## Histories -/

inductive Run (fetches : List Text → (Text → Reply) → Prop) (first : Traffic) :
    List Incident → Traffic → Prop
  | start : Run fetches first [] first
  | step {history : List Incident} {traffic next : Traffic} {incident : Incident}
      (before : Run fetches first history traffic) (taken : Step fetches traffic incident next) :
      Run fetches first (history ++ [incident]) next

end Traffic

/-- The value that an incident brings for a key: that of a fetch which gives the key one. -/
def Incident.value? (key : Text) : Incident → Option Value
  | .finish batch replies => if key ∈ Keyed.keys batch then (replies key).toOption else none
  | _ => none

namespace Traffic

def latest? (key : Text) (history : List Incident) : Option Value :=
  history.reverse.findSome? (Incident.value? key)

section
variable {fetches : List Text → (Text → Reply) → Prop} {keeps : Bool}
  {first traffic next : Traffic} {history : List Incident} {incident : Incident} {key : Text}

theorem latest?_append (key : Text) (history : List Incident) (incident : Incident) :
    latest? key (history ++ [incident]) = (incident.value? key).or (latest? key history) := by
  rw [latest?, List.reverse_append, List.reverse_singleton, List.singleton_append,
    List.findSome?_cons]
  cases incident.value? key <;> rfl

/-! ## The cache and the history -/

/-- A cache that has for each key the value of the last completed fetch that gave it one; there is
none where values are not kept. -/
def Coherent (keeps : Bool) (history : List Incident) (cache : Option (Keyed Value)) : Prop :=
  match cache with
  | none => keeps = false
  | some entries => keeps = true ∧ ∀ key, entries.get? key = latest? key history

theorem idle_coherent (keeps : Bool) : Coherent keeps [] (idle keeps).coalescer.cache := by
  cases keeps with
  | false => rfl
  | true => exact ⟨rfl, fun _ => rfl⟩

theorem Coherent.quiet {cache : Option (Keyed Value)} (coherent : Coherent keeps history cache)
    (quiet : ∀ key, incident.value? key = none) : Coherent keeps (history ++ [incident]) cache := by
  cases cache with
  | none => exact coherent
  | some entries =>
    refine ⟨coherent.1, fun key => ?_⟩
    rw [latest?_append, quiet, Option.none_or]
    exact coherent.2 key

theorem Coherent.finished {cache : Option (Keyed Value)} (coherent : Coherent keeps history cache)
    (batch : Batch Nat) (replies : Text → Reply) :
    Coherent keeps (history ++ [.finish batch replies])
      (cache.map (Coalescer.keepAll batch.keys replies)) := by
  cases cache with
  | none => exact coherent
  | some entries =>
    refine ⟨coherent.1, fun key => ?_⟩
    rw [Coalescer.get?_keepAll, latest?_append, coherent.2 key]
    rfl

theorem Coherent.step (coherent : Coherent keeps history traffic.coalescer.cache)
    (taken : Step fetches traffic incident next) :
    Coherent keeps (history ++ [incident]) next.coalescer.cache := by
  cases taken with
  | held key got =>
    obtain ⟨-, rfl⟩ := Coalescer.held_of_get got
    exact coherent.quiet fun _ => rfl
  | joined key got =>
    obtain ⟨-, rfl⟩ := Coalescer.joined_of_get got
    exact coherent.quiet fun _ => rfl
  | fired runs flushed =>
    cases flushed
    exact coherent.quiet fun _ => rfl
  | finished front back replies flies fetched completed =>
    cases completed
    exact coherent.finished _ replies

theorem Run.coherent (ran : Run fetches (idle keeps) history traffic) :
    Coherent keeps history traffic.coalescer.cache := by
  induction ran with
  | start => exact idle_coherent keeps
  | step _ taken ih => exact ih.step taken

theorem Coherent.held? (coherent : Coherent keeps history traffic.coalescer.cache) (key : Text) :
    traffic.coalescer.held? key = if keeps then latest? key history else none := by
  unfold Coalescer.held?
  generalize traffic.coalescer.cache = cache at coherent
  cases cache with
  | none =>
    cases coherent
    rfl
  | some entries =>
    rw [coherent.1]
    exact coherent.2 key

/-! ## Requests -/

structure AnswersAtOnce (traffic next : Traffic) (reply : Reply) : Prop where
  coalescer : next.coalescer = traffic.coalescer
  answered : next.answered = traffic.answered ++ [(traffic.asked.length, reply)]

/-- A request was not answered: it joined the batch of the open window. -/
structure JoinsBatch (traffic next : Traffic) (key : Text) : Prop where
  waits : (key, traffic.asked.length) ∈ Coalescer.requests next.coalescer.waiting
  answered : next.answered = traffic.answered

theorem AnswersAtOnce.not_joins {reply : Reply} (atOnce : AnswersAtOnce traffic next reply) :
    ¬ JoinsBatch traffic next key := by
  intro joins
  have length := congrArg List.length (atOnce.answered.symm.trans joins.answered)
  simp at length

theorem AnswersAtOnce.unique {reply other : Reply} (atOnce : AnswersAtOnce traffic next reply)
    (again : AnswersAtOnce traffic next other) : reply = other := by
  have same := List.append_cancel_left (atOnce.answered.symm.trans again.answered)
  exact (Prod.mk.inj (List.cons.inj same).1).2

theorem Step.request (taken : Step fetches traffic (.request key) next) :
    (∃ value, traffic.coalescer.held? key = some value ∧
        AnswersAtOnce traffic next (.ok value)) ∨
      (traffic.coalescer.held? key = none ∧ JoinsBatch traffic next key) := by
  cases taken with
  | held _ got =>
    obtain ⟨atHand, rfl⟩ := Coalescer.held_of_get got
    exact .inl ⟨_, atHand, rfl, rfl⟩
  | joined _ got =>
    have absent : traffic.coalescer.held? key = none := by
      unfold Coalescer.get at got
      split at got
      · cases got
      · assumption
    obtain ⟨-, rfl⟩ := Coalescer.joined_of_get got
    refine .inr ⟨absent, ?_, rfl⟩
    exact (Coalescer.requests_join key _ _).mem_iff.mpr List.mem_cons_self

theorem exists_request (fetches : List Text → (Text → Reply) → Prop) (traffic : Traffic)
    (key : Text) : ∃ next, Step fetches traffic (.request key) next := by
  cases got : traffic.coalescer.get key traffic.asked.length with
  | mk admission coalescer =>
    cases admission with
    | held value => exact ⟨_, .held key got⟩
    | joined opens => exact ⟨_, .joined key got⟩

/-- Whatever has happened, a request is answered at once just where values are kept and a fetch
has given its key one, and then with the value of the last such fetch, never with an error; where
values are not kept, or no fetch has given the key one, it joins a batch. -/
theorem request_coherent (fetches : List Text → (Text → Reply) → Prop) (keeps : Bool)
    (history : List Incident) (traffic : Traffic)
    (ran : Run fetches (idle keeps) history traffic) (key : Text) :
    (∃ next, Step fetches traffic (.request key) next) ∧
    ∀ next, Step fetches traffic (.request key) next →
      (∀ reply, AnswersAtOnce traffic next reply ↔
        keeps = true ∧ ∃ value, latest? key history = some value ∧ reply = .ok value) ∧
      (JoinsBatch traffic next key ↔ keeps = false ∨ latest? key history = none) := by
  refine ⟨exists_request fetches traffic key, fun next taken => ?_⟩
  have held := ran.coherent.held? key
  rcases taken.request with ⟨value, atHand, atOnce⟩ | ⟨absent, joins⟩
  · have kept : keeps = true ∧ latest? key history = some value := by
      rw [atHand] at held
      cases keeps with
      | true => exact ⟨rfl, held.symm⟩
      | false => cases held
    refine ⟨fun reply => ⟨fun again => ?_, ?_⟩, ?_⟩
    · exact ⟨kept.1, value, kept.2, again.unique atOnce⟩
    · rintro ⟨-, other, found, rfl⟩
      rw [kept.2] at found
      cases found
      exact atOnce
    · refine iff_of_false atOnce.not_joins ?_
      rw [kept.1, kept.2]
      rintro (off | never)
      · cases off
      · cases never
  · have unkept : keeps = false ∨ latest? key history = none := by
      rw [absent] at held
      cases keeps with
      | true => exact .inr held.symm
      | false => exact .inl rfl
    refine ⟨fun reply => iff_of_false (fun atOnce => atOnce.not_joins joins) ?_,
      iff_of_true joins unkept⟩
    rintro ⟨on, value, found, -⟩
    rcases unkept with off | never
    · rw [on] at off
      cases off
    · rw [never] at found
      cases found

/-- Two fetches of a key overlap. The one that began first ends last, and its value is the one at
hand. -/
theorem request_coherent_overlap :
    let fetches : List Text → (Text → Reply) → Prop := fun _ _ => True
    let older : Batch Nat := [(['A'], [0])]
    let newer : Batch Nat := [(['A'], [1])]
    let history : List Incident := [.request ['A'], .fire, .request ['A'], .fire,
      .finish newer fun _ => .ok (.text ['2']), .finish older fun _ => .ok (.text ['1'])]
    ∃ traffic next, Run fetches (idle true) history traffic ∧
      Step fetches traffic (.request ['A']) next ∧
      AnswersAtOnce traffic next (.ok (.text ['1'])) := by
  intro fetches older newer history
  have opened : Run fetches (idle true) _ _ := .step .start (.joined ['A'] rfl)
  have flying : Run fetches (idle true) _ _ := .step opened (.fired Nat.one_pos rfl)
  have reopened : Run fetches (idle true) _ _ := .step flying (.joined ['A'] rfl)
  have both : Run fetches (idle true) _ _ := .step reopened (.fired Nat.one_pos rfl)
  have oneEnded : Run fetches (idle true) _ _ :=
    .step both (.finished [older] [] (fun _ => .ok (.text ['2'])) rfl trivial rfl)
  have ran : Run fetches (idle true) history _ :=
    .step oneEnded (.finished [] [] (fun _ => .ok (.text ['1'])) rfl trivial rfl)
  obtain ⟨⟨next, taken⟩, answered⟩ := request_coherent fetches true history _ ran ['A']
  exact ⟨_, next, ran, taken, ((answered next taken).1 _).mpr ⟨rfl, _, rfl, rfl⟩⟩

end

end Traffic

end Dotenv
