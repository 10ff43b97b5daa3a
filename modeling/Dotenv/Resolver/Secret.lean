import Dotenv.Resolver.Basic
/-!
# Secrets

A store is called by a function of its own, `name(key)`. The keys that it is asked for are gathered
by a coalescer and fetched together.
-/

set_option autoImplicit false

namespace Dotenv

namespace Resolver

def secretOf (name : Text) (store : Nat) (call : Invocation) : Attempt Value := do
  let key ← call.text 0
  if key = [] then
    throw (.invalidArgument name "key resolved to an empty string".toList)
  .mk (Action.ask ⟨store, key⟩)

def secret (name : Text) (store : Nat) : Resolver :=
  { name
    bind := fun function args => do
      let _ ← args.expectPositional function
      args.expectCount function 1 (some 1)
      if args.text? 0 = some [] then
        throw (.invalidArguments name "key must not be empty".toList)
      return { dependencies := some [], run := secretOf name store } }

end Resolver

/-! ## Coalescers

A coalescer gathers requests for keys until its window closes. The first request of a window
opens it; a key that is asked for twice in one window is fetched once and answered twice.
With a cache, a value that was fetched once is at hand from then on. Closing a window and
answering its requests are two steps, because the fetch between them takes time. -/

/-- Requests by key, in the order in which the keys were first asked for. -/
abbrev Batch (Ticket : Type) := Keyed (List Ticket)

/-- Requests gathered for one fetch, each with a ticket that tells it apart. -/
structure Coalescer (Ticket : Type) where
  /-- The values that were fetched, when they are kept. -/
  cache : Option (Keyed Value)
  waiting : Batch Ticket
  scheduled : Bool

inductive Admission where
  | held (value : Value)
  | joined (opens : Bool)

namespace Coalescer

variable {Ticket : Type}

def new (keeps : Bool) : Coalescer Ticket :=
  { cache := if keeps then some [] else none, waiting := [], scheduled := false }

def held? (coalescer : Coalescer Ticket) (key : Text) : Option Value :=
  coalescer.cache.bind (·.get? key)

def join (key : Text) (ticket : Ticket) (batch : Batch Ticket) : Batch Ticket :=
  batch.set key ((batch.get? key).getD [] ++ [ticket])

/-- A request for which nothing was at hand joins the window; tells whether it opens one. -/
def enter (coalescer : Coalescer Ticket) (key : Text) (ticket : Ticket) : Bool × Coalescer Ticket :=
  (!coalescer.scheduled,
    { coalescer with waiting := join key ticket coalescer.waiting, scheduled := true })

/-- A request for a key, with nothing between its look at the cache and its joining a window. -/
def get (coalescer : Coalescer Ticket) (key : Text) (ticket : Ticket) :
    Admission × Coalescer Ticket :=
  match coalescer.held? key with
  | some value => (.held value, coalescer)
  | none =>
    let (opens, coalescer) := coalescer.enter key ticket
    (.joined opens, coalescer)

/-- The window closes, and its requests are handed over to be fetched. -/
def flush (coalescer : Coalescer Ticket) : Batch Ticket × Coalescer Ticket :=
  (coalescer.waiting, { coalescer with waiting := [], scheduled := false })

def keep (key : Text) (reply : Reply) (cache : Keyed Value) : Keyed Value :=
  match reply with
  | .ok value => cache.set key value
  | .error _ => cache

def keepAll (keys : List Text) (replies : Text → Reply) (cache : Keyed Value) : Keyed Value :=
  keys.foldl (fun cache key => keep key (replies key) cache) cache

def answers (batch : Batch Ticket) (replies : Text → Reply) : List (Ticket × Reply) :=
  batch.flatMap fun entry => entry.2.map fun ticket => (ticket, replies entry.1)

/-- A fetch is complete: its requests are answered, and values are kept where there is a cache. -/
def complete (coalescer : Coalescer Ticket) (batch : Batch Ticket) (replies : Text → Reply) :
    List (Ticket × Reply) × Coalescer Ticket :=
  (answers batch replies,
    { coalescer with cache := coalescer.cache.map (keepAll batch.keys replies) })

end Coalescer

/-! ## Fetches

What a source of secrets answers to a list of keys, and what becomes of it: when the request
fails as a whole, each key is asked for alone, so that a bad key does no harm to others. -/

inductive Fetched where
  | answered (replies : Keyed Reply)
  | refused (error : ResolutionError)
  /-- There is no answer. -/
  | dropped

structure Source where
  name : Text
  fetch : List Text → Fetched

structure Gathering where
  replies : Text → Reply
  /-- The requests that were made, in order. -/
  requests : List (List Text)
  events : List Event

namespace Source

def missing (source : Source) (key : Text) : ResolutionError :=
  .store source.name key .notFound "no value returned".toList

def lost (source : Source) : ResolutionError :=
  .batch source.name "batch was dropped before it completed".toList

def pick (source : Source) (replies : Keyed Reply) (key : Text) : Reply :=
  (replies.get? key).getD (.error (source.missing key))

def alone (source : Source) (key : Text) : Reply :=
  match source.fetch [key] with
  | .answered replies => source.pick replies key
  | .refused error => .error error
  | .dropped => .error source.lost

/-- The keys of a window fetched together, or one at a time when that is refused. -/
def gather (source : Source) (keys : List Text) : Gathering :=
  let fetching := Event.fetchingBatch source.name keys.length
  match source.fetch keys with
  | .answered replies => ⟨source.pick replies, [keys], [fetching]⟩
  | .dropped => ⟨fun _ => .error source.lost, [], [fetching]⟩
  | .refused error =>
    if keys.length > 1 then
      ⟨source.alone, keys :: keys.map ([·]),
        [fetching, .retryingSingly source.name error.message]⟩
    else ⟨fun _ => .error error, [keys], [fetching]⟩

end Source

end Dotenv
