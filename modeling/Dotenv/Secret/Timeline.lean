import Dotenv.Resolver.Secret
/-!
# Vaults and lookups over time

Stores with sources in memory, and lookups that begin at given times.
-/

set_option autoImplicit false

namespace Dotenv

/-! ## Vaults

A vault is a source of secrets held in memory. It remembers what it was asked for, and it
can be told to fail: for a key, for every request that has a certain key in it, or without
any answer at all. -/

structure Vault where
  secrets : Keyed Text
  failures : Keyed StoreFailure
  /-- A key that makes every request with it fail. -/
  poison : Option Text
  /-- A key that leaves every request with it without an answer. -/
  abort : Option Text
  /-- The requests so far, the keys of each in order. -/
  requests : List (List Text)
deriving DecidableEq, Repr, Inhabited

namespace Vault

def name : Text := "fake-store".toList

def reply? (vault : Vault) (key : Text) : Option Reply :=
  match vault.failures.get? key with
  | some failure => some (.error (.store name key failure "rejected".toList))
  | none => (vault.secrets.get? key).map fun secret => .ok (.text secret)

def isAmong (key : Option Text) (keys : List Text) : Bool := key.any keys.contains

def fetch (vault : Vault) (keys : List Text) : Fetched :=
  if isAmong vault.abort keys then .dropped
  else if isAmong vault.poison keys then
    .refused (.batch name ("malformed reference ".toList ++ vault.poison.getD []))
  else
    .answered (keys.filterMap fun key => (vault.reply? key).map fun reply => (key, reply))

def source (vault : Vault) : Source := ⟨name, vault.fetch⟩

def record (vault : Vault) (requests : List (List Text)) : Vault :=
  { vault with requests :=
      vault.requests ++ requests.map fun keys => keys.mergeSort Text.le }

end Vault

structure Store (Ticket : Type) where
  vault : Vault
  coalescer : Coalescer Ticket

structure Closing (Ticket : Type) where
  replies : Text → Reply
  answers : List (Ticket × Reply)
  store : Store Ticket
  events : List Event

namespace Store

variable {Ticket : Type}

def close (store : Store Ticket) : Closing Ticket :=
  let (batch, coalescer) := store.coalescer.flush
  let gathering := store.vault.source.gather batch.keys
  let (answers, coalescer) := coalescer.complete batch gathering.replies
  { replies := gathering.replies, answers
    store := ⟨store.vault.record gathering.requests, coalescer⟩
    events := gathering.events }

end Store

/-! ## Lookups over time

Lookups that begin at given times, while a store's window lasts a given time. A window
closes before the next lookup when its time is over, and at last when no lookup is left. -/

structure TimedLookup where
  key : Text
  start : Nat
  place : Nat
deriving DecidableEq, Repr

structure Timeline where
  store : Store Nat
  /-- When the open window closes. -/
  closing : Option Nat
  answers : List (Nat × Reply)
  events : List Event

namespace Timeline

def close (timeline : Timeline) : Timeline :=
  match timeline.closing with
  | none => timeline
  | some _ =>
    let closed := timeline.store.close
    { store := closed.store, closing := none, answers := timeline.answers ++ closed.answers
      events := timeline.events ++ closed.events }

def advance (timeline : Timeline) (now : Nat) : Timeline :=
  if timeline.closing.any (· < now) then timeline.close else timeline

def begin (window : Nat) (timeline : Timeline) (lookup : TimedLookup) : Timeline :=
  let timeline := timeline.advance lookup.start
  let (admission, coalescer) := timeline.store.coalescer.get lookup.key lookup.place
  let store := { timeline.store with coalescer }
  match admission with
  | .held value =>
    { timeline with store, answers := timeline.answers ++ [(lookup.place, .ok value)] }
  | .joined true => { timeline with store, closing := some (lookup.start + window) }
  | .joined false => { timeline with store }

/-- Lookups in order of time, those of one time in the order in which they are given. -/
def ordered (lookups : List (Text × Nat)) : List TimedLookup :=
  (lookups.zipIdx.map fun entry => ⟨entry.1.1, entry.1.2, entry.2⟩).mergeSort
    fun a b => a.start ≤ b.start

def run (store : Store Nat) (window : Nat) (lookups : List (Text × Nat)) : Timeline :=
  ((ordered lookups).foldl (begin window) ⟨store, none, [], []⟩).close

def reply? (timeline : Timeline) (place : Nat) : Option Reply :=
  (timeline.answers.find? (·.1 == place)).map Prod.snd

end Timeline

end Dotenv
