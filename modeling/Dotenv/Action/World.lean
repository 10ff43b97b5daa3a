import Dotenv.Secret.Timeline
import Dotenv.Shell.Run
/-!
# A world of vaults

A world has a directory, in which commands run at once, and stores with vaults behind them. Keys
that are asked for join the window of their store; and when an action waits, every open window
closes, in the order in which the windows were opened. A window that nothing waits for stays open.
-/

set_option autoImplicit false

namespace Dotenv

structure World where
  directory : Directory
  stores : List (Store Unit)
  /-- The stores with an open window, in the order of opening. -/
  opened : List Nat

namespace World

def new (directory : Directory) (stores : List (Store Unit)) : World := ⟨directory, stores, []⟩

def run (c : Command) (world : World) : Outcome × World :=
  let (outcome, directory) := Shell.carryOut c world.directory
  (outcome, { world with directory })

def seek (secret : SecretRef) (world : World) : Option Value × World :=
  match world.stores[secret.store]? with
  | none => (none, world)
  | some store =>
    let (admission, coalescer) := store.coalescer.get secret.key ()
    let stores := world.stores.set secret.store { store with coalescer }
    match admission with
    | .held value => (some value, { world with stores })
    | .joined true =>
      (none, { world with stores, opened := world.opened ++ [secret.store] })
    | .joined false => (none, { world with stores })

def answering (replies : Replies) (store : Nat) (own : Text → Reply) : Replies :=
  fun secret => if secret.store = store then own secret.key else replies secret

def closeEach : List Nat → List (Store Unit) → Replies → Replies × List (Store Unit) × List Event
  | [], stores, replies => (replies, stores, [])
  | index :: rest, stores, replies =>
    match stores[index]? with
    | none => closeEach rest stores replies
    | some store =>
      let closing := store.close
      let (all, stores, events) :=
        closeEach rest (stores.set index closing.store) (answering replies index closing.replies)
      (all, stores, closing.events ++ events)

def unasked : Replies := fun secret =>
  .error (.store Vault.name secret.key .notFound "no value returned".toList)

def close (world : World) : Replies × World × List Event :=
  let (replies, stores, events) := closeEach world.opened world.stores unasked
  (replies, { world with stores, opened := [] }, events)

instance : Host World := ⟨run, seek, close⟩

end World

end Dotenv
