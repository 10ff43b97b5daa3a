import Dotenv.Text.Basic
/-!
# Events

What the library reports while it works, each event with its level, its wording and its
fields. Values never appear in an event, only whether they are defined.
-/

set_option autoImplicit false

namespace Dotenv

inductive Level where
  | trace
  | debug
  | info
  | warn
deriving DecidableEq, Repr

def Level.name : Level → Text
  | trace => "TRACE".toList
  | debug => "DEBUG".toList
  | info => "INFO".toList
  | warn => "WARN".toList

inductive Event where
  | parsedItem (key : Text) (lines : Nat)
  | parsedDocument (nodes items : Nat)
  | loadingFile (path : Text) (bytes : Nat)
  | insertedHeader
  | adoptedDivider
  | appendingItem (key : Text)
  | registered (function : Text)
  | resolvingWave (start size : Nat)
  | usingOverride (key : Text)
  /-- A command is about to run for a key, or for none. -/
  | runningCommand (key : Text)
  | resolvedItem (key shown : Text)
  | failedItem (key error : Text)
  | invalidItem (key error : Text)
  | resolutionComplete (items invalid : Nat)
  | fetchingBatch (store : Text) (keys : Nat)
  | retryingSingly (store error : Text)
deriving DecidableEq, Repr

namespace Event

def level : Event → Level
  | parsedItem _ _ | parsedDocument _ _ => .trace
  | failedItem _ _ | invalidItem _ _ | retryingSingly _ _ => .warn
  | resolutionComplete _ _ => .info
  | _ => .debug

def message : Event → Text
  | parsedItem _ _ => "parsed config item".toList
  | parsedDocument _ _ => "parsed env-spec document".toList
  | loadingFile _ _ => "loading env-spec file".toList
  | insertedHeader => "inserted document header".toList
  | adoptedDivider => "leading divider adopted as header".toList
  | appendingItem _ => "appending new config item".toList
  | registered _ => "registered resolver".toList
  | resolvingWave _ _ => "resolving wave".toList
  | usingOverride _ => "using override".toList
  | runningCommand _ => "running exec command".toList
  | resolvedItem _ _ => "resolved item".toList
  | failedItem _ _ => "failed to resolve item".toList
  | invalidItem _ _ => "invalid item".toList
  | resolutionComplete _ _ => "resolution complete".toList
  | fetchingBatch _ _ => "fetching batch".toList
  | retryingSingly _ _ => "batch failed, retrying keys one at a time".toList

def fields : Event → List (Text × Text)
  | parsedItem key lines => [("key".toList, key), ("lines".toList, Text.ofNat lines)]
  | parsedDocument nodes items =>
    [("nodes".toList, Text.ofNat nodes), ("items".toList, Text.ofNat items)]
  | loadingFile path bytes => [("path".toList, path), ("bytes".toList, Text.ofNat bytes)]
  | insertedHeader | adoptedDivider => []
  | appendingItem key | usingOverride key | runningCommand key => [("key".toList, key)]
  | registered function => [("function".toList, function)]
  | resolvingWave start size =>
    [("start".toList, Text.ofNat start), ("len".toList, Text.ofNat size)]
  | resolvedItem key shown => [("key".toList, key), ("value".toList, shown)]
  | failedItem key error | invalidItem key error =>
    [("key".toList, key), ("error".toList, error)]
  | resolutionComplete items invalid =>
    [("items".toList, Text.ofNat items), ("invalid".toList, Text.ofNat invalid)]
  | fetchingBatch store keys => [("resolver".toList, store), ("keys".toList, Text.ofNat keys)]
  | retryingSingly store error => [("resolver".toList, store), ("error".toList, error)]

end Event

end Dotenv
