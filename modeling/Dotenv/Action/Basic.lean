import Dotenv.Error
import Dotenv.Log.Event
import Dotenv.Value
/-!
# Actions

An action is a computation that reports events, runs commands and asks stores for secrets.
It is data: each step says what is wanted and how to go on with the answer, and nothing
happens until something outside carries the steps out. An action that asked a store waits;
whatever else waits at the same time asks in the same round.
-/

set_option autoImplicit false

namespace Dotenv

structure Command where
  program : Text
  arguments : List Text
  environment : Keyed Text
  limit : Nat
deriving DecidableEq, Repr, Inhabited

def Command.ofScript (shell script : Text) (environment : Keyed Text) (limit : Nat) : Command :=
  ⟨shell, [['-', 'c'], script], environment, limit⟩

def Command.overdue (command : Command) (description : Text) : Text :=
  description ++ " timed out after ".toList ++ durationText command.limit

inductive Outcome where
  /-- It ended with a code, or was killed and has none. -/
  | ended (code : Option Int) (stdout stderr : Octets)
  | timedOut
  | notStarted (reason : Text)
deriving DecidableEq, Repr, Inhabited

structure SecretRef where
  store : Nat
  key : Text
deriving DecidableEq, Repr, Inhabited

abbrev Reply := Except ResolutionError Value

abbrev Replies := SecretRef → Reply

inductive Action (α : Type) : Type where
  | done (result : α)
  | note (event : Event) (rest : Action α)
  | command (command : Command) (rest : Outcome → Action α)
  /-- A key is asked for: the answer is at hand, or it comes at the end of the round. -/
  | seek (secret : SecretRef) (rest : Option Value → Action α)
  /-- Nothing more can be done in this round. -/
  | await (rest : Replies → Action α)

namespace Action

variable {α β γ : Type}

def bind (next : α → Action β) : Action α → Action β
  | done result => next result
  | note event rest => note event (rest.bind next)
  | command c rest => command c fun outcome => (rest outcome).bind next
  | seek secret rest => seek secret fun held => (rest held).bind next
  | await rest => await fun replies => (rest replies).bind next

instance : Monad Action where
  pure := done
  bind action next := action.bind next

def report (event : Event) : Action Unit := note event (done ())

/-- A command run. Other actions go on meanwhile, until they have to wait. -/
def run (c : Command) : Action Outcome :=
  command c fun outcome => await fun _ => done outcome

def ask (secret : SecretRef) : Action Reply :=
  seek secret fun held =>
    match held with
    | some value => done (.ok value)
    | none => await fun replies => done (replies secret)

end Action

/-- An action that may end in an error of evaluation. -/
abbrev Attempt (α : Type) := ExceptT ResolutionError Action α

/-! ## Carrying out -/

/-- States of something that runs commands and answers stores. Nothing is asked of the answers:
they may depend on all that was run and asked before. -/
class Host (σ : Type) where
  run : Command → σ → Outcome × σ
  /-- A key is asked for: its value when that is at hand. -/
  seek : SecretRef → σ → Option Value × σ
  /-- A round ends: what the stores reply, and what is reported meanwhile. -/
  close : σ → Replies × σ × List Event

structure Performance (σ α : Type) where
  result : α
  world : σ
  events : List Event

def Action.perform {σ α : Type} [Host σ] : Action α → σ → Performance σ α
  | done result, world => ⟨result, world, []⟩
  | note event rest, world =>
    let after := rest.perform world
    { after with events := event :: after.events }
  | command c rest, world =>
    let (outcome, world) := Host.run c world
    (rest outcome).perform world
  | seek secret rest, world =>
    let (held, world) := Host.seek secret world
    (rest held).perform world
  | await rest, world =>
    let (replies, world, events) := Host.close world
    let after := (rest replies).perform world
    { after with events := events ++ after.events }

/-! ## Actions side by side

Actions that are carried out together take turns in a fixed order: in every round each goes
on up to where it has to wait, and the round ends when all wait or are done. -/

namespace Action

variable {α β γ ε : Type}

/-- A second action up to where it waits, while a first one waits: `resume` goes on with both in
the next round, and `finish` says what a second action that is done leads to. -/
def whileWaiting (resume : Replies → Action β → Action γ) (finish : β → Action γ) :
    Action β → Action γ
  | done result => finish result
  | note event rest => note event (whileWaiting resume finish rest)
  | command c rest => command c fun outcome => whileWaiting resume finish (rest outcome)
  | seek secret rest => seek secret fun held => whileWaiting resume finish (rest held)
  | await rest => await fun replies => resume replies (rest replies)

def both : Action α → Action β → Action (α × β)
  | done result, second => second.bind fun other => done (result, other)
  | note event rest, second => note event (both rest second)
  | command c rest, second => command c fun outcome => both (rest outcome) second
  | seek secret rest, second => seek secret fun held => both (rest held) second
  | await rest, second =>
    whileWaiting (fun replies => both (rest replies))
      (fun other => await fun replies => both (rest replies) (done other)) second

def all : List (Action α) → Action (List α)
  | [] => done []
  | first :: rest => (both first (all rest)).bind fun results => done (results.1 :: results.2)

/-- Two actions side by side, of which the first error stops both: what comes after an error
in the same round is not begun. -/
def bothUnlessError : Action (Except ε α) → Action (Except ε β) → Action (Except ε (α × β))
  | done (.error error), _ => done (.error error)
  | done (.ok result), second => second.bind fun other => done (other.map (result, ·))
  | note event rest, second => note event (bothUnlessError rest second)
  | command c rest, second => command c fun outcome => bothUnlessError (rest outcome) second
  | seek secret rest, second => seek secret fun held => bothUnlessError (rest held) second
  | await rest, second =>
    whileWaiting (fun replies => bothUnlessError (rest replies))
      (fun other =>
        match other with
        | .error error => done (.error error)
        | .ok result =>
          await fun replies => bothUnlessError (rest replies) (done (.ok result))) second

def allUnlessError : List (Action (Except ε α)) → Action (Except ε (List α))
  | [] => done (.ok [])
  | first :: rest =>
    (bothUnlessError first (allUnlessError rest)).bind fun results =>
      done (results.map fun results => results.1 :: results.2)

end Action

end Dotenv
