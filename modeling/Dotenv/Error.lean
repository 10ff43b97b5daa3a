import Dotenv.Number.Layout
import Dotenv.Text.Quoted
/-!
# Errors

Why an expression has no value, what is wrong with a document, and what is wrong with an item.
-/

set_option autoImplicit false

namespace Dotenv

/-! ## Errors of evaluation

Why an expression has no value. An error may come with a hint at what to do about it, and
it may be fatal: then nothing else is evaluated. -/

inductive StoreFailure where
  | notFound
  | forbidden
  | authExpired
  | rateLimited
  | other
deriving DecidableEq, Repr, Inhabited

def StoreFailure.message : StoreFailure → Text
  | notFound => "not found".toList
  | forbidden => "forbidden".toList
  | authExpired => "authentication expired".toList
  | rateLimited => "rate limited".toList
  | other => "error".toList

inductive ResolutionError where
  /-- A reference to a key that nothing defines, where that is not allowed. -/
  | unknownReference (key : Text)
  /-- A command that ended with a code other than zero, or was killed and has none. -/
  | commandFailed (code : Option Int) (stderr : Text)
  | commandTimedOut (milliseconds : Nat)
  | commandNotStarted (reason : Text)
  | store (name key : Text) (failure : StoreFailure) (reason : Text)
  | invalidValue (reason : Text)
  | batch (name reason : Text)
  | invalidArgument (function reason : Text)
deriving DecidableEq, Repr, Inhabited

def durationText (milliseconds : Nat) : Text :=
  if milliseconds = 0 then "0ns".toList
  else if milliseconds < 1000 then Text.ofNat milliseconds ++ "ms".toList
  else
    let digits := Text.ofNat (1000 + milliseconds % 1000)
    let places := Text.dropEndWhile (· = '0') (digits.drop 1)
    Text.ofNat (milliseconds / 1000) ++ (if places = [] then [] else '.' :: places) ++ ['s']

namespace ResolutionError

def message : ResolutionError → Text
  | unknownReference key => "reference to unknown key: ".toList ++ key
  | commandFailed code stderr =>
    let shown :=
      match code with
      | some code => "Some(".toList ++ Text.ofInt code ++ [')']
      | none => "None".toList
    "command failed with exit code ".toList ++ shown ++ ": ".toList ++ stderr
  | commandTimedOut milliseconds =>
    "command timed out after ".toList ++ durationText milliseconds
  | commandNotStarted reason => "failed to run command: ".toList ++ reason
  | store name key failure reason =>
    name ++ ": ".toList ++ key ++ ": ".toList ++ failure.message ++ ": ".toList ++ reason
  | invalidValue reason => "invalid value: ".toList ++ reason
  | batch name reason => name ++ ": batch request failed: ".toList ++ reason
  | invalidArgument function reason => function ++ "(): ".toList ++ reason

def tip : ResolutionError → Option Text
  | unknownReference key =>
    some ("define ".toList ++ key ++ " earlier in the file or pass it as an override".toList)
  | commandTimedOut _ =>
    some "raise ENVSPEC_EXEC_TIMEOUT_MS if the command is expected to be slow".toList
  | commandNotStarted _ => some "check that ENVSPEC_SHELL points at an installed shell".toList
  | store name _ .notFound _ => some ("check the name of the entry in ".toList ++ name)
  | store name _ .forbidden _ =>
    some ("check that your ".toList ++ name ++ " credentials can read this entry".toList)
  | store name _ .authExpired _ =>
    some ("sign in to ".toList ++ name ++ " again and retry".toList)
  | store _ _ .rateLimited _ => some "wait a moment and retry".toList
  | _ => none

/-- Whether an error stops everything: only an authorization that is over does. -/
def isFatal : ResolutionError → Bool
  | store _ _ .authExpired _ => true
  | _ => false

end ResolutionError

/-! ## Errors in decorators and calls

What can be wrong with a document before anything is evaluated. All errors of a document
are reported together, each with the key it belongs to. -/

inductive SchemaError where
  | conflicting (first second : Text)
  /-- A pattern that is not well formed, and what is wrong with it. -/
  | invalidPattern (reason : Text)
  | invalidRange (least most : Double)
  | notANumber (decorator value : Text)
  | notStatic (decorator : Text)
  | unknownFunction (name : Text)
  | invalidArguments (function reason : Text)
  /-- Arguments with keys and without in one call. -/
  | mixedArguments (function : Text)
deriving DecidableEq, Repr, Inhabited

namespace SchemaError

def message : SchemaError → Text
  | conflicting first second =>
    "conflicting decorators: @".toList ++ first ++ " and @".toList ++ second
  | invalidPattern reason => "invalid @pattern: ".toList ++ reason
  | invalidRange least most =>
    "invalid range: @min ".toList ++ least.plain ++ " is greater than @max ".toList ++ most.plain
  | notANumber decorator value =>
    '@' :: decorator ++ " expects a number, got ".toList ++ Text.quoted value
  | notStatic decorator => '@' :: decorator ++ " needs a static value".toList
  | unknownFunction name => "unknown function: ".toList ++ name ++ "()".toList
  | invalidArguments function reason =>
    "invalid arguments for ".toList ++ function ++ "(): ".toList ++ reason
  | mixedArguments function =>
    function ++ "(): arguments must be either all positional or all key=value".toList

def refused (function reason : String) : SchemaError :=
  invalidArguments function.toList reason.toList

end SchemaError

/-- An error and the key of the item it belongs to, none for the header. -/
structure SchemaIssue where
  key : Option Text
  error : SchemaError
deriving DecidableEq, Repr, Inhabited

namespace SchemaIssue

def message (issue : SchemaIssue) : Text :=
  issue.key.getD "header".toList ++ ": ".toList ++ issue.error.message

def messages (issues : List SchemaIssue) : Text := Text.join ['\n'] (issues.map message)

def ofKey (key : Text) (issues : List SchemaIssue) : List SchemaError :=
  (issues.filter (·.key == some key)).map SchemaIssue.error

end SchemaIssue

/-! ## Errors of items and of a whole resolution

What is wrong with the final value of an item, and what stops a resolution. No text names
the offending value, which may be a secret. -/

inductive ItemError where
  | resolution (error : ResolutionError)
  /-- There has to be a value, and there is none. -/
  | missing
  | pattern (source : Text)
  | enumeration (allowed : List Text)
  | outOfRange (range : Text)
  | conversion (type : Text)
deriving DecidableEq, Repr, Inhabited

def ItemError.message : ItemError → Text
  | resolution error => error.message
  | missing => "value is required but empty".toList
  | pattern source => "value does not match pattern ".toList ++ source
  | enumeration allowed => "value is not one of: ".toList ++ Text.join [',', ' '] allowed
  | outOfRange range => "value is out of range (".toList ++ range ++ [')']
  | conversion type => "value is not a valid ".toList ++ type

inductive ResolveError where
  | schema (issues : List SchemaIssue)
  /-- An error after which nothing else makes sense. -/
  | fatal (key : Text) (error : ResolutionError)
  /-- The first invalid item, where one is enough. -/
  | failFast (key : Text) (error : ItemError)
deriving DecidableEq, Repr, Inhabited

def ResolveError.message : ResolveError → Text
  | schema issues => "invalid schema:\n".toList ++ SchemaIssue.messages issues
  | fatal key error =>
    "fatal error resolving ".toList ++ key ++ ": ".toList ++ error.message
  | failFast key error =>
    "failed to resolve ".toList ++ key ++ ": ".toList ++ error.message

end Dotenv
