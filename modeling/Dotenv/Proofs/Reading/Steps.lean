import Dotenv.Proofs.Success
import Dotenv.Reading.File
/-!
# Reading in steps

A reader that stands somewhere takes one line: it leaves nodes behind and stands somewhere
else. A document is what is left behind by a run over its lines and by the end of the text.
-/

set_option autoImplicit false

namespace Dotenv

namespace Position

/-- One line taken: the nodes that are complete now, and where the reader stands after it. -/
def step (start : Nat) (line : Text) : Position → Except Fault (List Node × Position)
  | .between run =>
    match LineClass.of line with
    | .blank => .ok (looseBlock run ++ [.blank line], .between [])
    | .comment =>
      match readComment line with
      | .error fault => .error (fault.inText (start + Text.width line))
      | .ok (.inl divider) => .ok ([closedBlock run divider], .between [])
      | .ok (.inr comment) => .ok ([], .between (run ++ [comment]))
    | .item =>
      match readItem run line start with
      | .error fault => .error (fault.inText (start + Text.width line))
      | .ok (.inl item) => .ok ([.item item], .between [])
      | .ok (.inr item) => .ok ([], .inside item)
  | .inside item =>
    match Scan.closeBlock item.quote.mark line with
    | none => .ok ([], .inside { item with raw := item.raw ++ '\n' :: line })
    | some afterValue =>
      match item.close line afterValue (start + Text.width line) with
      | .error fault => .error (fault.inText (start + Text.width line))
      | .ok closed => .ok ([.item closed], .between [])

def run : Nat → List Text → Position → Except Fault (List Node × Position)
  | _, [], position => .ok ([], position)
  | start, line :: more, position => do
    let (nodes, next) ← position.step start line
    let (others, final) ← next.run (start + Text.width line + 1) more
    .ok (nodes ++ others, final)

def leave : Position → Except Fault (List Node)
  | .between run => .ok (looseBlock run)
  | .inside item => .error ⟨.unterminated item.quote, ⟨item.opening, item.opening + 3⟩⟩

def finish (start : Nat) (lines : List Text) (position : Position) : Except Fault (List Node) := do
  let (nodes, final) ← position.run start lines
  let rest ← final.leave
  .ok (nodes ++ rest)

theorem finish_cons (start : Nat) (line : Text) (more : List Text) (position : Position) :
    position.finish start (line :: more) =
      (position.step start line >>= fun taken =>
        taken.2.finish (start + Text.width line + 1) more >>= fun rest =>
          .ok (taken.1 ++ rest)) := by
  simp only [finish, run]
  cases position.step start line with
  | error fault => rfl
  | ok taken =>
    simp only [bind, Except.bind]
    cases taken.2.run (start + Text.width line + 1) more with
    | error fault => rfl
    | ok ran =>
      simp only
      cases ran.2.leave with
      | error fault => rfl
      | ok rest => simp only [List.append_assoc]

end Position

def Reading.outcome (reading : Reading) : Except Fault (List Node) :=
  match reading.fault with
  | some fault => .error fault
  | none => .ok reading.nodes

theorem Reading.outcome_prepend (nodes : List Node) (reading : Reading) :
    (reading.prepend nodes).outcome = (reading.outcome >>= fun rest => .ok (nodes ++ rest)) := by
  obtain ⟨rest, fault⟩ := reading
  cases fault with
  | none => rfl
  | some fault => rfl

theorem bind_nil_append (reading : Except Fault (List Node)) :
    (reading >>= fun rest => .ok ([] ++ rest)) = reading := by
  cases reading with
  | error fault => rfl
  | ok rest => rfl

theorem outcome_readLines (position : Position) (start : Nat) (lines : List Text) :
    (readLines position start lines).outcome = position.finish start lines := by
  induction lines generalizing position start with
  | nil =>
    cases position with
    | between run => rfl
    | inside item => rfl
  | cons line more ih =>
    rw [Position.finish_cons]
    cases position with
    | between run =>
      simp only [readLines, Position.step]
      cases LineClass.of line with
      | blank =>
        rw [Reading.outcome_prepend, ih]
        rfl
      | comment =>
        dsimp only
        cases readComment line with
        | error fault => rfl
        | ok read =>
          cases read with
          | inl divider =>
            dsimp only
            rw [Reading.outcome_prepend, ih]
            rfl
          | inr comment =>
            dsimp only
            rw [ih]
            exact (bind_nil_append _).symm
      | item =>
        dsimp only
        cases readItem run line start with
        | error fault => rfl
        | ok read =>
          cases read with
          | inl item =>
            dsimp only
            rw [Reading.outcome_prepend, ih]
            rfl
          | inr item =>
            dsimp only
            rw [ih]
            exact (bind_nil_append _).symm
    | inside item =>
      simp only [readLines, Position.step]
      cases Scan.closeBlock item.quote.mark line with
      | none =>
        dsimp only
        rw [ih]
        exact (bind_nil_append _).symm
      | some afterValue =>
        dsimp only
        cases item.close line afterValue (start + Text.width line) with
        | error fault => rfl
        | ok closed =>
          dsimp only
          rw [Reading.outcome_prepend, ih]
          rfl

theorem Document.readVerbatim_eq (source : Text) :
    readVerbatim source =
      ((Position.between []).finish 0 (Text.lines (Text.unixLines source))).map fun nodes =>
        ⟨nodes, Text.endsWithNewline (Text.unixLines source)⟩ := by
  rw [← outcome_readLines]
  simp only [readVerbatim, readText, Reading.outcome]
  cases (readLines (.between []) 0 (Text.lines (Text.unixLines source))).fault <;> rfl

theorem Document.readVerbatim_eq_ok (source : Text) (document : Document) :
    readVerbatim source = .ok document ↔
      (Position.between []).finish 0 (Text.lines (Text.unixLines source)) = .ok document.nodes ∧
        document.trailingNewline = Text.endsWithNewline (Text.unixLines source) := by
  obtain ⟨nodes, trailingNewline⟩ := document
  rw [readVerbatim_eq, map_eq_ok]
  constructor
  · rintro ⟨_, finished, same⟩
    cases same
    exact ⟨finished, rfl⟩
  · rintro ⟨finished, rfl⟩
    exact ⟨nodes, finished, rfl⟩

end Dotenv
