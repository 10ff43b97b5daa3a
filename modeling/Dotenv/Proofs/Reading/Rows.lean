import Dotenv.Proofs.Reading.Runs
/-!
# Rows

The lines of a document node by node, told apart by where they start. A value in triple quotes
goes on over the lines below the first line of its item, and what those lines look like says
nothing about them; every other line is blank, a comment, or the first line of an item.
-/

set_option autoImplicit false

namespace Dotenv

inductive Row where
  | outside (line : Text)
  | inside (line : Text)
deriving DecidableEq

inductive Row.Kind where
  /-- Spaces and tabs only. -/
  | blank
  | divider
  /-- A comment line that is no divider. -/
  | comment
  | item
  | value
deriving DecidableEq

namespace Row

def text : Row → Text
  | outside line => line
  | inside line => line

def kind : Row → Kind
  | outside line =>
    match Text.skipGap line with
    | [] => .blank
    | c :: rest => if c = '#' then if Scan.isDivider rest then .divider else .comment else .item
  | inside _ => .value

end Row

def runRows (run : List CommentLine) : List Row := run.map fun line => .outside line.render

def Item.ownRows (item : Item) : List Row :=
  match Text.lines item.renderOwn with
  | [] => []
  | line :: more => .outside line :: more.map .inside

namespace Node

def rows : Node → List Row
  | blank raw => [.outside raw]
  | divider raw => [.outside raw]
  | block comments closing => runRows comments ++ closing.toList.map .outside
  | item definition => runRows definition.above ++ definition.ownRows

/-- What the rows of a node have to be, by the form of the node alone. -/
def kinds : Node → List Row.Kind
  | blank _ => [.blank]
  | divider _ => [.divider]
  | block comments closing =>
    comments.map (fun _ => .comment) ++ closing.toList.map fun _ => .divider
  | item definition =>
    definition.above.map (fun _ => .comment) ++
      .item :: List.replicate (definition.lineCount - 1) .value

end Node

def Document.rows (document : Document) : List Row := document.nodes.flatMap Node.rows

/-! ## Classes of lines -/

section
variable {line : Text}

theorem Row.kind_blank (isBlank : LineClass.of line = .blank) :
    (outside line).kind = .blank := by
  unfold LineClass.of at isBlank
  split at isBlank
  · rename_i gapOnly
    simp only [kind, gapOnly]
  · split at isBlank <;> cases isBlank

theorem Row.kind_item (isItem : LineClass.of line = .item) : (outside line).kind = .item := by
  unfold LineClass.of at isItem
  split at isItem
  · cases isItem
  · rename_i c rest found
    split at isItem
    · cases isItem
    · rename_i noHash
      simp only [kind, found, if_neg noHash]

theorem Row.kind_comment (isComment : LineClass.of line = .comment) {read : Text ⊕ CommentLine}
    (success : readComment line = .ok read) :
    (outside line).kind = if read.isLeft then .divider else .comment := by
  unfold LineClass.of at isComment
  split at isComment
  · cases isComment
  · rename_i c rest found
    split at isComment
    · rename_i isHash
      subst isHash
      simp only [readComment, found, List.drop_one, List.tail_cons] at success
      simp only [kind, found, if_true]
      split at success
      · rename_i divides
        cases success
        simp [divides]
      · rename_i goesOn
        obtain ⟨comment, -, rfl⟩ := (map_eq_ok _ _ _).mp success
        simp [goesOn]
    · cases isComment

end

/-! ## Values in triple quotes -/

namespace Scan

theorem closeBlock_newline (mark : Char) (marksLine : mark ≠ '\n') (text rest : Text)
    (kept : closeBlock mark text = none) :
    closeBlock mark (text ++ '\n' :: rest) = closeBlock mark rest := by
  have newline : ∀ c, ('\n' :: rest).head? = some c → c ∉ [mark, mark, mark] := by
    rintro c isNewline
    cases isNewline
    simp [Ne.symm marksLine]
  have skips : closeBlock mark ('\n' :: rest) = closeBlock mark rest := by
    have none := dropStart?_none [mark, mark, mark] [] [] ('\n' :: rest) rfl fun _ => newline
    rw [List.nil_append] at none
    rw [closeBlock_cons mark '\n' rest (by decide), none]
  fun_induction closeBlock mark text with
  | case1 => exact skips
  | case2 more ih =>
    rw [List.cons_append, List.cons_append, closeBlock, if_pos rfl]
    exact ih kept
  | case3 c more differs ih =>
    rw [List.cons_append, List.cons_append, closeBlock, if_neg differs]
    exact ih kept
  | case4 => cases kept
  | case5 c more noEscape undropped ih =>
    have still : Text.dropStart? [mark, mark, mark] (c :: more ++ '\n' :: rest) = none :=
      dropStart?_none _ (c :: more) [] _ (by rwa [List.append_nil]) fun _ => newline
    by_cases slash : c = '\\'
    · subst slash
      cases more with
      | nil =>
        rw [List.singleton_append, closeBlock, if_neg (Ne.symm marksLine)]
        exact skips
      | cons d more => exact absurd rfl (noEscape d more rfl)
    · rw [List.cons_append, closeBlock_cons mark c _ slash, ← List.cons_append, still]
      exact ih kept

theorem closeBlock_lines (mark : Char) (marksLine : mark ≠ '\n') (text last : Text)
    (inner : List Text) (kept : closeBlock mark text = none)
    (inside : ∀ line ∈ inner, closeBlock mark line = none) :
    closeBlock mark (text ++ inner.flatMap ('\n' :: ·) ++ '\n' :: last) =
      closeBlock mark last := by
  induction inner generalizing text with
  | nil =>
    rw [List.flatMap_nil, List.append_nil]
    exact closeBlock_newline mark marksLine text last kept
  | cons line inner ih =>
    obtain ⟨lineKept, others⟩ := List.forall_mem_cons.mp inside
    have rest := closeBlock_newline mark marksLine text
      (line ++ inner.flatMap ('\n' :: ·) ++ '\n' :: last) kept
    rw [List.flatMap_cons, List.cons_append, List.append_assoc text]
    simp only [List.cons_append, List.append_assoc] at rest ⊢
    rw [rest, ← List.append_assoc]
    exact ih line lineKept others

end Scan

/-- Whether the text of a value is in triple quotes that are closed at its end and not before. -/
def Term.IsBlock (term : Term) : Prop :=
  ∃ quote : Quote, quote.isTriple = true ∧ quote.delimiter <+: term.render ∧
    Scan.closeBlock quote.mark (term.render.drop 3) = some []

/-- Whether the text of an item goes over several lines for its value alone: where it has a line
break, its value is in triple quotes, and all line breaks are in there. -/
def Item.BreaksInValue (item : Item) : Prop :=
  '\n' ∈ item.renderOwn → ∃ term, item.value = some term ∧ term.IsBlock ∧
    term.render.count '\n' = item.renderOwn.count '\n'

theorem Text.before_prefix (rest text : Text) : before rest text <+: text := List.take_prefix _ _

section
variable {first last after : Text} {quote : Quote} {inner : List Text}

theorem Term.isBlock_of_opened (opens : Scan.beginning first = .ok (.opened quote))
    (inside : ∀ line ∈ inner, Scan.closeBlock quote.mark line = none)
    (closes : Scan.closeBlock quote.mark last = some after) :
    (Term.literal ⟨first ++ inner.flatMap ('\n' :: ·) ++ '\n' :: Text.before after last,
      some quote⟩).IsBlock := by
  obtain ⟨triple, rest, rfl, kept⟩ := Scan.opened_of_beginning first quote opens
  have slashless : quote.mark ≠ '\\' := by cases quote <;> decide
  obtain ⟨front, rfl, -, reads⟩ := Scan.closeBlock_front _ slashless last after closes
  have closed : Scan.closeBlock quote.mark front = some [] := by
    have ends := reads []
    rwa [List.append_nil] at ends
  have long : quote.delimiter.length = 3 := by
    cases quote <;> first | rfl | cases triple
  refine ⟨quote, triple, ?_, ?_⟩
  · rw [Term.render, List.append_assoc, List.append_assoc]
    exact List.prefix_append _ _
  · rw [Term.render, List.append_assoc, List.append_assoc, ← long, List.drop_left,
      ← List.append_assoc, Text.before_append_right,
      Scan.closeBlock_lines _ quote.mark_ne_newline rest front inner kept inside]
    exact closed

end

namespace Item.ReadFrom

variable {item : Item} {line : Text} {own : List Text}

theorem ownRows (read : item.ReadFrom line own) (areLines : Text.AreLines (line :: own)) :
    item.ownRows = .outside line :: own.map .inside := by
  rw [Item.ownRows, read.lines_renderOwn areLines]

theorem count_renderOwn (read : item.ReadFrom line own) (areLines : Text.AreLines (line :: own)) :
    item.renderOwn.count '\n' = own.length := by
  have count := Text.count_closed areLines
  rw [read.written, List.count_append, List.count_singleton_self, List.length_cons] at count
  omega

theorem breaksInValue (read : item.ReadFrom line own) (areLines : Text.AreLines (line :: own)) :
    item.BreaksInValue := by
  intro breaks
  have count := read.count_renderOwn areLines
  have some : own.length ≠ 0 := by
    rw [← count]
    exact fun none => List.count_eq_zero.mp none breaks
  obtain ⟨head, first, after, headIs, value, -⟩ := read
  generalize item.value = found at value
  cases value with
  | whole begins => exact absurd rfl some
  | block opens inside closes =>
    rename_i quote inner last
    refine ⟨_, rfl, Term.isBlock_of_opened opens inside closes, ?_⟩
    obtain ⟨lineOne, others⟩ := (Text.areLines_cons _ _).mp areLines
    obtain ⟨innerLines, lastLine⟩ := (Text.areLines_append _ _).mp others
    rw [← Scan.head_append line head first headIs] at lineOne
    have valueLines : Text.AreLines (first :: (inner ++ [Text.before after last])) := by
      refine (Text.areLines_cons _ _).mpr ⟨?_, innerLines.append ?_⟩
      · exact fun member => lineOne (List.mem_append_right _ member)
      · intro other member newline
        rw [List.mem_singleton.mp member] at newline
        exact lastLine last (List.mem_singleton_self _)
          ((Text.before_prefix after last).subset newline)
    have valueCount := Text.count_closed valueLines
    rw [Text.closed_flatMap, List.count_append, List.count_singleton_self, List.flatMap_append,
      List.flatMap_singleton, ← List.append_assoc, List.length_cons, List.length_append,
      List.length_singleton] at valueCount
    rw [count, List.length_append, List.length_singleton, Term.render]
    dsimp only
    omega

end Item.ReadFrom

/-! ## Expansion -/

theorem runRows_expand (bare : Bool) (run : List CommentLine) :
    runRows (run.map (CommentLine.expand bare)) = runRows run := by
  simp only [runRows, List.map_map, Function.comp_def, CommentLine.render_expand]

theorem Item.breaksInValue_expand (bare : Bool) {item : Item} (breaks : item.BreaksInValue) :
    (item.expand bare).BreaksInValue := by
  intro newline
  rw [renderOwn_expand] at newline
  obtain ⟨term, isValue, isBlock, count⟩ := breaks newline
  refine ⟨term.expand bare, ?_, ?_, ?_⟩
  · rw [Item.expand, isValue]
    rfl
  · rw [Term.IsBlock, Term.render_expand]
    exact isBlock
  · rw [Term.render_expand, renderOwn_expand, count]

namespace Node

theorem rows_expand (bare : Bool) (node : Node) : (node.expand bare).rows = node.rows := by
  cases node with
  | blank raw => rfl
  | divider raw => rfl
  | block comments closing => simp only [expand, rows, runRows_expand]
  | item definition =>
    simp only [expand, rows, Item.ownRows, Item.renderOwn_expand]
    rw [Item.expand, runRows_expand]

theorem kinds_expand (bare : Bool) (node : Node) : (node.expand bare).kinds = node.kinds := by
  cases node with
  | blank raw => rfl
  | divider raw => rfl
  | block comments closing => simp only [expand, kinds, List.map_map, Function.comp_def]
  | item definition =>
    simp only [expand, kinds, Item.lineCount, Item.renderOwn_expand]
    rw [Item.expand, List.map_map]
    rfl

end Node

end Dotenv
