import Dotenv.Proofs.Edit.Reread
import Dotenv.Proofs.Reading.Runs
/-!
# Descriptions of edits

What is read from the text that describes an edit: the lines of one value, or a decorator on a line.
-/

set_option autoImplicit false

namespace Dotenv

/-! ## Values -/

theorem Document.readFrom_of_only (bare : Bool) (source : Text) (verbatim : Document)
    (definition : Item) (isRead : readVerbatim source = .ok verbatim)
    (only : (verbatim.expand bare).nodes = [.item definition]) :
    ∃ item line own, definition = Item.expand bare item ∧ item.ReadFrom line own ∧
      Text.AreLines (line :: own) := by
  obtain ⟨node, isNode, expanded⟩ := List.map_eq_singleton_iff.mp only
  cases node with
  | item item =>
    cases expanded
    obtain ⟨line, own, read, areLines⟩ :=
      readFrom_of_mem source verbatim isRead item (by rw [isNode]; exact List.mem_cons_self)
    exact ⟨item, line, own, rfl, read, areLines⟩
  | _ => cases expanded

namespace Edit

theorem describe_eq_ok (text : Text) (document : Document) :
    describe text = .ok document ↔ Document.read .standard text = .ok document := by
  unfold describe
  cases Document.read .standard text with
  | error fault => simp [Except.mapError]
  | ok found => simp [Except.mapError]

theorem describe_eq_error (text : Text) (error : EditError) :
    describe text = .error error ↔
      ∃ fault, Document.read .standard text = .error fault ∧ .unreadable text fault = error := by
  unfold describe
  cases Document.read .standard text with
  | error fault => simp [Except.mapError]
  | ok found => simp [Except.mapError]

theorem readValue_eq_ok (key text : Text) (term : Option Term) :
    readValue key text = .ok term ↔ ∃ document definition,
      Document.read .standard (itemText key text) = .ok document ∧
        document.nodes = [.item definition] ∧ definition.trailing = none ∧
        definition.value = term := by
  simp only [readValue, ← describe_eq_ok]
  cases describe (itemText key text) with
  | error fault => simp
  | ok document =>
    obtain ⟨nodes, trailingNewline⟩ := document
    simp only
    constructor
    · intro success
      split at success
      · rename_i definition
        split at success
        · rename_i noComment
          cases success
          exact ⟨_, definition, rfl, rfl, Option.isNone_iff_eq_none.mp noComment, rfl⟩
        · cases success
      · cases success
    · rintro ⟨_, definition, same, isNodes, noComment, rfl⟩
      cases same
      simp only at isNodes
      subst isNodes
      simp [noComment]

theorem readsValue_of_readValue (key text : Text) (term : Option Term)
    (success : readValue key text = .ok term) :
    ∃ (verbatim : Option Term) (first : Text) (more : List Text) (after : Text),
      term = verbatim.map (Term.expand true) ∧ ReadsValue first more verbatim after ∧
        Text.AreLines (first :: more) ∧ Text.skipGap first = first ∧ Text.skipGap after = [] := by
  obtain ⟨document, definition, isRead, only, noComment, rfl⟩ :=
    (readValue_eq_ok key text term).mp success
  obtain ⟨verbatim, isVerbatim, rfl⟩ := (Document.read_standard_eq_ok _ _).mp isRead
  obtain ⟨item, line, own, rfl, read, areLines⟩ :=
    Document.readFrom_of_only true _ verbatim definition isVerbatim only
  obtain ⟨head, first, after, headIs, value, ends, -⟩ := read
  have noTrailing : item.trailing = none := Option.map_eq_none_iff.mp noComment
  rw [noTrailing] at ends
  rw [← Scan.head_append line head first headIs, Text.areLines_cons, List.mem_append,
    not_or] at areLines
  exact ⟨item.value, first, own, after, rfl, value,
    (Text.areLines_cons first own).mpr ⟨areLines.1.2, areLines.2⟩,
    Scan.head_rest_solid line head first headIs, Scan.lineEnd_none after item.tail ends⟩

end Edit

/-! ## Decorators -/

theorem Document.block_areLines (source : Text) (document : Document)
    (isRead : readVerbatim source = .ok document) (comments : List CommentLine)
    (closing : Option Text) (member : .block comments closing ∈ document.nodes) :
    ∀ line ∈ comments, line.IsLine := by
  obtain ⟨body, last, portions, isNodes⟩ := portions_of_read source document isRead
  obtain ⟨inBody, inLast⟩ := portions.areLines (Text.areLines_lines _) (by simp)
  rw [isNodes] at member
  rcases List.mem_append.mp member with member | member
  · exact inBody comments closing member
  · cases last with
    | nil => cases member
    | cons first rest =>
      cases List.mem_singleton.mp member
      exact inLast

namespace Edit

theorem onlyDecorator?_eq_some (nodes : List Node) (decorator : Decorator)
    (found : onlyDecorator? nodes = some decorator) :
    ∃ row others closing rest, nodes = .block (.decorated row :: others) closing :: rest ∧
      row.decorators = [decorator] ∧ row.trailing = none := by
  unfold onlyDecorator? at found
  split at found
  · rename_i row others closing rest
    split at found
    · rename_i alone noTrailing
      cases found
      exact ⟨row, others, closing, rest, rfl, alone, noTrailing⟩
    · cases found
  · cases found

theorem onlyDecorator?_expand (bare : Bool) (nodes : List Node) :
    onlyDecorator? (nodes.map (Node.expand bare)) =
      (onlyDecorator? nodes).map (Decorator.expand bare) := by
  cases nodes with
  | nil => rfl
  | cons node rest =>
    cases node with
    | block comments closing =>
      cases comments with
      | nil => rfl
      | cons comment others =>
        cases comment with
        | plain remark => rfl
        | decorated row =>
          obtain ⟨opening, decorators, trailing, tail⟩ := row
          rcases decorators with _ | ⟨first, _ | ⟨second, more⟩⟩ <;> cases trailing <;> rfl
    | _ => rfl

theorem readDecorator_eq_ok (name : Text) (value : Option Text) (decorator : Decorator) :
    readDecorator name value = .ok decorator ↔ ∃ document,
      Document.read .standard (decoratorText name value) = .ok document ∧
        onlyDecorator? document.nodes = some decorator := by
  simp only [readDecorator, ← describe_eq_ok]
  cases describe (decoratorText name value) with
  | error fault => simp
  | ok document =>
    simp only [Except.ok.injEq, exists_eq_left']
    cases onlyDecorator? document.nodes <;> simp

theorem formed_of_readDecorator (name : Text) (value : Option Text) (decorator : Decorator)
    (success : readDecorator name value = .ok decorator) :
    ∃ verbatim : Decorator, decorator = verbatim.expand true ∧ verbatim.Formed ∧
      '\n' ∉ verbatim.render := by
  obtain ⟨document, isRead, only⟩ := (readDecorator_eq_ok name value decorator).mp success
  obtain ⟨verbatim, isVerbatim, rfl⟩ := (Document.read_standard_eq_ok _ _).mp isRead
  rw [Document.expand, onlyDecorator?_expand, Option.map_eq_some_iff] at only
  obtain ⟨found, only, rfl⟩ := only
  obtain ⟨row, others, closing, rest, isNodes, alone, -⟩ :=
    onlyDecorator?_eq_some verbatim.nodes found only
  have inRow : found ∈ row.decorators := alone ▸ List.mem_singleton_self found
  obtain ⟨⟨indent, -, formed⟩, noNewline⟩ := Document.block_areLines _ verbatim isVerbatim _
    closing (isNodes ▸ List.mem_cons_self) (.decorated row) List.mem_cons_self
  exact ⟨found, rfl, formed.each found inRow,
    ((DecoratorLine.not_mem_render row '\n').mp noNewline).2.1 found inRow⟩

end Edit

end Dotenv
