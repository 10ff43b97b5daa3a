import Dotenv.Proofs.Reading.Decorators
import Dotenv.Proofs.Value.Plain
/-!
# Reading plain documents

A document without decorators, whose values are literals without substitutions, is read the same
with every option of reading: there is nothing in it to expand.
-/

set_option autoImplicit false

namespace Dotenv

/-! ## Plain values -/

namespace Item

/-- An item without a value, or with a literal in which nothing is substituted. -/
def IsPlain (item : Item) : Prop :=
  ∀ term, item.value = some term → ∃ literal, term = .literal literal ∧ literal.IsFixed

instance (item : Item) : Decidable item.IsPlain :=
  match isValue : item.value with
  | none => .isTrue (by simp [IsPlain, isValue])
  | some (.literal literal) => decidable_of_iff literal.IsFixed (by simp [IsPlain, isValue])
  | some (.call _ _ _ _) => .isFalse (by simp [IsPlain, isValue])

/-- The text that a definition is exported as, when it is given by a literal. -/
def literalText (item : Item) : Option Text :=
  match item.value with
  | some (.literal literal) => literal.exported
  | _ => none

def literalValue (item : Item) : Value :=
  match item.value with
  | some (.literal literal) => .ofScalar literal.scalar
  | _ => .undefined

theorem exported_literalValue (item : Item) : item.literalValue.exported = item.literalText := by
  unfold literalValue literalText
  split
  · exact Literal.exported_scalar _
  · rfl

end Item

namespace Node

def IsUndecorated (node : Node) : Prop := ∀ line ∈ node.comments, line.decorators = []

instance (node : Node) : Decidable node.IsUndecorated :=
  inferInstanceAs (Decidable (∀ line ∈ node.comments, line.decorators = []))

end Node

namespace Document

structure IsPlain (document : Document) : Prop where
  undecorated : ∀ node ∈ document.nodes, node.IsUndecorated
  values : ∀ item ∈ document.items, item.IsPlain

instance (document : Document) : Decidable document.IsPlain :=
  decidable_of_iff ((∀ node ∈ document.nodes, node.IsUndecorated) ∧
      ∀ item ∈ document.items, item.IsPlain)
    ⟨fun plain => ⟨plain.1, plain.2⟩, fun plain => ⟨plain.undecorated, plain.values⟩⟩

/-- The distinct keys in the order of the first definitions, with the texts that the last
definitions are exported as. -/
def literalTexts (document : Document) : Keyed Text :=
  (document.items.map Item.key).eraseDups.filterMap fun key =>
    ((document.item? key).bind Item.literalText).map fun text => (key, text)

end Document

/-! ## Reading -/

theorem CommentLine.expand_of_undecorated (bare : Bool) (line : CommentLine)
    (undecorated : (line.expand bare).decorators = []) : line.expand bare = line := by
  cases line with
  | plain comment => rfl
  | decorated written =>
    have none : written.decorators = [] := List.map_eq_nil_iff.mp undecorated
    obtain ⟨opening, decorators, trailing, tail⟩ := written
    cases none
    rfl

theorem Term.expand_of_isFixed (bare : Bool) (literal : Literal) (isFixed : literal.IsFixed) :
    (Term.literal literal).expand bare = .literal literal := by
  rw [expand, literal.expand?_of_isFixed bare isFixed, Option.getD_none]

theorem Term.eq_of_expand_eq_literal (bare : Bool) (term : Term) (literal : Literal)
    (expanded : term.expand bare = .literal literal) : term = .literal literal := by
  cases term with
  | call name args argsSource source => cases expanded
  | literal written =>
    rw [expand] at expanded
    cases found : written.expand? bare with
    | none =>
      rw [found, Option.getD_none] at expanded
      exact expanded
    | some call =>
      have isCall := written.isCall_of_expand? bare call found
      rw [found, Option.getD_some] at expanded
      rw [expanded] at isCall
      cases isCall

theorem Item.expand_of_isPlain (bare : Bool) (item : Item)
    (undecorated : ∀ line ∈ (item.expand bare).comments, line.decorators = [])
    (plain : (item.expand bare).IsPlain) : item.expand bare = item := by
  have above : item.above.map (CommentLine.expand bare) = item.above := by
    rw [List.map_congr_left (g := id), List.map_id]
    intro line member
    apply CommentLine.expand_of_undecorated bare line
    exact undecorated _ (List.mem_append_left _ (List.mem_map_of_mem member))
  have trailing : item.trailing.map (fun trailing =>
      { trailing with comment := trailing.comment.expand bare }) = item.trailing := by
    cases isTrailing : item.trailing with
    | none => rfl
    | some trailing =>
      have same := CommentLine.expand_of_undecorated bare trailing.comment (by
        apply undecorated
        simp [comments, expand, isTrailing])
      simp only [Option.map_some, same]
  have value : item.value.map (Term.expand bare) = item.value := by
    cases isValue : item.value with
    | none => rfl
    | some term =>
      obtain ⟨literal, isLiteral, _⟩ := plain (term.expand bare) (by rw [expand, isValue]; rfl)
      rw [Option.map_some, isLiteral, term.eq_of_expand_eq_literal bare literal isLiteral]
  unfold expand
  rw [above, trailing, value]

theorem Item.isPlain_expand (bare : Bool) (item : Item) (plain : item.IsPlain) :
    (item.expand bare).IsPlain := by
  intro term isValue
  obtain ⟨written, isWritten, expanded⟩ := Option.map_eq_some_iff.mp isValue
  obtain ⟨literal, rfl, isFixed⟩ := plain written isWritten
  rw [Term.expand_of_isFixed bare literal isFixed] at expanded
  exact ⟨literal, expanded.symm, isFixed⟩

theorem Node.expand_of_isPlain (bare : Bool) (node : Node)
    (undecorated : (node.expand bare).IsUndecorated)
    (plain : ∀ item, node.expand bare = .item item → item.IsPlain) : node.expand bare = node := by
  cases node with
  | blank | divider => rfl
  | block comments closing =>
    have same : comments.map (CommentLine.expand bare) = comments := by
      rw [List.map_congr_left (g := id), List.map_id]
      intro line member
      exact CommentLine.expand_of_undecorated bare line (undecorated _ (List.mem_map_of_mem member))
    rw [expand, same]
  | item definition =>
    exact congrArg item (definition.expand_of_isPlain bare undecorated (plain _ rfl))

namespace Document

theorem mem_items (document : Document) (item : Item) (member : .item item ∈ document.nodes) :
    item ∈ document.items :=
  List.mem_filterMap.mpr ⟨.item item, member, rfl⟩

theorem expand_of_isPlain (bare : Bool) (document : Document)
    (plain : (document.expand bare).IsPlain) : document.expand bare = document := by
  have same : document.nodes.map (Node.expand bare) = document.nodes := by
    rw [List.map_congr_left (g := id), List.map_id]
    intro node member
    have inExpanded : node.expand bare ∈ (document.expand bare).nodes := List.mem_map_of_mem member
    apply node.expand_of_isPlain bare (plain.undecorated _ inExpanded)
    intro item isItem
    exact plain.values item ((document.expand bare).mem_items item (isItem ▸ inExpanded))
  rw [expand, same]

theorem IsPlain.expand (bare : Bool) {document : Document} (plain : document.IsPlain) :
    (document.expand bare).IsPlain := by
  constructor
  · intro node member
    obtain ⟨written, inNodes, rfl⟩ := List.mem_map.mp member
    intro line inComments
    rw [Node.comments_expand] at inComments
    obtain ⟨original, inOriginal, rfl⟩ := List.mem_map.mp inComments
    rw [CommentLine.decorators_expand, plain.undecorated written inNodes original inOriginal]
    rfl
  · intro item member
    rw [items_expand] at member
    obtain ⟨written, inItems, rfl⟩ := List.mem_map.mp member
    exact written.isPlain_expand bare (plain.values written inItems)

theorem read_of_isPlain (options other : ReadOptions) (source : Text) (document : Document)
    (reads : read options source = .ok document) (plain : document.IsPlain) :
    read other source = .ok document := by
  obtain ⟨verbatim, isVerbatim, isDocument⟩ := (map_eq_ok _ _ _).mp reads
  have same : verbatim = document := by
    cases expands : options.expand with
    | false => simpa [expands] using isDocument
    | true =>
      simp only [expands, if_true] at isDocument
      rw [← isDocument] at plain ⊢
      exact (expand_of_isPlain _ verbatim plain).symm
  rw [same] at isVerbatim
  rw [read, isVerbatim]
  cases other.expand with
  | false => rfl
  | true => simp [Except.map, expand_of_isPlain _ document (plain.expand other.bareNames)]

end Document

end Dotenv
