import Dotenv.Proofs.Reading.Portions
/-!
# Contents

What a document says, apart from how it is laid out: its items in order, each with its key, its
canonical value, its decorators and its description, and the decorators of the header.
-/

set_option autoImplicit false

namespace Dotenv

/-- The canonical text of a setting, after the name of the decorator. -/
def Setting.canonical : Setting → Text
  | flag => []
  | assigned value => '=' :: value.canonical
  | call args _ => '(' :: Text.join [',', ' '] args.canonicalEach ++ [')']

def Decorator.contents (decorator : Decorator) : Text × Text :=
  (decorator.name, decorator.setting.canonical)

structure Item.Contents where
  key : Text
  value : Option Text
  decorators : List (Text × Text)
  description : Option Text
deriving DecidableEq

def Item.contents (item : Item) : Item.Contents :=
  { key := item.key
    value := item.value.map Term.canonical
    decorators := item.decorators.map Decorator.contents
    description := item.description }

structure Document.Contents where
  header : List (Text × Text)
  items : List Item.Contents
deriving DecidableEq

def Document.contents (document : Document) : Document.Contents :=
  { header := document.decorators.map Decorator.contents
    items := document.items.map Item.contents }

/-! ## Items -/

theorem Item.comments_expand (bare : Bool) (item : Item) :
    (item.expand bare).comments = item.comments.map (CommentLine.expand bare) := by
  obtain ⟨above, indent, exported, key, beforeEquals, afterEquals, value, trailing, tail, span⟩ :=
    item
  cases trailing with
  | none => simp [comments, expand]
  | some trailing => simp [comments, expand]

theorem Item.contents_expand_congr (bare : Bool) (item other : Item) (key : item.key = other.key)
    (value : item.value = other.value) (comments : item.comments = other.comments) :
    (item.expand bare).contents = (other.expand bare).contents := by
  have sameKey : (item.expand bare).key = (other.expand bare).key := key
  have sameValue : (item.expand bare).value = (other.expand bare).value :=
    congrArg (Option.map (Term.expand bare)) value
  have sameComments : (item.expand bare).comments = (other.expand bare).comments := by
    rw [comments_expand, comments_expand, comments]
  simp only [contents, decorators, description, sameKey, sameValue, sameComments]

/-! ## Nodes -/

def Node.comments : Node → List CommentLine
  | block comments _ => comments
  | item definition => definition.comments
  | blank _ | divider _ => []

theorem Node.comments_expand (bare : Bool) (node : Node) :
    (node.expand bare).comments = node.comments.map (CommentLine.expand bare) := by
  cases node with
  | blank | divider | block => rfl
  | item definition => exact definition.comments_expand bare

namespace Document

theorem mem_nodes_of_mem_items (document : Document) (item : Item)
    (member : item ∈ document.items) : .item item ∈ document.nodes := by
  obtain ⟨node, inNodes, isItem⟩ := List.mem_filterMap.mp member
  cases node with
  | item definition =>
    cases isItem
    exact inNodes
  | _ => cases isItem

theorem mem_of_findHeader (nodes : List Node) (header : Nat × List CommentLine × Text)
    (found : findHeader nodes = some header) : .block header.2.1 (some header.2.2) ∈ nodes := by
  induction nodes generalizing header with
  | nil => cases found
  | cons node rest ih =>
    cases node with
    | blank raw =>
      obtain ⟨below, isBelow, rfl⟩ := Option.map_eq_some_iff.mp found
      exact List.mem_cons_of_mem _ (ih below isBelow)
    | divider raw => cases found
    | block comments closing =>
      cases closing with
      | none => cases found
      | some closing =>
        cases found
        exact List.mem_cons_self
    | item definition => cases found

theorem findHeader_append_item (front back : List Node) (item : Item) :
    findHeader (front ++ .item item :: back) = findHeader front := by
  induction front with
  | nil => rfl
  | cons node rest ih =>
    cases node with
    | blank raw => simp only [List.cons_append, findHeader, ih]
    | divider raw => rfl
    | block comments closing => cases closing <;> rfl
    | item definition => rfl

theorem findHeader_append_looseBlock (front : List Node) (run : List CommentLine) :
    findHeader (front ++ looseBlock run) = findHeader front := by
  induction front with
  | nil => cases run <;> rfl
  | cons node rest ih =>
    cases node with
    | blank raw => simp only [List.cons_append, findHeader, ih]
    | divider raw => rfl
    | block comments closing => cases closing <;> rfl
    | item definition => rfl

theorem findHeader_unplaced (nodes : List Node) :
    findHeader (nodes.map Node.unplaced) = findHeader nodes := by
  induction nodes with
  | nil => rfl
  | cons node rest ih =>
    cases node with
    | blank raw => simp only [List.map_cons, Node.unplaced, findHeader, ih]
    | divider raw => rfl
    | block comments closing => cases closing <;> rfl
    | item definition => rfl

theorem decorators_congr (document other : Document)
    (same : findHeader document.nodes = findHeader other.nodes) :
    document.decorators = other.decorators := by
  rw [decorators, headerComments, same]
  rfl

theorem contents_unplaced (nodes : List Node) (trailingNewline : Bool) :
    contents ⟨nodes.map Node.unplaced, trailingNewline⟩ = contents ⟨nodes, trailingNewline⟩ := by
  have header := decorators_congr ⟨nodes.map Node.unplaced, trailingNewline⟩
    ⟨nodes, trailingNewline⟩ (findHeader_unplaced nodes)
  have items : (items ⟨nodes.map Node.unplaced, trailingNewline⟩).map Item.contents =
      (items ⟨nodes, trailingNewline⟩).map Item.contents := by
    simp only [Document.items]
    clear header
    induction nodes with
    | nil => rfl
    | cons node rest ih =>
      cases node with
      | item definition =>
        simp only [List.map_cons, Node.unplaced, List.filterMap_cons, Node.item?, ih]
        rfl
      | _ => simpa only [List.map_cons, Node.unplaced, List.filterMap_cons, Node.item?] using ih
  simp only [contents, header, items]

theorem contents_expand_of_unplaced (bare : Bool) (nodes others : List Node)
    (trailingNewline otherNewline : Bool)
    (same : nodes.map Node.unplaced = others.map Node.unplaced) :
    (expand bare ⟨nodes, trailingNewline⟩).contents =
      (expand bare ⟨others, otherNewline⟩).contents := by
  have commutes : ∀ list : List Node, (list.map (Node.expand bare)).map Node.unplaced =
      (list.map Node.unplaced).map (Node.expand bare) := by
    intro list
    rw [List.map_map, List.map_map]
    refine List.map_congr_left fun node _ => ?_
    cases node <;> rfl
  have unplaced : ∀ (list : List Node) (newline : Bool), (expand bare ⟨list, newline⟩).contents =
      contents ⟨(list.map Node.unplaced).map (Node.expand bare), false⟩ := by
    intro list newline
    rw [← commutes, contents_unplaced]
    rfl
  rw [unplaced, unplaced, same]

theorem contents_item (bare : Bool) (front back : List Node) (item : Item)
    (trailingNewline : Bool) :
    (expand bare ⟨front ++ .item item :: back, trailingNewline⟩).contents =
      { header := (expand bare ⟨front, trailingNewline⟩).contents.header
        items := (expand bare ⟨front, trailingNewline⟩).contents.items ++
          (item.expand bare).contents ::
            (expand bare ⟨back, trailingNewline⟩).contents.items } := by
  have nodes : (front ++ .item item :: back).map (Node.expand bare) =
      front.map (Node.expand bare) ++ .item (item.expand bare) :: back.map (Node.expand bare) := by
    rw [List.map_append, List.map_cons]
    rfl
  have header := decorators_congr (expand bare ⟨front ++ .item item :: back, trailingNewline⟩)
    (expand bare ⟨front, trailingNewline⟩) (by
      simp only [expand, nodes]
      exact findHeader_append_item _ _ _)
  simp only [expand, nodes] at header
  simp only [contents, expand, nodes, header, items, List.filterMap_append, List.filterMap_cons,
    Node.item?, List.map_append, List.map_cons]

theorem contents_append_looseBlock (bare : Bool) (front : List Node) (run : List CommentLine)
    (trailingNewline : Bool) :
    (expand bare ⟨front ++ looseBlock run, trailingNewline⟩).contents =
      (expand bare ⟨front, trailingNewline⟩).contents := by
  have loose : (looseBlock run).map (Node.expand bare) =
      looseBlock (run.map (CommentLine.expand bare)) := by
    cases run <;> rfl
  have noItem : ∀ comments : List CommentLine, (looseBlock comments).filterMap Node.item? = [] := by
    intro comments
    cases comments <;> rfl
  have header := decorators_congr (expand bare ⟨front ++ looseBlock run, trailingNewline⟩)
    (expand bare ⟨front, trailingNewline⟩) (by
      simp only [expand, List.map_append, loose]
      exact findHeader_append_looseBlock _ _)
  simp only [expand, List.map_append, loose] at header
  simp only [contents, expand, List.map_append, loose, header, items, List.filterMap_append,
    noItem, List.append_nil]

end Document

end Dotenv
