import Dotenv.Proofs.Document.Contents
import Dotenv.Proofs.Keyed
import Dotenv.Proofs.Schema.Groups
import Dotenv.Resolver.Builtin
/-!
# What is reported of a document

The issues of a document are those of its header, and then those of its items in order. What is
wrong with a decorator when it is kept alone, without the other decorators and all values, is
reported of the whole document, unless it is hidden in its group.
-/

set_option autoImplicit false

namespace Dotenv

open Schema (Reports)

/-! ## Documents -/

namespace Schema

/-- All that is wrong with a document: the header first, and then the items in order. -/
def issues (registry : Registry) (document : Document) : List SchemaIssue :=
  (Checked.errors (RootSchema.ofDecorators document.decoratorsByName)).map (⟨none, ·⟩) ++
    document.items.flatMap fun item => (ItemSchema.faults registry item).map (⟨some item.key, ·⟩)

theorem issues_ofItems (registry : Registry) (items : List Item) :
    (ofItems registry items).2 =
      items.flatMap fun item => (ItemSchema.faults registry item).map (⟨some item.key, ·⟩) := by
  induction items with
  | nil => rfl
  | cons item rest ih =>
    rw [List.flatMap_cons, ← ih]
    simp only [ofItems]
    cases compiled : ItemSchema.ofItem registry item with
    | ok schema =>
      have none : ItemSchema.faults registry item = [] := by
        by_contra some
        have fails := (ItemSchema.ofItem_eq_error_iff registry item _).mpr ⟨rfl, some⟩
        rw [compiled] at fails
        cases fails
      rw [none]
      rfl
    | error errors =>
      obtain ⟨rfl, -⟩ := (ItemSchema.ofItem_eq_error_iff registry item errors).mp compiled
      rfl

theorem ofDocument_eq_error_iff (registry : Registry) (document : Document)
    (found : List SchemaIssue) :
    ofDocument registry document = .error found ↔ found = issues registry document ∧ found ≠ [] := by
  have isIssues : (Checked.errors (RootSchema.ofDecorators document.decoratorsByName)).map
      (fun error => (⟨none, error⟩ : SchemaIssue)) ++ (ofItems registry document.items).2 =
        issues registry document := by
    rw [issues_ofItems]
    rfl
  simp only [ofDocument, isIssues]
  cases all : issues registry document with
  | nil => simp
  | cons first rest =>
    simp only [Except.error.injEq]
    constructor
    · intro same
      exact ⟨same.symm, same ▸ List.cons_ne_nil first rest⟩
    · intro same
      exact same.1.symm

end Schema

/-! ## Decorators alone -/

def CommentLine.isPlain : CommentLine → Bool
  | plain _ => true
  | decorated _ => false

def CommentLine.bare (lines : List CommentLine) : List CommentLine := lines.filter isPlain

def CommentLine.only (decorator : Decorator) : CommentLine := .decorated (.new [decorator])

def Item.bare (item : Item) : Item :=
  { item with
    above := CommentLine.bare item.above, value := none
    trailing := item.trailing.filter (·.comment.isPlain) }

def Item.only (decorator : Decorator) (item : Item) : Item :=
  { item.bare with above := item.bare.above ++ [.only decorator] }

def Node.bare : Node → Node
  | block comments closing => block (CommentLine.bare comments) closing
  | item definition => item definition.bare
  | node => node

/-- A place for decorators, under the key of its issues: the decorators that are in effect there, and
the document in which a decorator is the only one, there, and no item has a value. -/
inductive Document.Place (document : Document) :
    Option Text → Keyed Decorator → (Decorator → Document) → Prop where
  | header (place : Nat) (comments : List CommentLine) (closing : Text)
      (found : findHeader document.nodes = some (place, comments, closing)) :
      Place document none document.decoratorsByName fun decorator =>
        { document with
          nodes := (document.nodes.map Node.bare).set place
            (.block (CommentLine.bare comments ++ [.only decorator]) (some closing)) }
  | item (front : List Node) (definition : Item) (back : List Node)
      (nodes : document.nodes = front ++ .item definition :: back) :
      Place document (some definition.key) definition.decoratorsByName fun decorator =>
        { document with
          nodes := front.map Node.bare ++ .item (definition.only decorator) :: back.map Node.bare }

theorem CommentLine.decorators_bare (lines : List CommentLine) :
    (bare lines).flatMap decorators = [] := by
  apply List.flatMap_eq_nil_iff.mpr
  intro line member
  cases line with
  | plain comment => rfl
  | decorated line => cases (List.mem_filter.mp member).2

theorem Item.decorators_bareTrailing (trailing : Option TrailingComment) :
    ((trailing.filter (·.comment.isPlain)).map TrailingComment.comment).toList.flatMap
      CommentLine.decorators = [] := by
  cases trailing with
  | none => rfl
  | some trailing =>
    obtain ⟨gap, comment⟩ := trailing
    cases comment <;> rfl

theorem Item.decorators_bare (item : Item) : item.bare.decorators = [] := by
  simp only [decorators, comments, bare, List.flatMap_append, CommentLine.decorators_bare,
    decorators_bareTrailing, List.append_nil]

theorem Item.decorators_only (decorator : Decorator) (item : Item) :
    (item.only decorator).decorators = [decorator] := by
  simp only [decorators, comments, only, bare, List.flatMap_append, CommentLine.decorators_bare,
    decorators_bareTrailing, List.append_nil]
  rfl

theorem ItemSchema.faults_bare (registry : Registry) (item : Item) :
    faults registry item.bare = [] := by
  have none : item.bare.decoratorsByName = [] := by
    rw [Item.decoratorsByName, item.decorators_bare]
    rfl
  rw [faults, none]
  rfl

theorem ItemSchema.faults_only (registry : Registry) (decorator : Decorator) (item : Item) :
    faults registry (item.only decorator) =
      decoratorErrors registry [(decorator.name, decorator)] := by
  have one : (item.only decorator).decoratorsByName = [(decorator.name, decorator)] := by
    rw [Item.decoratorsByName, item.decorators_only decorator]
    rfl
  have undefined : valueOf registry (item.only decorator) = .ok (.literal .undefined) := rfl
  rw [faults, one, undefined, Checked.errors, List.nil_append]

theorem Decorator.name_of_get? (decorators : List Decorator) (name : Text) (one : Decorator)
    (found : (byName decorators).get? name = some one) : one.name = name := by
  obtain ⟨front, back, isList, -⟩ := Keyed.mem_ofList name one _ (Keyed.mem_of_get? _ _ _ found)
  have member : (name, one) ∈ decorators.map fun decorator => (decorator.name, decorator) :=
    isList ▸ List.mem_append_right _ List.mem_cons_self
  obtain ⟨_, _, same⟩ := List.mem_map.mp member
  cases same
  rfl

/-! ## Headers -/

namespace Document

theorem findHeader_set (nodes : List Node) (place : Nat) (comments changed : List CommentLine)
    (closing : Text) (found : findHeader nodes = some (place, comments, closing)) :
    findHeader ((nodes.map Node.bare).set place (.block changed (some closing))) =
      some (place, changed, closing) := by
  induction nodes generalizing place with
  | nil => cases found
  | cons node rest ih =>
    cases node with
    | blank raw =>
      obtain ⟨⟨below, _⟩, isBelow, same⟩ := Option.map_eq_some_iff.mp found
      cases same
      simp only [List.map_cons, Node.bare, List.set_cons_succ, findHeader, ih below isBelow]
      rfl
    | divider raw => cases found
    | block lines close =>
      cases close with
      | none => cases found
      | some close =>
        cases found
        rfl
    | item definition => cases found

theorem items_bare (nodes : List Node) :
    (nodes.map Node.bare).filterMap Node.item? = (nodes.filterMap Node.item?).map Item.bare := by
  rw [List.filterMap_map, List.map_filterMap]
  apply List.filterMap_congr
  intro node _
  cases node <;> rfl

theorem items_set (nodes : List Node) (place : Nat) (comments changed : List CommentLine)
    (closing : Text) (found : findHeader nodes = some (place, comments, closing)) :
    ((nodes.map Node.bare).set place (.block changed (some closing))).filterMap Node.item? =
      (nodes.filterMap Node.item?).map Item.bare := by
  induction nodes generalizing place with
  | nil => cases found
  | cons node rest ih =>
    cases node with
    | blank raw =>
      obtain ⟨⟨below, _⟩, isBelow, same⟩ := Option.map_eq_some_iff.mp found
      cases same
      exact ih below isBelow
    | divider raw => cases found
    | block lines close =>
      cases close with
      | none => cases found
      | some close =>
        cases found
        exact items_bare rest
    | item definition => cases found

theorem decorators_of_bare (document : Document)
    (bare : ∀ comments closing, .block comments (some closing) ∈ document.nodes →
      ∃ lines, comments = CommentLine.bare lines) : document.decorators = [] := by
  unfold decorators headerComments
  cases found : findHeader document.nodes with
  | none => rfl
  | some header =>
    obtain ⟨lines, isBare⟩ := bare _ _ (mem_of_findHeader document.nodes header found)
    simp only [isBare, CommentLine.decorators_bare]

theorem faults_of_bare (registry : Registry) (items : List Item) :
    ((items.map Item.bare).flatMap fun item =>
      (ItemSchema.faults registry item).map fun error => (⟨some item.key, error⟩ : SchemaIssue)) =
        [] := by
  rw [List.flatMap_map]
  apply List.flatMap_eq_nil_iff.mpr
  intro item _
  rw [ItemSchema.faults_bare]
  rfl

theorem Place.exists_checks {document : Document} {key : Option Text}
    {decorators : Keyed Decorator} {alone : Decorator → Document}
    (place : document.Place key decorators alone) (registry : Registry) :
    ∃ errorsOf, Reports errorsOf ∧
      (∀ name one, decorators.get? name = some one → one.name = name) ∧
      (∀ error ∈ errorsOf decorators, ⟨key, error⟩ ∈ Schema.issues registry document) ∧
      ∀ decorator, Schema.issues registry (alone decorator) =
        (errorsOf [(decorator.name, decorator)]).map (⟨key, ·⟩) := by
  cases place with
  | header index comments closing found =>
    refine ⟨_, RootSchema.reports_ofDecorators, Decorator.name_of_get? _, ?_, ?_⟩
    · intro error member
      exact List.mem_append_left _ (List.mem_map_of_mem member)
    · intro decorator
      have header := findHeader_set document.nodes index comments
        (CommentLine.bare comments ++ [.only decorator]) closing found
      have items := items_set document.nodes index comments
        (CommentLine.bare comments ++ [.only decorator]) closing found
      have one : (CommentLine.bare comments ++ [CommentLine.only decorator]).flatMap CommentLine.decorators =
          [decorator] := by
        rw [List.flatMap_append, CommentLine.decorators_bare]
        rfl
      simp only [Schema.issues, decoratorsByName, decorators, headerComments, header, one,
        Document.items, items, faults_of_bare, List.append_nil]
      rfl
  | item front definition back nodes =>
    refine ⟨_, ItemSchema.reports_decoratorErrors registry, Decorator.name_of_get? _, ?_, ?_⟩
    · intro error member
      have inItems : definition ∈ document.items :=
        List.mem_filterMap.mpr ⟨.item definition, nodes ▸ by simp, rfl⟩
      apply List.mem_append_right
      refine List.mem_flatMap.mpr ⟨definition, inItems, List.mem_map_of_mem ?_⟩
      exact List.mem_append_right _ member
    · intro decorator
      have noHeader := decorators_of_bare { document with
        nodes := front.map Node.bare ++ .item (definition.only decorator) :: back.map Node.bare } (by
          intro comments closing member
          simp only [List.mem_append, List.mem_cons, List.mem_map, reduceCtorEq, false_or] at member
          rcases member with ⟨node, -, isBare⟩ | ⟨node, -, isBare⟩
          · cases node <;> cases isBare
            exact ⟨_, rfl⟩
          · cases node <;> cases isBare
            exact ⟨_, rfl⟩)
      have noIssue : RootSchema.ofDecorators (Decorator.byName []) = .ok .standard := rfl
      simp only [Schema.issues, decoratorsByName, noHeader, noIssue, Document.items,
        List.filterMap_append, List.filterMap_cons, Node.item?, items_bare, List.flatMap_append,
        List.flatMap_cons, faults_of_bare, ItemSchema.faults_only, List.nil_append,
        List.append_nil]
      rfl

end Document

namespace Schema

/-- When a decorator that is in effect has an issue alone, the whole document is refused, with the
issues of its header before those of its items in order. The issue is among them, or there is one
under the same key of what hides it: a decorator before it in its group that is wrong alone, or a
conflict of two before it. -/
theorem issues_of_alone (registry : Registry) (document : Document) (key : Option Text)
    (decorators : Keyed Decorator) (alone : Decorator → Document)
    (place : document.Place key decorators alone) (decorator : Decorator)
    (effect : decorators.get? decorator.name = some decorator) (own : List SchemaIssue)
    (refused : ofDocument registry (alone decorator) = .error own) (issue : SchemaIssue)
    (member : issue ∈ own) :
    ∃ all, ofDocument registry document = .error all ∧ all = issues registry document ∧
      issue.key = key ∧
      (issue ∈ all ∨ ∃ cover, ⟨key, cover⟩ ∈ all ∧
        Hides (fun other error => ∃ theirs,
          ofDocument registry (alone other) = .error theirs ∧ ⟨key, error⟩ ∈ theirs)
          decorators decorator cover) := by
  obtain ⟨errorsOf, reports, named, inAll, ofAlone⟩ := place.exists_checks registry
  obtain ⟨rfl, -⟩ := (ofDocument_eq_error_iff registry (alone decorator) own).mp refused
  rw [ofAlone] at member
  obtain ⟨error, isError, rfl⟩ := List.mem_map.mp member
  have refuses : ∀ found ∈ errorsOf decorators,
      ofDocument registry document = .error (issues registry document) := by
    intro found isFound
    exact (ofDocument_eq_error_iff registry document _).mpr
      ⟨rfl, List.ne_nil_of_mem (inAll found isFound)⟩
  have ofWrong : ∀ other error, error ∈ errorsOf [(other.name, other)] → ∃ theirs,
      ofDocument registry (alone other) = .error theirs ∧ ⟨key, error⟩ ∈ theirs := by
    intro other error wrong
    have inAlone : (⟨key, error⟩ : SchemaIssue) ∈ issues registry (alone other) := by
      rw [ofAlone]
      exact List.mem_map_of_mem wrong
    exact ⟨_, (ofDocument_eq_error_iff registry _ _).mpr ⟨rfl, List.ne_nil_of_mem inAlone⟩, inAlone⟩
  rcases reports decorators decorator named effect error isError with found | ⟨cover, found, hides⟩
  · exact ⟨_, refuses error found, rfl, rfl, .inl (inAll error found)⟩
  · exact ⟨_, refuses cover found, rfl, rfl, .inr ⟨cover, inAll cover found, hides.imp ofWrong⟩⟩

def assigning (name value : String) : Decorator :=
  ⟨[' '], name.toList, .assigned (.literal (.bare value.toList))⟩

def unbounded : Item :=
  { Item.new ['A'] (some (.literal (.bare ['1']))) with
    above := [.decorated (.new [assigning "min" "x", assigning "max" "y"])] }

/-- A header with two wrong defaults, and an item with bounds that are no numbers. -/
def faulty : Document :=
  { nodes :=
      [.block [.decorated (.new [assigning "defaultRequired" "5", assigning "defaultSensitive" "5"])]
        (some plainDivider), .item unbounded]
    trailingNewline := true }

theorem issues_of_alone_bound :
    ∃ decorators alone all, faulty.Place (some ['A']) decorators alone ∧
      decorators.get? "max".toList = some (assigning "max" "y") ∧
      ofDocument (.withBuiltins []) (alone (assigning "max" "y")) =
        .error [⟨some ['A'], .notANumber "max".toList ['y']⟩] ∧
      ofDocument (.withBuiltins []) faulty = .error all ∧
      (⟨some ['A'], .notANumber "max".toList ['y']⟩ ∈ all ∨ ∃ cover, ⟨some ['A'], cover⟩ ∈ all ∧
        Hides (fun other error => ∃ theirs,
          ofDocument (.withBuiltins []) (alone other) = .error theirs ∧ ⟨some ['A'], error⟩ ∈ theirs)
          decorators (assigning "max" "y") cover) := by
  have place : faulty.Place (some ['A']) _ _ := .item [_] unbounded [] rfl
  obtain ⟨all, refused, -, -, found⟩ := issues_of_alone (.withBuiltins []) faulty _ _ _ place
    (assigning "max" "y") (by decide +kernel) _ rfl ⟨some ['A'], .notANumber "max".toList ['y']⟩
    (by decide +kernel)
  exact ⟨_, _, all, place, by decide +kernel, rfl, refused, found⟩

example :
    let wrong (name : String) : Decorator :=
      ⟨[' '], name.toList, .assigned (.literal (.bare ['5']))⟩
    let document : Document :=
      { nodes :=
          [.block [.decorated (.new [wrong "defaultRequired", wrong "defaultSensitive"])]
            (some plainDivider)]
        trailingNewline := true }
    let reported :=
      match ofDocument (.withBuiltins []) document with
      | .ok _ => []
      | .error issues => issues
    reported = [⟨none, .invalidArguments "defaultRequired".toList
      "expected true, false or infer, got 5".toList⟩] := by
  decide +kernel

end Schema

end Dotenv
