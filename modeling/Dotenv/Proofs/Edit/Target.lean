import Dotenv.Edit
import Dotenv.Proofs.Success
/-!
# The last definition of a key

An edit of an item changes the last item of a key and leaves the nodes around it alone.
-/

set_option autoImplicit false

namespace Dotenv

namespace Node

section
variable (key : Text) (change : Item → Item)

theorem updateLast_later (first : Node) (rest changed : List Node)
    (later : updateLast key change rest = some changed) :
    updateLast key change (first :: rest) = some (first :: changed) := by
  cases first <;> simp only [updateLast, later]

theorem updateLast_item (item : Item) (rest : List Node)
    (absent : updateLast key change rest = none) :
    updateLast key change (.item item :: rest) =
      if item.key = key then some (.item (change item) :: rest) else none := by
  simp only [updateLast, absent]

theorem updateLast_other (first : Node) (rest : List Node) (noItem : first.item? = none)
    (absent : updateLast key change rest = none) :
    updateLast key change (first :: rest) = none := by
  cases first with
  | item definition => cases noItem
  | _ => simp only [updateLast, absent]

theorem ne_key_of_updateLast (nodes : List Node) (absent : updateLast key change nodes = none)
    (item : Item) (member : .item item ∈ nodes) : item.key ≠ key := by
  induction nodes with
  | nil => cases member
  | cons first rest ih =>
    cases later : updateLast key change rest with
    | some changed =>
      rw [updateLast_later key change first rest changed later] at absent
      cases absent
    | none =>
      rcases List.mem_cons.mp member with rfl | inRest
      · rw [updateLast_item key change item rest later] at absent
        split at absent
        · cases absent
        · rename_i differs
          exact differs
      · exact ih later inRest

theorem updateLast_eq_some (nodes changed : List Node)
    (updated : updateLast key change nodes = some changed) :
    ∃ front item back, nodes = front ++ .item item :: back ∧ item.key = key ∧
      changed = front ++ .item (change item) :: back ∧
        ∀ other, Node.item other ∈ back → other.key ≠ key := by
  induction nodes generalizing changed with
  | nil => cases updated
  | cons first rest ih =>
    cases later : updateLast key change rest with
    | some laterChanged =>
      rw [updateLast_later key change first rest laterChanged later] at updated
      cases updated
      obtain ⟨front, item, back, rfl, isKey, rfl, last⟩ := ih laterChanged later
      exact ⟨first :: front, item, back, rfl, isKey, rfl, last⟩
    | none =>
      cases isItem : first.item? with
      | none =>
        rw [updateLast_other key change first rest isItem later] at updated
        cases updated
      | some item =>
        obtain rfl : first = .item item := by
          cases first with
          | item definition =>
            cases isItem
            rfl
          | _ => cases isItem
        rw [updateLast_item key change item rest later] at updated
        split at updated
        · rename_i isKey
          cases updated
          exact ⟨[], item, rest, rfl, isKey, rfl, ne_key_of_updateLast key change rest later⟩
        · cases updated

end

theorem updateLast_expand (bare : Bool) (key : Text) (change expanded : Item → Item)
    (same : ∀ item, expanded (item.expand bare) = (change item).expand bare) (nodes : List Node) :
    updateLast key expanded (nodes.map (Node.expand bare)) =
      (updateLast key change nodes).map (List.map (Node.expand bare)) := by
  induction nodes with
  | nil => rfl
  | cons first rest ih =>
    rw [List.map_cons]
    cases later : updateLast key change rest with
    | some changed =>
      rw [later] at ih
      rw [updateLast_later key change first rest changed later,
        updateLast_later key expanded _ _ _ ih]
      rfl
    | none =>
      rw [later] at ih
      cases first with
      | item definition =>
        rw [updateLast_item key change definition rest later, Node.expand,
          updateLast_item key expanded _ _ ih]
        by_cases isKey : definition.key = key
        · rw [if_pos isKey, if_pos (show (definition.expand bare).key = key from isKey), same]
          rfl
        · rw [if_neg isKey, if_neg (show ¬ (definition.expand bare).key = key from isKey)]
          rfl
      | _ =>
        rw [updateLast_other key change _ rest rfl later]
        exact updateLast_other key expanded _ _ rfl ih

end Node

namespace Document

theorem items_of_ne (key : Text) (nodes : List Node)
    (absent : ∀ item, Node.item item ∈ nodes → item.key ≠ key) :
    (nodes.filterMap Node.item?).filter (·.key = key) = [] := by
  rw [List.filter_eq_nil_iff]
  intro item member
  obtain ⟨node, inNodes, isItem⟩ := List.mem_filterMap.mp member
  cases node with
  | item definition =>
    cases isItem
    simpa using absent item inNodes
  | _ => cases isItem

theorem item?_last (key : Text) (front back : List Node) (item : Item) (trailingNewline : Bool)
    (isKey : item.key = key) (last : ∀ other, Node.item other ∈ back → other.key ≠ key) :
    (Document.mk (front ++ .item item :: back) trailingNewline).item? key = some item := by
  have none := items_of_ne key back last
  simp only [item?, items, List.filterMap_append, List.filterMap_cons, Node.item?,
    List.filter_append, List.filter_cons, isKey, decide_true, if_true, none]
  exact List.getLast?_concat

theorem items_expand (bare : Bool) (document : Document) :
    (document.expand bare).items = document.items.map (Item.expand bare) := by
  simp only [items, expand, List.filterMap_map, List.map_filterMap]
  refine congrArg (List.filterMap · document.nodes) (funext fun node => ?_)
  cases node <;> rfl

theorem item?_expand (bare : Bool) (key : Text) (document : Document) :
    (document.expand bare).item? key = (document.item? key).map (Item.expand bare) := by
  rw [item?, items_expand, List.filter_map, List.getLast?_map]
  rfl

theorem item?_none (key : Text) (nodes : List Node) (trailingNewline : Bool)
    (absent : ∀ item, Node.item item ∈ nodes → item.key ≠ key) :
    (Document.mk nodes trailingNewline).item? key = none := by
  simp only [item?, items, items_of_ne key nodes absent, List.getLast?_nil]

theorem item?_of_updated (key : Text) (change : Item → Item) (document : Document)
    (nodes : List Node) (updated : Node.updateLast key change document.nodes = some nodes) :
    ∃ item, document.item? key = some item := by
  obtain ⟨documentNodes, trailingNewline⟩ := document
  obtain ⟨front, item, back, rfl, isKey, -, noLater⟩ :=
    Node.updateLast_eq_some key change documentNodes nodes updated
  exact ⟨item, item?_last key front back item trailingNewline isKey noLater⟩

end Document

end Dotenv
