import Dotenv.Proofs.Reading.Plain
import Dotenv.Proofs.Resolution.Definition
import Dotenv.Proofs.Resolution.Success
/-!
# Plain documents

A plain document resolves, and exports each key with the text that its last definition stands for.
-/

set_option autoImplicit false

namespace Dotenv

variable {σ : Type} [Host σ]

/-! ## Schemas -/

/-- What a definition without decorators says, when its value is a literal. -/
def ItemSchema.ofPlain (item : Item) : ItemSchema :=
  { key := item.key, value := .literal item.literalValue
    hasValue := isGiven (.literal item.literalValue)
    priority := .fixed .unset, sensitivity := .fixed .unset, type := none, pattern := none
    allowed := none, least := none, most := none, description := item.description
    sample := none, aliases := [] }

theorem Document.IsPlain.decorators_item {document : Document} (plain : document.IsPlain)
    (item : Item) (member : item ∈ document.items) : item.decorators = [] := by
  have inNodes := document.mem_nodes_of_mem_items item member
  exact List.flatMap_eq_nil_iff.mpr (plain.undecorated _ inNodes)

theorem Document.IsPlain.decorators_header {document : Document} (plain : document.IsPlain) :
    document.decorators = [] := by
  apply List.flatMap_eq_nil_iff.mpr
  intro line member
  unfold headerComments at member
  cases found : findHeader document.nodes with
  | none =>
    rw [found] at member
    cases member
  | some header =>
    rw [found] at member
    exact plain.undecorated _ (mem_of_findHeader document.nodes header found) line member

theorem ItemSchema.ofItem_ofPlain (registry : Registry) (item : Item) (plain : item.IsPlain)
    (undecorated : item.decorators = []) : ofItem registry item = .ok (.ofPlain item) := by
  have none : item.decoratorsByName = [] := by
    rw [Item.decoratorsByName, undecorated]
    rfl
  have value : valueOf registry item = .ok (.literal item.literalValue) := by
    unfold valueOf Item.literalValue
    cases isValue : item.value with
    | none => rfl
    | some term =>
      obtain ⟨literal, rfl, _⟩ := plain term isValue
      rfl
  simp only [ofItem, none, value]
  rfl

theorem Schema.ofItems_ofPlain (registry : Registry) (items : List Item)
    (compiles : ∀ item ∈ items, ItemSchema.ofItem registry item = .ok (.ofPlain item)) :
    ofItems registry items = (items.map ItemSchema.ofPlain, []) := by
  induction items with
  | nil => rfl
  | cons item rest ih =>
    obtain ⟨first, others⟩ := List.forall_mem_cons.mp compiles
    exact (ofItems_cons registry item rest _).mpr ⟨_, _, first, ih others, rfl⟩

theorem Schema.ofDocument_ofPlain (registry : Registry) (document : Document)
    (plain : document.IsPlain) :
    ofDocument registry document = .ok ⟨.standard, document.items.map ItemSchema.ofPlain⟩ := by
  have items := ofItems_ofPlain registry document.items fun item member =>
    ItemSchema.ofItem_ofPlain registry item (plain.values item member)
      (plain.decorators_item item member)
  have header : document.decoratorsByName = [] := by
    rw [Document.decoratorsByName, plain.decorators_header]
    rfl
  simp only [ofDocument, header, items]
  rfl

/-! ## Runs -/

namespace Resolution

theorem environment_of_isPlain (registry : Registry) (settings : Options)
    (noOverrides : settings.overrides = []) (document : Document) (plain : document.IsPlain)
    (resolution : Resolution)
    (ends : (ofDocument registry settings document).run.Reaches (.ok resolution)) :
    resolution.environment = document.literalTexts := by
  have each : ∀ entry ∈ resolution.items,
      (entry.2.value.exported.map fun text => (entry.2.key, text)) =
        ((document.item? entry.1).bind Item.literalText).map fun text => (entry.1, text) := by
    intro entry member
    obtain ⟨key, resolved⟩ := entry
    obtain ⟨item, evaluated, leaves⟩ :=
      leaves_of_mem registry settings document resolution ends key resolved member
    have isItem : evaluated.item = .ofPlain item := by
      have ofPlain := ItemSchema.ofItem_ofPlain registry item (plain.values item leaves.member)
        (plain.decorators_item item leaves.member)
      exact Except.ok.inj (leaves.compiled.symm.trans ofPlain)
    have free : evaluated.scope.options.overrides.get? evaluated.item.key = none := by
      rw [leaves.options, noOverrides]
      rfl
    have result := Progress.reaches_evaluateItem_literal evaluated.scope evaluated.item
      item.literalValue (isItem ▸ rfl) free _ leaves.reached
    obtain ⟨root, final, decides⟩ := leaves.decides
    have value := evaluated.value_of_untyped root final resolved decides _ result (isItem ▸ rfl)
    obtain ⟨_, _, _, _, isResolved, _⟩ := decides
    have ownKey : resolved.key = key := (congrArg ResolvedItem.key isResolved).trans leaves.ofKey
    rw [value, Item.exported_literalValue, ownKey, leaves.isLast]
    rfl
  unfold Document.literalTexts environment list
  rw [← keys_of_reaches registry settings document resolution ends, Keyed.keys, List.filterMap_map, List.filterMap_map]
  exact List.filterMap_congr each

/-- A plain document is read the same with all options of reading. Without overrides, and where the
first error does not stop the run, it resolves in every world, and exports each key once, in the
order of the first definitions, with the text that its last definition stands for. -/
theorem plain_exported (options : ReadOptions) (source : Text) (document : Document)
    (reads : Document.read options source = .ok document) (plain : document.IsPlain)
    (registry : Registry) (settings : Options) (noOverrides : settings.overrides = [])
    (goesOn : settings.failFast = false) (world : σ) :
    (∀ other, Document.read other source = .ok document) ∧
    ∃ resolution,
      ((ofDocument registry settings document).run.perform world).result = .ok resolution ∧
      resolution.environment = document.literalTexts := by
  refine ⟨fun other => document.read_of_isPlain options other source reads plain, ?_⟩
  have compiled := Schema.ofDocument_ofPlain registry document plain
  have isRun : ofDocument registry settings document =
      ofSchema ⟨.standard, document.items.map ItemSchema.ofPlain⟩ settings := by
    rw [ofDocument, compiled]
  have spares : ∀ item ∈ document.items.map ItemSchema.ofPlain, Progress.Spares settings item := by
    intro item member scope result isSettings ends
    obtain ⟨definition, -, rfl⟩ := List.mem_map.mp member
    have free : scope.options.overrides.get? (ItemSchema.ofPlain definition).key = none := by
      rw [isSettings, noOverrides]
      rfl
    rw [Progress.reaches_evaluateItem_literal scope _ definition.literalValue rfl free result ends]
    intro error isError
    cases isError
  have ends := Action.reaches_perform (ofDocument registry settings document).run world
  have succeeds := ensures_ofSchema goesOn ⟨.standard, document.items.map ItemSchema.ofPlain⟩ spares
  obtain ⟨resolution, isResult, -⟩ := succeeds _ (isRun ▸ ends)
  rw [isRun] at ends ⊢
  rw [isResult] at ends
  refine ⟨resolution, isResult, ?_⟩
  exact environment_of_isPlain registry settings noOverrides document plain resolution (isRun ▸ ends)

/-- Quoted and bare texts, a number and a word, a key that is defined twice, and three that have no
text in the end. -/
def written : Text :=
  "A='$x'\nB=007\nC=1.50\nA=\"q\\\"r\"\nD=true\nE=undefined\nF=\nG=a\\#b\nD=\n".toList

theorem plain_exported_written :
    ∃ document, Document.read .standard written = .ok document ∧ document.IsPlain ∧
      (∀ other, Document.read other written = .ok document) ∧
      ∃ resolution,
        ((ofDocument (.withBuiltins []) (.ofEnvironment []) document).run.perform
          (World.new [] [])).result = .ok resolution ∧
        resolution.environment =
          [(['A'], "q\"r".toList), (['B'], "007".toList), (['C'], "1.50".toList),
            (['G'], "a#b".toList)] := by
  have computed : (Document.read .standard written).toOption.map (fun document =>
      (decide document.IsPlain, document.literalTexts)) =
      some (true, [(['A'], "q\"r".toList), (['B'], "007".toList), (['C'], "1.50".toList),
        (['G'], "a#b".toList)]) := by
    decide +kernel
  obtain ⟨document, reads, shows⟩ := (toOption_map_eq_some _ _ _).mp computed
  obtain ⟨isPlain, texts⟩ := Prod.mk.inj shows
  have plain : document.IsPlain := of_decide_eq_true isPlain
  have exported := plain_exported .standard written document reads plain (.withBuiltins [])
    (.ofEnvironment []) rfl rfl (World.new [] [])
  rw [texts] at exported
  exact ⟨document, reads, plain, exported⟩

end Resolution

end Dotenv
