import Dotenv.Proofs.Resolution.Agreement
import Dotenv.Proofs.Resolution.Written
/-!
# Expressions under an override

An overridden item has its override for its value, and its expression is not evaluated. The
expression decides where waves end all the same, and so which keys are asked for in one round and
what a store has at hand in the next. Whatever a resolution may end in, with all that stores may or
may not have at hand, it may end in with other expressions too.
-/

set_option autoImplicit false

namespace Dotenv

variable {key text : Text} {answers : Answers} {before after : answers.State}

/-! ## Items -/

/-- The same schema of an item, but for its expression where it defines a key. -/
inductive ItemSchema.Revalued (key : Text) : ItemSchema → ItemSchema → Prop where
  | same (item : ItemSchema) : Revalued key item item
  | other (item : ItemSchema) (value : Expr) (isKey : item.key = key) :
      Revalued key item { item with value }

namespace ItemSchema.Revalued

variable {item other : ItemSchema}

theorem key_eq (revalued : item.Revalued key other) : other.key = item.key := by
  cases revalued <;> rfl

theorem evaluateItem_eq (revalued : item.Revalued key other) (scope : Scope)
    (overridden : scope.options.overrides.get? key = some text) :
    Progress.evaluateItem scope other = Progress.evaluateItem scope item := by
  cases revalued with
  | same => rfl
  | other value isKey =>
    unfold Progress.evaluateItem
    simp only [isKey, overridden]

theorem finishItem_eq (revalued : item.Revalued key other) (root : RootSchema)
    (progress : Progress) :
    Resolution.finishItem root progress other = Resolution.finishItem root progress item := by
  cases revalued <;> rfl

end ItemSchema.Revalued

theorem Progress.mayCome_revalued {items others : List ItemSchema}
    (revalued : List.Forall₂ (ItemSchema.Revalued key) items others) (progress : Progress)
    (overridden : progress.scope.options.overrides.get? key = some text)
    (reached : Except ResolveError Progress) :
    progress.MayCome answers others before reached after ↔
      progress.MayCome answers items before reached after := by
  induction revalued generalizing progress before reached after with
  | nil => exact Iff.rfl
  | cons first _ ih =>
    simp only [MayCome, first.evaluateItem_eq progress.scope overridden, first.key_eq]
    refine exists_congr fun result => exists_congr fun between => and_congr_right fun _ => ?_
    apply Action.goesOn_congr
    intro next settled
    obtain ⟨value, nextScope⟩ := Sequential.settle_scope progress next _ result settled
    apply ih next
    rw [nextScope]
    exact overridden

namespace Resolution

theorem finishAll_revalued (root : RootSchema) (progress : Progress)
    {entries others : Keyed ItemSchema}
    (revalued : entries.Alike (ItemSchema.Revalued key) others) :
    finishAll root progress others = finishAll root progress entries := by
  induction revalued with
  | nil => rfl
  | @cons entry other rest more same _ ih =>
    obtain ⟨name, item⟩ := entry
    obtain ⟨_, item'⟩ := other
    obtain ⟨rfl, first⟩ := same
    simp only [finishAll, first.finishItem_eq root progress, ih]

theorem lastDefinitions_revalued {items others : List ItemSchema}
    (revalued : List.Forall₂ (ItemSchema.Revalued key) items others) :
    (lastDefinitions items).Alike (ItemSchema.Revalued key) (lastDefinitions others) := by
  refine Keyed.Alike.setAll .nil ?_
  unfold Keyed.Alike
  rw [List.forall₂_map_left_iff, List.forall₂_map_right_iff]
  exact revalued.imp fun _ _ first => ⟨first.key_eq.symm, first⟩

theorem finish_revalued (root : RootSchema) {items others : List ItemSchema}
    (revalued : List.Forall₂ (ItemSchema.Revalued key) items others) (progress : Progress) :
    finish ⟨root, others⟩ progress = finish ⟨root, items⟩ progress := by
  unfold finish
  rw [finishAll_revalued root progress (lastDefinitions_revalued revalued)]

theorem mayEnd_ofSchema_revalued (root : RootSchema) {items others : List ItemSchema}
    (revalued : List.Forall₂ (ItemSchema.Revalued key) items others)
    (share : ∀ item ∈ items, item.MayShare answers)
    (othersShare : ∀ item ∈ others, item.MayShare answers) (options : Options)
    (overridden : options.overrides.get? key = some text) (r : Except ResolveError Resolution) :
    (ofSchema ⟨root, others⟩ options).run.MayEnd answers before r after ↔
      (ofSchema ⟨root, items⟩ options).run.MayEnd answers before r after := by
  rw [mayEnd_ofSchema ⟨root, others⟩ options othersShare,
    mayEnd_ofSchema ⟨root, items⟩ options share]
  refine exists_congr fun reached => exists_congr fun between => and_congr ?_ ?_
  · exact Progress.mayCome_revalued revalued (.start ⟨root, items⟩ options) overridden reached
  · simp only [finish_revalued root revalued]

end Resolution

/-! ## Documents -/

/-- The same item, but for its value where it defines a key. Both values are bound, and both are
given or neither is. -/
inductive Item.Revalued (registry : Registry) (key : Text) : Item → Item → Prop where
  | same (item : Item) : Revalued registry key item item
  | other (item : Item) (value : Option Term) (isKey : item.key = key) (before after : Expr)
      (isBefore : ItemSchema.valueOf registry item = .ok before)
      (isAfter : ItemSchema.valueOf registry { item with value } = .ok after)
      (given : ItemSchema.isGiven before = ItemSchema.isGiven after) :
      Revalued registry key item { item with value }

/-- Documents with the same header and the same items, but for the values of a key's definitions. -/
structure Document.Revalued (registry : Registry) (key : Text) (document other : Document) :
    Prop where
  decorators : other.decorators = document.decorators
  items : List.Forall₂ (Item.Revalued registry key) document.items other.items

namespace Schema

variable {registry : Registry}

theorem ofItems_revalued {items others : List Item}
    (revalued : List.Forall₂ (Item.Revalued registry key) items others) :
    (ofItems registry others).2 = (ofItems registry items).2 ∧
      List.Forall₂ (ItemSchema.Revalued key) (ofItems registry items).1
        (ofItems registry others).1 := by
  induction revalued with
  | nil => exact ⟨rfl, .nil⟩
  | @cons item other rest more first _ ih =>
    obtain ⟨sameIssues, schemas⟩ := ih
    cases first with
    | same =>
      simp only [ofItems, sameIssues]
      cases ItemSchema.ofItem registry item with
      | ok schema => exact ⟨rfl, .cons (.same schema) schemas⟩
      | error errors => exact ⟨rfl, schemas⟩
    | other value isKey before after isBefore isAfter given =>
      simp only [ofItems, sameIssues,
        ItemSchema.ofItem_withValue registry item value before after isBefore isAfter given]
      cases compiled : ItemSchema.ofItem registry item with
      | ok schema =>
        have ofKey := (ItemSchema.key_of_ofItem registry item schema compiled).trans isKey
        exact ⟨rfl, .cons (.other schema after ofKey) schemas⟩
      | error errors => exact ⟨rfl, schemas⟩

/-- The same is wrong with either document, or their schemas are the same but for expressions of the
key. -/
theorem ofDocument_revalued {document other : Document}
    (revalued : document.Revalued registry key other) :
    (∃ issues, ofDocument registry document = .error issues ∧
      ofDocument registry other = .error issues) ∨
    ∃ root items others, ofDocument registry document = .ok ⟨root, items⟩ ∧
      ofDocument registry other = .ok ⟨root, others⟩ ∧
      List.Forall₂ (ItemSchema.Revalued key) items others := by
  obtain ⟨sameIssues, schemas⟩ := ofItems_revalued revalued.items
  have header : other.decoratorsByName = document.decoratorsByName :=
    congrArg Decorator.byName revalued.decorators
  simp only [ofDocument, header, sameIssues]
  split
  · exact .inr ⟨_, _, _, rfl, rfl, schemas⟩
  · exact .inl ⟨_, rfl, rfl⟩

end Schema

namespace Resolution

/-- The value that a document gives to an overridden key has no part in what the resolution may end
in, provided that functions name the keys that they read, and run no commands where they do. Where
no store has anything at hand there is one result, and it is the same. -/
theorem overridden_value_unread (registry : Registry) (reads : registry.Binds Bound.NamesReads)
    (quiet : registry.Binds Bound.IsQuiet) (options : Options) (key text : Text)
    (overridden : options.overrides.get? key = some text) (document other : Document)
    (revalued : document.Revalued registry key other) :
    (∀ (answers : Answers) before r after,
      (ofDocument registry options other).run.MayEnd answers before r after ↔
        (ofDocument registry options document).run.MayEnd answers before r after) ∧
    ∀ outside, (ofDocument registry options other).run.answer outside =
      (ofDocument registry options document).run.answer outside := by
  have share : ∀ (answers : Answers) (one : Document) (schema : Schema),
      Schema.ofDocument registry one = .ok schema →
        ∀ item ∈ schema.items, item.MayShare answers := by
    intro answers one schema compiled item member
    have namesReads := Schema.eachBound_of_ofDocument reads one schema compiled item member
    have isQuiet := Schema.eachBound_of_ofDocument quiet one schema compiled item member
    exact ItemSchema.mayShare_of_isQuiet answers item namesReads.value isQuiet.value
  have same : ∀ (answers : Answers) before r after,
      (ofDocument registry options other).run.MayEnd answers before r after ↔
        (ofDocument registry options document).run.MayEnd answers before r after := by
    intro answers before r after
    unfold ofDocument
    rcases Schema.ofDocument_revalued revalued with
      ⟨issues, wrong, wrongToo⟩ | ⟨root, items, others, compiled, compiledToo, schemas⟩
    · rw [wrong, wrongToo]
    · rw [compiled, compiledToo]
      exact mayEnd_ofSchema_revalued root schemas (share answers document _ compiled)
        (share answers other _ compiledToo) options overridden r
  refine ⟨same, fun outside => ?_⟩
  apply (Action.mayEnd_uncached outside _ _).mp
  exact (same outside.uncached () _ ()).mp ((Action.mayEnd_uncached outside _ _).mpr rfl)

/-- `Z=vault(k)`, a value for `K`, and `X=vault(x)`, one below the other. -/
def aroundK (value : Term) : Document :=
  let vault (c : Char) : Term := .applyNamed "vault" [.literal (.bare [c])]
  { nodes :=
      [.item (.new ['Z'] (some (vault 'k'))), .item (.new ['K'] (some value)),
        .item (.new ['X'] (some (vault 'x')))]
    trailingNewline := true }

def one : Term := .literal (.bare ['1'])

def refZ : Term := .applyNamed "ref" [.literal (.bare ['Z'])]

def overridingK : Options := (Options.ofEnvironment []).withOverrides [(['K'], ['o'])]

/-- A literal under an override, and in its place a reference that ends the wave. -/
theorem overridden_value_unread_reference :
    Registry.withVault.Binds Bound.NamesReads ∧ Registry.withVault.Binds Bound.IsQuiet ∧
    overridingK.overrides.get? ['K'] = some ['o'] ∧
    (aroundK one).Revalued .withVault ['K'] (aroundK refZ) ∧
    (∀ (answers : Answers) before r after,
      (ofDocument .withVault overridingK (aroundK refZ)).run.MayEnd answers before r after ↔
        (ofDocument .withVault overridingK (aroundK one)).run.MayEnd answers before r after) ∧
    ∀ outside, (ofDocument .withVault overridingK (aroundK refZ)).run.answer outside =
      (ofDocument .withVault overridingK (aroundK one)).run.answer outside := by
  have own := Registry.withVault_isOwn
  have reads : Registry.withVault.Binds Bound.NamesReads :=
    fun name resolver found function args bound success =>
      (own name resolver found function args bound success).namesReads
  have quiet : Registry.withVault.Binds Bound.IsQuiet :=
    fun name resolver found function args bound success =>
      (own name resolver found function args bound success).showsScope.isQuiet
  have revalued : (aroundK one).Revalued .withVault ['K'] (aroundK refZ) :=
    ⟨rfl, .cons (.same _) (.cons (.other _ (some refZ) rfl _ _ rfl rfl rfl) (.cons (.same _) .nil))⟩
  exact ⟨reads, quiet, rfl, revalued,
    overridden_value_unread .withVault reads quiet overridingK ['K'] ['o'] rfl _ _ revalued⟩

/-- The reference begins a new wave. There the store has `k` at hand, so that `a` is asked for in the
same round as `b`, and is the first to be refused. -/
example :
    let vault (term : Term) : Term := .applyNamed "vault" [term]
    let bare (c : Char) : Term := .literal (.bare [c])
    let document (value : Term) : Document :=
      { nodes :=
          [.item (.new ['Z'] (some (vault (bare 'k')))), .item (.new ['K'] (some value)),
            .item (.new ['X'] (some (.applyNamed "concat"
              [vault (vault (bare 'k')), vault (bare 'b')])))]
        trailingNewline := true }
    let store : Store Unit :=
      { vault :=
          { secrets := [(['k'], ['a'])], failures := [(['a'], .forbidden), (['b'], .forbidden)],
            poison := none, abort := none, requests := [] }
        coalescer := .new true }
    let options := (Options.ofEnvironment []).withOverrides [(['K'], ['o'])]
    let errors (value : Term) :=
      ((ofDocument .withVault options (document value)).run.perform
        (World.new [] [store])).result.toOption.map Resolution.errors
    let refusal (key : Text) :=
      [(['X'], ItemError.resolution (.store Vault.name key .forbidden "rejected".toList))]
    errors (bare '1') = some (refusal ['b']) ∧
      errors (.applyNamed "ref" [bare 'Z']) = some (refusal ['a']) := by
  decide +kernel

end Resolution

end Dotenv
