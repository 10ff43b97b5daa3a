import Dotenv.Proofs.Resolution.Sequential
/-!
# Waves and single items agree

A document resolves as it would if its items were evaluated one after the other, each in the
scope that holds the values of all items before it. What this takes of functions from
elsewhere is that they name the keys that they read.
-/

set_option autoImplicit false

namespace Dotenv

open Dotenv.Action (GoesOn)

def Resolution.finish (schema : Schema) (progress : Progress) : Resolving Resolution := do
  let items ← finishAll schema.root progress (lastDefinitions schema.items)
  let resolution : Resolution := ⟨items, progress.scope.currentEnv⟩
  let invalid := resolution.list.filter fun item => !item.isValid
  Action.report (.resolutionComplete items.length invalid.length)
  return resolution

theorem Resolution.ofSchema_eq_finish (schema : Schema) (options : Options) :
    ofSchema schema options =
      ((Progress.start schema options).runWaves 0 (wavesOf schema.items) >>= finish schema) := rfl

def Sequential.resolve (outside : Outside) (schema : Schema) (options : Options) :
    Except ResolveError Resolution := do
  let progress ← fold outside (.start schema options) schema.items
  (Resolution.finish schema progress).run.answer outside

namespace Resolution

variable {outside : Outside}

theorem flatten_wavesOf (items : List ItemSchema) : (wavesOf items).flatten = items :=
  Waves.flatten_cut_sizesFrom WaveItem.ofSchema [] items

theorem independent_of_mem_wavesOf (items : List ItemSchema) :
    ∀ wave ∈ wavesOf items, Waves.Independent .ofSchema wave :=
  Waves.independent_of_mem_cut_sizesFrom WaveItem.ofSchema [] items .nil

theorem forall_mem_wavesOf {holds : ItemSchema → Prop} (items : List ItemSchema)
    (each : ∀ item ∈ items, holds item) : ∀ wave ∈ wavesOf items, ∀ item ∈ wave, holds item := by
  intro wave member item inWave
  exact each item (flatten_wavesOf items ▸ List.mem_flatten_of_mem member inWave)

theorem mem_lastDefinitions (items : List ItemSchema) (entry : Text × ItemSchema)
    (member : entry ∈ lastDefinitions items) : entry.2 ∈ items := by
  rcases Keyed.mem_setAll [] _ entry member with found | found
  · simpa using found
  · cases found

theorem isValid_iff (resolution : Resolution) :
    resolution.isValid = true ↔ ∀ entry ∈ resolution.items, entry.2.errors = [] := by
  simp [isValid, list, ResolvedItem.isValid]

theorem determined_finishItem (root : RootSchema) (progress : Progress) (item : ItemSchema)
    (trusted : item.Trusted outside) : (finishItem root progress item).Determined outside :=
  (Action.Closed.determined outside).finishItem root progress item trusted.isFixed
    fun _ fixed => fixed _

theorem settled_finishAll (root : RootSchema) (progress : Progress)
    (entries : Keyed ItemSchema) (trusted : ∀ entry ∈ entries, entry.2.Trusted outside) :
    Settled outside (finishAll root progress entries) := by
  induction entries with
  | nil => exact .pure _
  | cons entry rest ih =>
    have more := ih fun other member => trusted other (List.mem_cons_of_mem entry member)
    have one := determined_finishItem root progress entry.2 (trusted entry List.mem_cons_self)
    refine .bind (.lift one) fun resolved => ?_
    cases resolved.errors with
    | nil => exact .bind more fun _ => .pure _
    | cons error others =>
      refine .bind (.lift (Action.determined_report _)) fun _ => ?_
      dsimp only
      split
      · exact .bind (.throw _) fun _ => .bind more fun _ => .pure _
      · exact .bind more fun _ => .pure _

theorem settled_finish (schema : Schema) (progress : Progress)
    (trusted : ∀ item ∈ schema.items, item.Trusted outside) :
    Settled outside (finish schema progress) := by
  refine .bind (settled_finishAll _ _ _ ?_) fun items => ?_
  · intro entry member
    exact trusted entry.2 (mem_lastDefinitions schema.items entry member)
  · exact .bind (.lift (Action.determined_report _)) fun _ => .pure _

theorem mayEnd_ofSchema {answers : Answers} {before after : answers.State} (schema : Schema)
    (options : Options) (share : ∀ item ∈ schema.items, item.MayShare answers)
    (r : Except ResolveError Resolution) :
    (ofSchema schema options).run.MayEnd answers before r after ↔
      ∃ reached between,
        (Progress.start schema options).MayCome answers schema.items before reached between ∧
          GoesOn (fun progress => (finish schema progress).run.MayEnd answers) reached between r
            after := by
  have wavesShare := forall_mem_wavesOf schema.items share
  have independent := independent_of_mem_wavesOf schema.items
  rw [ofSchema_eq_finish]
  refine (Action.mayEnd_run_bind _ _ r).trans ?_
  refine exists_congr fun reached => exists_congr fun between => and_congr_left fun _ => ?_
  refine (Progress.mayEnd_runWaves _ _ 0 wavesShare independent reached).trans ?_
  rw [flatten_wavesOf]

theorem yields_ofSchema (schema : Schema) (options : Options)
    (trusted : ∀ item ∈ schema.items, item.Trusted outside) :
    (ofSchema schema options).run.Yields outside (Sequential.resolve outside schema options) := by
  intro r
  have comes := Progress.mayCome_iff_fold schema.items (.start schema options) trusted
  have goes : (ofSchema schema options).run.EndsIn outside r ↔
      GoesOn (fun progress => (finish schema progress).run.MayEnd outside.answers)
        (Sequential.fold outside (.start schema options) schema.items) () r () := by
    rw [← Action.mayEnd_answers]
    refine (mayEnd_ofSchema schema options (fun item member => (trusted item member).mayShare)
      r).trans ?_
    constructor
    · intro ends
      obtain ⟨reached, _, reaches, goesOn⟩ := ends
      cases (comes reached).mp reaches
      exact goesOn
    · intro goesOn
      exact ⟨_, (), (comes _).mpr rfl, goesOn⟩
  rw [goes, Sequential.resolve]
  cases Sequential.fold outside (.start schema options) schema.items with
  | error stop => exact and_iff_left rfl
  | ok progress =>
    exact (Action.mayEnd_answers outside _ r).trans
      ((settled_finish schema progress trusted).yields r)

end Resolution

/-! ## Registries -/

/-- A function that evaluation in waves may rely on: it belongs to the library or to a store,
or it names the keys that it reads and makes its result of its arguments alone. -/
inductive Resolver.Trusted (outside : Outside) : Resolver → Prop where
  | own (resolver : Resolver) (member : resolver ∈ builtins) : Trusted outside resolver
  | store (name : Text) (place : Nat) : Trusted outside (secret name place)
  | promised (resolver : Resolver) (namesReads : resolver.Binds Bound.NamesReads)
    (isFixed : resolver.Binds (Bound.IsFixed outside)) : Trusted outside resolver

def Registry.Trusted (outside : Outside) (registry : Registry) : Prop :=
  ∀ name resolver, registry.get? name = some resolver → resolver.Trusted outside

namespace Registry

variable {outside : Outside}

theorem Trusted.binds_namesReads (registry : Registry) (trusted : registry.Trusted outside) :
    registry.Binds Bound.NamesReads := by
  intro name resolver found function args bound success
  cases trusted name resolver found with
  | own _ member => exact (Resolver.builtins_isOwn _ member _ _ _ success).namesReads
  | store name place => exact (Resolver.secret_isOwn name place _ _ _ success).namesReads
  | promised _ namesReads _ => exact namesReads _ _ _ success

theorem Trusted.binds_isFixed (registry : Registry) (trusted : registry.Trusted outside) :
    registry.Binds (Bound.IsFixed outside) := by
  intro name resolver found function args bound success
  cases trusted name resolver found with
  | own _ member => exact (Resolver.builtins_isOwn _ member _ _ _ success).isFixed
  | store name place => exact (Resolver.secret_isOwn name place _ _ _ success).isFixed
  | promised _ _ isFixed => exact isFixed _ _ _ success

theorem trusted_withBuiltins (others : List Resolver)
    (each : ∀ resolver ∈ others, resolver.Trusted outside) :
    (withBuiltins others).Trusted outside :=
  each_withBuiltins others (fun resolver member => .own resolver member) each

end Registry

theorem ItemSchema.trusted_of_ofDocument (outside : Outside) (registry : Registry)
    (trusted : registry.Trusted outside) (document : Document) (schema : Schema)
    (compiled : Schema.ofDocument registry document = .ok schema)
    (reports : ∀ item ∈ schema.items, item.Each (Expr.ReportsFirst outside)) :
    ∀ item ∈ schema.items, item.Trusted outside := by
  intro item member
  have bound := Schema.each_of_ofDocument document schema compiled item member
  have report := reports item member
  have fixed : ∀ expr : Expr, expr.IsOf registry → expr.ReportsFirst outside →
      ∀ scope, Settled outside (expr.evaluate scope) := fun expr isOf reports scope =>
    expr.settled_evaluate scope (isOf.eachBound trusted.binds_isFixed) reports
  have rules : ∀ {α : Type} (rule : Rule α), rule.Each (Expr.IsOf registry) →
      rule.Each (Expr.ReportsFirst outside) →
      rule.Each fun expr => ∀ scope, Settled outside (expr.evaluate scope) := by
    intro α rule isOf reports
    cases rule with
    | fixed setting => exact trivial
    | dynamic expression => exact fixed expression isOf reports
  constructor
  · exact bound.value.eachBound trusted.binds_namesReads
  · exact ⟨fixed item.value bound.value report.value,
      rules item.priority bound.priority report.priority,
      rules item.sensitivity bound.sensitivity report.sensitivity⟩

/-- What evaluation in waves gives is what evaluation of one item after the other gives: the
values, the failures and the early ends. -/
theorem Resolution.ofSchema_yields_sequential (outside : Outside) (registry : Registry)
    (trusted : registry.Trusted outside) (document : Document) (schema : Schema)
    (compiled : Schema.ofDocument registry document = .ok schema)
    (reports : ∀ item ∈ schema.items, item.Each (Expr.ReportsFirst outside))
    (options : Options) :
    (ofSchema schema options).run.Yields outside (Sequential.resolve outside schema options) :=
  yields_ofSchema schema options
    (ItemSchema.trusted_of_ofDocument outside registry trusted document schema compiled reports)

/-- `A=1`, `B=ref(A)`, `C=vault(b)` and again `A=exec(date)`, one below the other. -/
def redefinition : Document :=
  { nodes :=
      [.item (.new ['A'] (some (.literal (.bare ['1'])))),
       .item (.new ['B'] (some (.applyNamed "ref" [.literal (.bare ['A'])]))),
       .item (.new ['C'] (some (.applyNamed "vault" [.literal (.bare ['b'])]))),
       .item (.new ['A'] (some (.applyNamed "exec" [.literal (.bare "date".toList)])))]
    trailingNewline := true }

def Registry.withVault : Registry := .withBuiltins [.secret "vault".toList 0]

theorem Registry.withVault_isOwn : Registry.withVault.Binds Bound.IsOwn := by
  apply each_withBuiltins _ Resolver.builtins_isOwn
  intro resolver member
  rw [List.mem_singleton] at member
  subst member
  exact Resolver.secret_isOwn _ _

def Outside.obliging : Outside :=
  { outcome := fun _ => .ended (some 0) [] []
    reply := fun secret => .ok (.text secret.key) }

theorem Resolution.redefinition_yields_sequential :
    Registry.withVault.Trusted .obliging ∧
    ∃ schema, Schema.ofDocument .withVault redefinition = .ok schema ∧
      (∀ item ∈ schema.items, item.Each (Expr.ReportsFirst .obliging)) ∧
      (ofSchema schema (.ofEnvironment [])).run.Yields .obliging
        (Sequential.resolve .obliging schema (.ofEnvironment [])) := by
  have trusted : Registry.withVault.Trusted .obliging := by
    refine Registry.trusted_withBuiltins _ fun resolver member => ?_
    rw [List.mem_singleton] at member
    subst member
    exact .store _ _
  have reports : ∀ schema, Schema.ofDocument .withVault redefinition = .ok schema →
      ∀ item ∈ schema.items, item.Each (Expr.ReportsFirst .obliging) := by
    intro schema compiled item member
    have items : schema.items = [_, _, _, _] :=
      (congrArg Schema.items (Except.ok.inj compiled)).symm.trans rfl
    rw [items] at member
    simp only [List.mem_cons, List.not_mem_nil, or_false] at member
    rcases member with rfl | rfl | rfl | rfl
    · exact ⟨trivial, trivial, trivial⟩
    · exact ⟨⟨fun scope result ends => ends.symm, trivial, trivial⟩, trivial, trivial⟩
    · exact ⟨⟨fun scope result ends => ends.symm, trivial, trivial⟩, trivial, trivial⟩
    · exact ⟨⟨fun scope result ends => ends.symm, trivial, trivial⟩, trivial, trivial⟩
  refine ⟨trusted, _, rfl, reports _ rfl, ?_⟩
  exact ofSchema_yields_sequential .obliging .withVault trusted redefinition _ rfl
    (reports _ rfl) _

end Dotenv
