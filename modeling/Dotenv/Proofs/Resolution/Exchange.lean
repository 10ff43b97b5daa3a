import Dotenv.Proofs.Expression.Reordered
import Dotenv.Proofs.Resolution.Record
/-!
# The order of independent items

Two neighbours that define different keys, and of which neither reads the key of the other, may
change places. What comes after them sees the same values, in another order, and may be cut into
other waves. Whatever a resolution may succeed with, with all that stores may or may not have at
hand, it may succeed with in the other order too.
-/

set_option autoImplicit false

namespace Dotenv

/-- Items that define different keys and know what they read, which is not the key of the other. -/
structure ItemSchema.Unrelated (first second : ItemSchema) : Prop where
  apart : Waves.Apart (.ofSchema first) (.ofSchema second)
  apartToo : Waves.Apart (.ofSchema second) (.ofSchema first)

variable {answers : Answers} {before after : answers.State}

namespace Progress

/-! ## Progress in another order -/

structure Reordered (progress other : Progress) : Prop where
  scope : progress.scope.Reordered other.scope
  failures : progress.failures.Reordered other.failures

theorem reordered_start (schema : Schema) (options : Options) :
    (start schema options).Reordered (start schema options) :=
  ⟨⟨rfl, rfl, rfl, .nil, .nil, fun _ => rfl⟩, .nil, .nil, fun _ => rfl⟩

theorem scope_take (progress : Progress) (entry : Evaluated) :
    (progress.take entry).scope = progress.scope.insert entry.item.key entry.value := by
  obtain ⟨item, scope, result⟩ := entry
  cases result <;> rfl

theorem Reordered.take {progress other : Progress} (reordered : progress.Reordered other)
    (entry : Evaluated) : (progress.take entry).Reordered (other.take entry) := by
  have distinct := reordered.failures.distinct
  have distinctToo := reordered.failures.distinctToo
  constructor
  · rw [scope_take, scope_take]
    exact reordered.scope.insert _ _
  · refine ⟨distinct_take _ _ distinct, distinct_take _ _ distinctToo, fun key => ?_⟩
    rw [failures_take _ _ _ distinct, failures_take _ _ _ distinctToo, reordered.failures.same]

theorem reordered_take_swap (progress : Progress) (values : progress.scope.values.keys.Nodup)
    (failures : progress.failures.keys.Nodup) (first second : Evaluated)
    (differs : first.item.key ≠ second.item.key) :
    ((progress.take first).take second).Reordered ((progress.take second).take first) := by
  have firstTaken := distinct_take progress first failures
  have secondTaken := distinct_take progress second failures
  constructor
  · simp only [scope_take]
    exact ⟨rfl, rfl, rfl, Keyed.reordered_set_swap _ values _ _ differs _ _⟩
  · refine ⟨distinct_take _ _ firstTaken, distinct_take _ _ secondTaken, fun key => ?_⟩
    simp only [failures_take _ _ _ firstTaken, failures_take _ _ _ secondTaken,
      failures_take _ _ _ failures]
    by_cases isFirst : first.item.key = key
    · rw [if_pos isFirst, if_pos isFirst,
        if_neg fun isSecond => differs (isFirst.trans isSecond.symm)]
    · rw [if_neg isFirst, if_neg isFirst]

/-! ## Items one after the other -/

theorem reordered_evaluateItem {scope other : Scope} (reordered : scope.Reordered other)
    (item : ItemSchema) (ignores : item.value.EachBound Bound.IgnoresOrder) :
    (evaluateItem scope item).Reordered (evaluateItem other item) := by
  unfold evaluateItem
  rw [reordered.options]
  cases other.options.overrides.get? item.key with
  | some text => exact .refl _
  | none =>
    exact (Expr.reordered_evaluate (reordered.forKey item.key) item.value ignores).bind
      fun result => .refl _

def Bears (options : Options) (key : Text) (result : Except ResolutionError Value) : Prop :=
  ∀ error, result = .error error → stop? options key error = none

theorem settle_eq_ok_iff (progress next : Progress) (item : ItemSchema) (scope : Scope)
    (result : Except ResolutionError Value) :
    Sequential.settle progress item.key result = .ok next ↔
      Bears progress.scope.options item.key result ∧
        next = progress.take ⟨item, scope, result⟩ := by
  cases result with
  | ok value => simp [Sequential.settle, Bears, take, succeed, eq_comm]
  | error error =>
    simp only [Sequential.settle, Bears, stop?, take, fail, Except.error.injEq, forall_eq']
    split
    · simp
    · split <;> simp [eq_comm]

theorem mayCome_cons_ok (progress reached : Progress) (item : ItemSchema)
    (rest : List ItemSchema) (scope : Scope) :
    progress.MayCome answers (item :: rest) before (.ok reached) after ↔
      ∃ result between, (evaluateItem progress.scope item).MayEnd answers before result between ∧
        Bears progress.scope.options item.key result ∧
          (progress.take ⟨item, scope, result⟩).MayCome answers rest between (.ok reached)
            after := by
  refine exists_congr fun result => exists_congr fun between => and_congr_right fun _ => ?_
  simp only [Action.goesOn_ok, settle_eq_ok_iff progress _ item scope result, and_assoc,
    exists_and_left, exists_eq_left]

theorem mayCome_reordered {progress other reached : Progress} (items : List ItemSchema)
    (ignore : ∀ item ∈ items, item.value.EachBound Bound.IgnoresOrder)
    (sees : answers.SeesVariables) (reordered : progress.Reordered other)
    (comes : progress.MayCome answers items before (.ok reached) after) :
    ∃ reached', other.MayCome answers items before (.ok reached') after ∧
      reached.Reordered reached' := by
  induction items generalizing progress other before with
  | nil =>
    obtain ⟨⟨⟩, rfl⟩ := comes
    exact ⟨other, ⟨rfl, rfl⟩, reordered⟩
  | cons item rest ih =>
    obtain ⟨ignores, restIgnore⟩ := List.forall_mem_cons.mp ignore
    obtain ⟨result, between, ends, bears, comes⟩ :=
      (mayCome_cons_ok progress reached item rest progress.scope).mp comes
    have taken := reordered.take ⟨item, progress.scope, result⟩
    obtain ⟨reached', comes', same⟩ := ih restIgnore taken comes
    have endsToo := ((reordered_evaluateItem reordered.scope item ignores).mayEnd sees _).mp ends
    refine ⟨reached', (mayCome_cons_ok other reached' item rest progress.scope).mpr ?_, same⟩
    exact ⟨result, between, endsToo, reordered.scope.options ▸ bears, comes'⟩

theorem mayCome_swap {progress reached : Progress} (first second : ItemSchema)
    (back : List ItemSchema) (values : progress.scope.values.keys.Nodup)
    (failures : progress.failures.keys.Nodup) (unrelated : first.Unrelated second)
    (firstReads : first.value.EachBound Bound.NamesReads)
    (secondReads : second.value.EachBound Bound.NamesReads)
    (ignore : ∀ item ∈ back, item.value.EachBound Bound.IgnoresOrder)
    (sees : answers.SeesVariables)
    (comes : progress.MayCome answers (first :: second :: back) before (.ok reached) after) :
    ∃ reached', progress.MayCome answers (second :: first :: back) before (.ok reached') after ∧
      reached.Reordered reached' := by
  have forgets (item : ItemSchema) :
      (evaluateItem progress.scope item).EachCommand answers.Forgets :=
    Action.eachCommand_of_forall sees.forgets _
  obtain ⟨one, between, firstEnds, firstBears, further⟩ :=
    (mayCome_cons_ok progress reached first _ progress.scope).mp comes
  obtain ⟨other, middle, secondEnds, secondBears, last⟩ :=
    (mayCome_cons_ok _ reached second back progress.scope).mp further
  -- Neither sees what becomes of the other, and neither leaves anything behind.
  rw [scope_take, evaluateItem_insert _ first second _ secondReads unrelated.apart] at secondEnds
  rw [scope_take] at secondBears
  obtain ⟨rfl, -⟩ := firstEnds.anytime (forgets first)
  obtain ⟨rfl, -⟩ := secondEnds.anytime (forgets second)
  obtain ⟨reached', last', same⟩ := mayCome_reordered back ignore sees
    (reordered_take_swap progress values failures ⟨first, progress.scope, one⟩
      ⟨second, progress.scope, other⟩ unrelated.apart.1) last
  refine ⟨reached', (mayCome_cons_ok progress reached' second _ progress.scope).mpr ?_, same⟩
  refine ⟨other, _, secondEnds, secondBears, ?_⟩
  refine (mayCome_cons_ok _ reached' first back progress.scope).mpr ⟨one, _, ?_, ?_, last'⟩
  · rw [scope_take, evaluateItem_insert _ second first _ firstReads unrelated.apartToo]
    exact firstEnds
  · rw [scope_take]
    exact firstBears

theorem mayCome_exchange (schema : Schema) (options : Options) (reached : Progress)
    (front back : List ItemSchema) (first second : ItemSchema)
    (unrelated : first.Unrelated second)
    (reads : ∀ item ∈ front ++ first :: second :: back, item.value.EachBound Bound.NamesReads)
    (ignore : ∀ item ∈ front ++ first :: second :: back,
      item.value.EachBound Bound.IgnoresOrder)
    (sees : answers.SeesVariables)
    (comes : (start schema options).MayCome answers (front ++ first :: second :: back) before
      (.ok reached) after) :
    ∃ reached', (start schema options).MayCome answers (front ++ second :: first :: back) before
      (.ok reached') after ∧ reached.Reordered reached' := by
  rw [List.forall_mem_append, List.forall_mem_cons, List.forall_mem_cons] at reads ignore
  obtain ⟨_, between, comes, goesOn⟩ := (mayCome_append _ _ _ _).mp comes
  obtain ⟨progress, rfl, goesOn⟩ := (Action.goesOn_ok _ _ _ _ _).mp goesOn
  obtain ⟨_, -, same⟩ :=
    mayCome_reordered front ignore.1 sees (reordered_start schema options) comes
  obtain ⟨reached', goesOn', same'⟩ := mayCome_swap first second back same.scope.values.distinct
    same.failures.distinct unrelated reads.2.1 reads.2.2.1 ignore.2.2.2 sees goesOn
  refine ⟨reached', (mayCome_append _ _ _ _).mpr ⟨_, between, comes, ?_⟩, same'⟩
  exact (Action.goesOn_ok _ _ _ _ _).mpr ⟨progress, rfl, goesOn'⟩

end Progress

/-! ## The end of a run -/

structure Resolution.Reordered (resolution other : Resolution) : Prop where
  items : resolution.items.Reordered other.items
  envName : resolution.envName = other.envName

namespace Resolution

theorem reordered_truth {scope other : Scope} (reordered : scope.Reordered other) (expr : Expr)
    (ignores : expr.EachBound Bound.IgnoresOrder) :
    (ItemSchema.truth expr scope).run.Reordered (ItemSchema.truth expr other).run :=
  .ok_bind (Expr.reordered_evaluate reordered expr ignores) fun _ => .refl _

theorem reordered_absorb {attempt other : Attempt Bool} (default : Bool)
    (reordered : attempt.run.Reordered other.run) :
    (absorb attempt default).Reordered (absorb other default) :=
  Action.Reordered.bind reordered fun _ => .refl _

theorem reordered_isRequired (root : RootSchema) {scope other : Scope}
    (reordered : scope.Reordered other) (item : ItemSchema)
    (ignores : item.priority.Each (Expr.EachBound Bound.IgnoresOrder)) :
    (item.isRequired root scope).run.Reordered (item.isRequired root other).run := by
  unfold ItemSchema.isRequired
  cases rule : item.priority with
  | fixed priority => exact .refl _
  | dynamic expression =>
    rw [rule] at ignores
    exact reordered_truth reordered expression ignores

theorem reordered_isSensitive (root : RootSchema) {scope other : Scope}
    (reordered : scope.Reordered other) (item : ItemSchema)
    (ignores : item.sensitivity.Each (Expr.EachBound Bound.IgnoresOrder)) :
    (item.isSensitive root scope).run.Reordered (item.isSensitive root other).run := by
  unfold ItemSchema.isSensitive
  cases rule : item.sensitivity with
  | fixed sensitivity => cases sensitivity <;> exact .refl _
  | dynamic expression =>
    rw [rule] at ignores
    exact reordered_truth reordered expression ignores

theorem reordered_finishItem (root : RootSchema) {progress other : Progress}
    (reordered : progress.Reordered other) (item : ItemSchema)
    (ignores : item.Each (Expr.EachBound Bound.IgnoresOrder)) :
    (finishItem root progress item).Reordered (finishItem root other item) := by
  have scope := reordered.scope.forKey item.key
  refine .bind (reordered_absorb _ (reordered_isRequired root scope item ignores.priority)) ?_
  intro required
  refine .bind (reordered_absorb _ (reordered_isSensitive root scope item ignores.sensitivity)) ?_
  intro sensitive
  rw [scope.values.same, reordered.failures.same, scope.options]
  exact .refl _

/-- What the last definition of a key may finish as, where the run goes on after it. -/
def MayFinish (answers : Answers) (before : answers.State) (root : RootSchema)
    (progress : Progress) (entry : Text × ItemSchema) (resolved : Text × ResolvedItem) : Prop :=
  entry.1 = resolved.1 ∧
    (finishItem root progress entry.2).MayEnd answers before resolved.2 before ∧
      (progress.scope.options.failFast = true → resolved.2.errors = [])

theorem keys_of_mayFinish {root : RootSchema} {progress : Progress} {entries : Keyed ItemSchema}
    {items : Keyed ResolvedItem}
    (each : List.Forall₂ (MayFinish answers before root progress) entries items) :
    entries.keys = items.keys := by
  refine List.forall₂_eq_eq_eq ▸ ?_
  rw [Keyed.keys, Keyed.keys, List.forall₂_map_left_iff, List.forall₂_map_right_iff]
  exact each.imp fun _ _ finishes => finishes.1

theorem mayEnd_finishAll_cons_ok (root : RootSchema) (progress : Progress)
    (entry : Text × ItemSchema) (rest : Keyed ItemSchema) (items : Keyed ResolvedItem) :
    (finishAll root progress (entry :: rest)).run.MayEnd answers before (.ok items) after ↔
      ∃ resolved between,
        (finishItem root progress entry.2).MayEnd answers before resolved between ∧
        (progress.scope.options.failFast = true → resolved.errors = []) ∧
        ∃ others, (finishAll root progress rest).run.MayEnd answers between (.ok others) after ∧
          items = (entry.1, resolved) :: others := by
  have goesOn : ∀ (resolved : ResolvedItem) (between : answers.State),
      (do return (entry.1, resolved) :: (← finishAll root progress rest) :
        Resolving (Keyed ResolvedItem)).run.MayEnd answers between (.ok items) after ↔
      ∃ others, (finishAll root progress rest).run.MayEnd answers between (.ok others) after ∧
        items = (entry.1, resolved) :: others := by
    intro resolved between
    refine (Action.mayEnd_ok_bind _ _ _).trans (exists_congr fun others => ?_)
    constructor
    · intro ends
      obtain ⟨_, ends, ⟨⟩, rfl⟩ := ends
      exact ⟨ends, rfl⟩
    · intro ends
      obtain ⟨ends, rfl⟩ := ends
      exact ⟨after, ends, rfl, rfl⟩
  refine (Action.mayEnd_lift_bind _ _ _).trans ?_
  refine exists_congr fun resolved => exists_congr fun between => and_congr_right fun _ => ?_
  rw [← goesOn]
  cases errors : resolved.errors with
  | nil =>
    simp only [implies_true, true_and]
  | cons error more =>
    by_cases failFast : progress.scope.options.failFast = true
    · simp only [failFast, if_true]
      refine iff_of_false (fun ends => nomatch ends.1) fun goes => ?_
      cases goes.1 trivial
    · simp only [failFast, Bool.false_eq_true, if_false, false_implies, true_and]
      exact Iff.rfl

theorem mayEnd_finishAll_ok (root : RootSchema) (progress : Progress) (entries : Keyed ItemSchema)
    (items : Keyed ResolvedItem) (sees : answers.SeesVariables) :
    (finishAll root progress entries).run.MayEnd answers before (.ok items) after ↔
      after = before ∧ List.Forall₂ (MayFinish answers before root progress) entries items := by
  induction entries generalizing items before with
  | nil =>
    constructor
    · intro ends
      obtain ⟨⟨⟩, rfl⟩ := ends
      exact ⟨rfl, .nil⟩
    · intro ends
      obtain ⟨rfl, ⟨⟩⟩ := ends
      exact ⟨rfl, rfl⟩
  | cons entry rest ih =>
    rw [mayEnd_finishAll_cons_ok]
    constructor
    · intro ends
      obtain ⟨resolved, between, finishes, valid, others, ends, rfl⟩ := ends
      obtain ⟨rfl, -⟩ := finishes.anytime (Action.eachCommand_of_forall sees.forgets _)
      obtain ⟨rfl, each⟩ := (ih others).mp ends
      exact ⟨rfl, .cons ⟨rfl, finishes, valid⟩ each⟩
    · intro ends
      obtain ⟨rfl, each⟩ := ends
      obtain ⟨⟨key, resolved⟩, others, ⟨rfl, finishes, valid⟩, more, rfl⟩ :=
        List.forall₂_cons_left_iff.mp each
      exact ⟨resolved, _, finishes, valid, others, (ih others).mpr ⟨rfl, more⟩, rfl⟩

theorem mayEnd_finish_ok (schema : Schema) (progress : Progress) (resolution : Resolution) :
    (finish schema progress).run.MayEnd answers before (.ok resolution) after ↔
      (finishAll schema.root progress (lastDefinitions schema.items)).run.MayEnd answers before
          (.ok resolution.items) after ∧ resolution.envName = progress.scope.currentEnv := by
  refine (Action.mayEnd_ok_bind _ _ _).trans ?_
  constructor
  · intro ends
    obtain ⟨items, _, ends, ⟨⟩, rfl⟩ := ends
    exact ⟨ends, rfl⟩
  · intro ends
    obtain ⟨ends, envName⟩ := ends
    refine ⟨resolution.items, after, ends, ?_, rfl⟩
    rw [← envName]

theorem reordered_lastDefinitions (front back : List ItemSchema) (first second : ItemSchema)
    (differs : first.key ≠ second.key) :
    (lastDefinitions (front ++ first :: second :: back)).Reordered
      (lastDefinitions (front ++ second :: first :: back)) := by
  unfold lastDefinitions
  simp only [List.map_append, List.map_cons]
  exact Keyed.reordered_ofList_swap _ _ _ _ differs

/-- From progress in another order, and for the same definitions in another order, a run may end in
the same, in another order. -/
theorem mayEnd_finish_reordered (root : RootSchema) (items others : List ItemSchema)
    (definitions : (lastDefinitions items).Reordered (lastDefinitions others))
    (ignore : ∀ item ∈ items, item.Each (Expr.EachBound Bound.IgnoresOrder))
    (sees : answers.SeesVariables) {progress other : Progress}
    (reordered : progress.Reordered other) (resolution : Resolution)
    (ends : (finish ⟨root, items⟩ progress).run.MayEnd answers before (.ok resolution) after) :
    ∃ resolution', (finish ⟨root, others⟩ other).run.MayEnd answers before (.ok resolution')
      after ∧ resolution.Reordered resolution' := by
  obtain ⟨ends, envName⟩ := (mayEnd_finish_ok _ _ _).mp ends
  obtain ⟨rfl, each⟩ := (mayEnd_finishAll_ok _ _ _ _ sees).mp ends
  have eachToo : List.Forall₂ (MayFinish answers after root other) (lastDefinitions items)
      resolution.items := by
    have ignoreEach := fun entry member => ignore _ (mem_lastDefinitions items entry member)
    refine ((List.forall₂_and_left _ _).mpr ⟨ignoreEach, each⟩).imp ?_
    rintro entry resolved ⟨ignores, same, finishes, valid⟩
    have finishItem := reordered_finishItem root reordered entry.2 ignores
    refine ⟨same, (finishItem.mayEnd sees _).mp finishes, ?_⟩
    rw [← reordered.scope.options]
    exact valid
  obtain ⟨items', each', perm⟩ := List.perm_comp_forall₂ definitions.perm.symm eachToo
  have distinct := keys_of_mayFinish each ▸ definitions.distinct
  refine ⟨⟨items', other.scope.currentEnv⟩, ?_, ?_⟩
  · exact (mayEnd_finish_ok _ _ _).mpr ⟨(mayEnd_finishAll_ok _ _ _ _ sees).mpr ⟨rfl, each'⟩, rfl⟩
  · exact ⟨Keyed.reordered_of_perm _ _ distinct perm.symm, envName.trans reordered.scope.currentEnv⟩

theorem mayEnd_ofSchema_exchange (root : RootSchema) (options : Options)
    (front back : List ItemSchema) (first second : ItemSchema)
    (unrelated : first.Unrelated second)
    (reads : ∀ item ∈ front ++ first :: second :: back, item.value.EachBound Bound.NamesReads)
    (ignore : ∀ item ∈ front ++ first :: second :: back,
      item.Each (Expr.EachBound Bound.IgnoresOrder))
    (sees : answers.SeesVariables) (resolution : Resolution)
    (ends : (ofSchema ⟨root, front ++ first :: second :: back⟩ options).run.MayEnd answers before
      (.ok resolution) after) :
    ∃ resolution', (ofSchema ⟨root, front ++ second :: first :: back⟩ options).run.MayEnd answers
      before (.ok resolution') after ∧ resolution.Reordered resolution' := by
  have share : ∀ item ∈ front ++ first :: second :: back, item.MayShare answers :=
    fun item member => ⟨reads item member, fun _ _ => Action.eachCommand_of_forall sees.forgets _⟩
  have exchanged : (front ++ second :: first :: back).Perm (front ++ first :: second :: back) :=
    (List.Perm.swap first second back).append_left front
  have shareToo : ∀ item ∈ front ++ second :: first :: back, item.MayShare answers :=
    fun item member => share item (exchanged.mem_iff.mp member)
  obtain ⟨_, between, comes, goesOn⟩ := (mayEnd_ofSchema _ options share _).mp ends
  obtain ⟨reached, rfl, finishes⟩ := (Action.goesOn_ok _ _ _ _ _).mp goesOn
  obtain ⟨reached', comes', same⟩ := Progress.mayCome_exchange _ options reached front back first
    second unrelated reads (fun item member => (ignore item member).value) sees comes
  have definitions := reordered_lastDefinitions front back first second unrelated.apart.1
  obtain ⟨resolution', finishes', same'⟩ :=
    mayEnd_finish_reordered root _ _ definitions ignore sees same resolution finishes
  refine ⟨resolution', (mayEnd_ofSchema _ options shareToo _).mpr ?_, same'⟩
  exact ⟨_, between, comes', (Action.goesOn_ok _ _ _ _ _).mpr ⟨reached', rfl, finishes'⟩⟩

/-! ## Compiled items -/

/-- Neighbours that define different keys, and of which each names the keys that it reads and does
not read the key of the other, may change places. Whatever the schema may be resolved to in one
order, it may be resolved to in the other: every key comes to the same, and so does the name of the
environment. Where no store has anything at hand there is one resolution, and it is the same.
Functions have to name the keys that they read and to ignore the order of values, as the library's
and those of stores do, and commands to ignore the order of their variables. -/
theorem independent_items_exchange (registry : Registry) (reads : registry.Binds Bound.NamesReads)
    (ignores : registry.Binds Bound.IgnoresOrder) (root : RootSchema) (options : Options)
    (front back : List ItemSchema) (first second : ItemSchema)
    (compiled : ∀ item ∈ front ++ first :: second :: back,
      ∃ definition, ItemSchema.ofItem registry definition = .ok item)
    (unrelated : first.Unrelated second) :
    (∀ answers : Answers, answers.SeesVariables → ∀ before resolution after,
      (ofSchema ⟨root, front ++ first :: second :: back⟩ options).run.MayEnd answers before
        (.ok resolution) after →
      ∃ resolution', (ofSchema ⟨root, front ++ second :: first :: back⟩ options).run.MayEnd answers
        before (.ok resolution') after ∧ resolution.Reordered resolution') ∧
    ∀ outside : Outside, outside.SeesVariables → ∀ resolution,
      (ofSchema ⟨root, front ++ first :: second :: back⟩ options).run.answer outside =
        .ok resolution →
      ∃ resolution', (ofSchema ⟨root, front ++ second :: first :: back⟩ options).run.answer
        outside = .ok resolution' ∧ resolution.Reordered resolution' := by
  have isOf : ∀ item ∈ front ++ first :: second :: back, item.Each (Expr.IsOf registry) := by
    intro item member
    obtain ⟨definition, success⟩ := compiled item member
    exact ItemSchema.each_of_ofItem definition item success
  have readsEach := fun item member => (isOf item member).value.eachBound reads
  have ignoresEach := fun item member =>
    (isOf item member).imp fun _ ofRegistry => ofRegistry.eachBound ignores
  constructor
  · intro answers sees before resolution after ends
    exact mayEnd_ofSchema_exchange root options front back first second unrelated readsEach
      ignoresEach sees resolution ends
  · intro outside sees resolution ends
    obtain ⟨resolution', ends', same⟩ := mayEnd_ofSchema_exchange root options front back first
      second unrelated readsEach ignoresEach sees.uncached resolution
      ((Action.mayEnd_uncached outside _ _).mpr ends.symm)
    exact ⟨resolution', ((Action.mayEnd_uncached outside _ _).mp ends').symm, same⟩

def givenBy (key : Char) (function : String) (word : Char) : Item :=
  .new [key] (some (.applyNamed function [.literal (.bare [word])]))

/-- `Z=vault(k)`, and below it `X=vault(x)` and `P=ref(Z)` in either order. -/
theorem independent_items_exchange_reference :
    Registry.withVault.Binds Bound.NamesReads ∧ Registry.withVault.Binds Bound.IgnoresOrder ∧
    Outside.obliging.SeesVariables ∧
    ∃ z x p, ItemSchema.ofItem .withVault (givenBy 'Z' "vault" 'k') = .ok z ∧
      ItemSchema.ofItem .withVault (givenBy 'X' "vault" 'x') = .ok x ∧
      ItemSchema.ofItem .withVault (givenBy 'P' "ref" 'Z') = .ok p ∧
      x.Unrelated p ∧
      ∃ resolution resolution',
        (ofSchema ⟨.standard, [z, x, p]⟩ (.ofEnvironment [])).run.answer .obliging =
          .ok resolution ∧
        (ofSchema ⟨.standard, [z, p, x]⟩ (.ofEnvironment [])).run.answer .obliging =
          .ok resolution' ∧
        resolution.Reordered resolution' := by
  have own := Registry.withVault_isOwn
  have reads : Registry.withVault.Binds Bound.NamesReads :=
    fun name resolver found => (own name resolver found).imp Bound.IsOwn.namesReads
  have ignores : Registry.withVault.Binds Bound.IgnoresOrder :=
    fun name resolver found => (own name resolver found).imp Bound.IsOwn.ignoresOrder
  have sees : Outside.obliging.SeesVariables := fun _ _ _ => rfl
  obtain ⟨z, x, p, isZ, isX, isP, unrelated, resolution, ends⟩ :
      ∃ z x p, ItemSchema.ofItem .withVault (givenBy 'Z' "vault" 'k') = .ok z ∧
        ItemSchema.ofItem .withVault (givenBy 'X' "vault" 'x') = .ok x ∧
        ItemSchema.ofItem .withVault (givenBy 'P' "ref" 'Z') = .ok p ∧
        x.Unrelated p ∧
        ∃ resolution, (ofSchema ⟨.standard, [z, x, p]⟩ (.ofEnvironment [])).run.answer .obliging =
          .ok resolution :=
    ⟨_, _, _, rfl, rfl, rfl,
      ⟨⟨by decide, _, rfl, by decide⟩, ⟨by decide, _, rfl, by decide⟩⟩, _, rfl⟩
  have compiled : ∀ item ∈ [z, x, p],
      ∃ definition, ItemSchema.ofItem .withVault definition = .ok item := by
    simp only [List.forall_mem_cons]
    exact ⟨⟨_, isZ⟩, ⟨_, isX⟩, ⟨_, isP⟩, List.forall_mem_nil _⟩
  obtain ⟨resolution', ends', same⟩ := (independent_items_exchange .withVault reads ignores
    .standard (.ofEnvironment []) [z] [] x p compiled unrelated).2 .obliging sees resolution ends
  exact ⟨reads, ignores, sees, z, x, p, isZ, isX, isP, unrelated, resolution, resolution', ends,
    ends', same⟩

/-- The reference begins a new wave. There the store has `k` at hand, so that `a` is asked for in
the same round as `b`, and is the first to be refused. -/
example :
    let vault (term : Term) : Term := .applyNamed "vault" [term]
    let bare (c : Char) : Term := .literal (.bare [c])
    let z : Node := .item (givenBy 'Z' "vault" 'k')
    let x : Node :=
      .item (.new ['X'] (some (.applyNamed "concat" [vault (vault (bare 'k')), vault (bare 'b')])))
    let p : Node := .item (givenBy 'P' "ref" 'Z')
    let store : Store Unit :=
      { vault :=
          { secrets := [(['k'], ['a'])], failures := [(['a'], .forbidden), (['b'], .forbidden)],
            poison := none, abort := none, requests := [] }
        coalescer := .new true }
    let errors (nodes : List Node) :=
      ((ofDocument .withVault (.ofEnvironment []) ⟨nodes, true⟩).run.perform
        (World.new [] [store])).result.toOption.map Resolution.errors
    let refusal (key : Text) :=
      [(['X'], ItemError.resolution (.store Vault.name key .forbidden "rejected".toList))]
    errors [z, x, p] = some (refusal ['b']) ∧ errors [z, p, x] = some (refusal ['a']) := by
  decide +kernel

end Resolution

end Dotenv
