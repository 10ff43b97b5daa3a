import Dotenv.Expression
import Dotenv.Proofs.Action.Endings
import Dotenv.Proofs.Document.Quoted
import Dotenv.Proofs.Template.Meaning
import Dotenv.Proofs.Value.Display
import Dotenv.Resolver.Builtin
/-!
# Expanded literals

A literal that holds substitutions is put as a call. The call can always be bound to the
library's own functions, and where references may be to anything it evaluates to the text that
the literal has when it is read directly.
-/

set_option autoImplicit false

namespace Dotenv

def Registry.own : Registry := .withBuiltins []

/-- A scope without lists and JSON in which a reference may be to a key that nothing defines. -/
structure Scope.IsLenient (scope : Scope) : Prop where
  lenient : scope.options.strictRefs = false
  scalars : ∀ key value, scope.values.get? key = some value → value.IsScalar

/-- What lies outside answers every script, as a function of the script alone. -/
def Outside.Answers (outside : Outside) (scope : Scope) (answer : Text → Text) : Prop :=
  ∀ script,
    Resolver.ofOutcome scope.options.commandLimit
      (outside.outcome (.ofScript scope.options.shell script scope.environment
        scope.options.commandLimit)) = .ok (.text (answer script))

def Term.Evaluates (outside : Outside) (scope : Scope) (term : Term) (value : Value) : Prop :=
  ∃ expr, Expr.ofTerm .own term = .ok expr ∧ (expr.evaluate scope).run.Yields outside (.ok value)

def Argument.Yield (outside : Outside) (arguments : List Argument) (values : List Value) : Prop :=
  List.Forall₂ (fun argument value => argument.value.run.Yields outside (.ok value)) arguments
    values

variable {outside : Outside} {scope : Scope}

/-! ## Calls with positional arguments -/

theorem Args.toList_positional (terms : List Term) :
    (Args.positional terms).toList = terms.map (⟨none, ·⟩) := by
  rw [positional, toList_ofList]

theorem Args.expectPositional_positional (terms : List Term) (function : Text) :
    (Args.positional terms).expectPositional function = .ok terms := by
  have unkeyed : (Args.positional terms).shape? = some (.positional terms) := by
    simp [shape?, toList_positional, Function.comp_def]
  simp only [expectPositional, expectShape, unkeyed]
  rfl

theorem Exprs.ofArgs_positional (terms : List Term) (values : List Value)
    (each : List.Forall₂ (Term.Evaluates outside scope) terms values) :
    ∃ exprs, ofArgs .own (.positional terms) = .ok exprs ∧
      Argument.Yield outside (exprs.arguments scope) values := by
  induction each with
  | nil => exact ⟨.nil, rfl, .nil⟩
  | @cons term value terms values first _ ih =>
    obtain ⟨expr, exprIs, yields⟩ := first
    obtain ⟨exprs, exprsAre, restYield⟩ := ih
    refine ⟨.cons none expr exprs, ?_, .cons yields restYield⟩
    have unfolded : Args.positional (term :: terms) = .cons none term (.positional terms) := rfl
    rw [unfolded, ofArgs, exprIs, exprsAre]
    rfl

theorem Term.evaluates_apply (name : String) (resolver : Resolver)
    (found : Registry.own.get? name.toList = some resolver) (terms : List Term)
    (values : List Value) (each : List.Forall₂ (Term.Evaluates outside scope) terms values)
    (bound : Bound) (binds : resolver.bind name.toList (.positional terms) = .ok bound)
    (value : Value)
    (runs : ∀ arguments, Argument.Yield outside arguments values →
      (bound.run ⟨name.toList, arguments, scope⟩).run.Yields outside (.ok value)) :
    (applyNamed name terms).Evaluates outside scope value := by
  obtain ⟨exprs, exprsAre, yield⟩ := Exprs.ofArgs_positional terms values each
  refine ⟨.call name.toList resolver.name bound exprs, ?_, runs _ yield⟩
  simp only [applyNamed, apply, Expr.ofTerm, found, exprsAre, binds]
  rfl

theorem Term.evaluates_text (text : Text) (quote : Quote) :
    (Term.text text quote).Evaluates outside scope (.text text) := by
  refine ⟨.literal (.text text), ?_, Action.yields_pure _⟩
  simp only [Term.text, Expr.ofTerm, Literal.scalar_quoted, Value.ofScalar]

theorem Invocation.yields_values (call : Invocation) (values : List Value)
    (yield : Argument.Yield outside call.arguments values) :
    call.values.run.Yields outside (.ok values) := by
  refine Action.yields_allUnlessError ?_
  rw [List.forall₂_map_left_iff]
  exact yield

theorem Term.evaluates_concat (terms : List Term) (values : List Value)
    (each : List.Forall₂ (Term.Evaluates outside scope) terms values) :
    (applyNamed "concat" terms).Evaluates outside scope
      (.text (values.flatMap Value.display)) := by
  refine evaluates_apply "concat" .concat rfl terms values each ⟨some [], Resolver.joined⟩ ?_ _ ?_
  · exact (bind_eq_ok _ _ _).mpr ⟨_, Args.expectPositional_positional _ _, rfl⟩
  · intro arguments yield
    exact (Invocation.yields_values ⟨_, arguments, scope⟩ values yield).ok_bind
      (Action.yields_pure _)

theorem Invocation.yields_text_zero (call : Invocation) (value : Value) (values : List Value)
    (yield : Argument.Yield outside call.arguments (value :: values)) :
    (call.text 0).run.Yields outside (.ok value.display) := by
  obtain ⟨function, arguments, scope⟩ := call
  cases yield with
  | cons first _ => exact Action.Yields.ok_bind first (Action.yields_pure _)

/-! ## Commands -/

theorem Action.yields_run (command : Command) :
    (Action.run command).Yields outside (outside.outcome command) :=
  fun r => Action.endsIn_done outside (outside.outcome command) r

theorem Resolver.yields_runScript (script : Text) :
    (runScript scope script).run.Yields outside
      (ofOutcome scope.options.commandLimit
        (outside.outcome (.ofScript scope.options.shell script scope.environment
          scope.options.commandLimit))) :=
  Action.Yields.bind (Action.yields_report _)
    (Action.Yields.bind (Action.yields_run _) (Action.yields_done _))

theorem Term.evaluates_command (answer : Text → Text) (answers : outside.Answers scope answer)
    (script : Text) :
    (applyNamed "eval" [Term.text script .double]).Evaluates outside scope
      (.text (answer script)) := by
  refine evaluates_apply "eval" .exec rfl _ [.text script] (.cons (evaluates_text _ _) .nil) _ rfl
    _ ?_
  intro arguments yield
  have asked := Invocation.yields_text_zero ⟨"eval".toList, arguments, scope⟩ _ _ yield
  have ran : (Resolver.runScript scope script).run.Yields outside _ :=
    Resolver.yields_runScript script
  rw [answers script] at ran
  exact asked.ok_bind ran

/-! ## References -/

/-- The value of a reference to a key: a key without a value reads as the empty text, unless
nothing defines it. -/
def Scope.referTo (scope : Scope) (key : Text) : Value :=
  match scope.lookup key with
  | .overridden text => .text text
  | .defined .undefined => .text []
  | .defined value => value
  | .unknown => .undefined

theorem Scope.referTo_display (scope : Scope) (key : Text) :
    (scope.referTo key).display = scope.textOf key := by
  unfold referTo textOf
  cases scope.lookup key with
  | overridden text => rfl
  | defined value => cases value <;> rfl
  | unknown => rfl

theorem Scope.referTo_isUndefined (scope : Scope) (key : Text) :
    (scope.referTo key).isUndefined = !scope.knows key := by
  unfold referTo knows
  cases scope.lookup key with
  | overridden text => rfl
  | defined value => cases value <;> rfl
  | unknown => rfl

theorem Scope.referTo_isScalar (isLenient : scope.IsLenient) (key : Text) :
    (scope.referTo key).IsScalar := by
  unfold referTo lookup
  cases scope.options.overrides.get? key with
  | some text => exact ⟨.text text, rfl⟩
  | none =>
    cases found : scope.values.get? key with
    | none => exact ⟨.undefined, rfl⟩
    | some value =>
      have scalar := isLenient.scalars key value found
      cases value with
      | undefined => exact ⟨.text [], rfl⟩
      | boolean | number | text | list | json => exact scalar

theorem Resolver.yields_lookUp (isLenient : scope.IsLenient) (key : Text) (named : key ≠ []) :
    (lookUp scope key).run.Yields outside (.ok (scope.referTo key)) := by
  unfold lookUp Scope.referTo
  rw [if_neg named, isLenient.lenient]
  cases scope.lookup key with
  | overridden text => exact Action.yields_pure _
  | defined value => cases value <;> exact Action.yields_pure _
  | unknown => exact Action.yields_pure _

theorem Resolver.bind_ref (name : Text) (named : name ≠ []) :
    ref.bind "ref".toList (.positional [Term.text name .double]) = .ok (refTo name) := by
  have written : (Args.positional [Term.text name .double]).text? 0 = some name := by
    simp only [Args.text?, Args.scalar?, Args.toList_positional, List.map_cons,
      List.getElem?_cons_zero, Option.bind_some, Term.text, Term.scalar?, Literal.scalar_quoted,
      Option.map_some, Scalar.display]
  refine (bind_eq_ok _ _ _).mpr ⟨_, Args.expectPositional_positional _ _, ?_⟩
  refine (bind_eq_ok _ _ _).mpr ⟨(), rfl, ?_⟩
  rw [written]
  cases name with
  | nil => exact absurd rfl named
  | cons c rest => rfl

theorem Term.evaluates_reference (isLenient : scope.IsLenient) (name : Text) (named : name ≠ []) :
    (Term.reference name).Evaluates outside scope (scope.referTo name) := by
  refine evaluates_apply "ref" .ref rfl _ [.text name] (.cons (evaluates_text _ _) .nil)
    (Resolver.refTo name) (Resolver.bind_ref name named) _ ?_
  intro arguments _
  exact Resolver.yields_lookUp isLenient name named

/-! ## Defaults -/

def Value.orElse (accepts : Value → Bool) (value instead : Value) : Value :=
  if accepts value then value else if accepts instead then instead else .undefined

theorem Resolver.yields_lenient (attempt : Attempt Value) (value : Value)
    (yields : attempt.run.Yields outside (.ok value)) :
    (lenient attempt).run.Yields outside (.ok value) :=
  Action.Yields.bind yields (Action.yields_done _)

theorem Resolver.yields_firstAccepted (accepts : Value → Bool) (arguments : List Argument)
    (value instead : Value) (yield : Argument.Yield outside arguments [value, instead]) :
    (firstAccepted accepts arguments).run.Yields outside (.ok (value.orElse accepts instead)) := by
  cases yield with
  | cons first rest =>
    cases rest with
    | cons second none =>
      cases none
      unfold Value.orElse
      refine (yields_lenient _ value first).ok_bind ?_
      by_cases accepted : accepts value
      · rw [if_pos accepted, if_pos accepted]
        exact Action.yields_pure _
      · rw [if_neg accepted, if_neg accepted]
        refine (yields_lenient _ instead second).ok_bind ?_
        by_cases accepted : accepts instead
        · rw [if_pos accepted, if_pos accepted]
          exact Action.yields_pure _
        · rw [if_neg accepted, if_neg accepted]
          exact Action.yields_pure _

def DefaultRule.accepts : DefaultRule → Value → Bool
  | whenEmpty, value => !value.isEmpty
  | whenUndefined, value => !value.isUndefined

theorem Term.evaluates_default (rule : DefaultRule) (term instead : Term) (value other : Value)
    (termEvaluates : term.Evaluates outside scope value)
    (insteadEvaluates : instead.Evaluates outside scope other) :
    (applyNamed rule.function [term, instead]).Evaluates outside scope
      (value.orElse rule.accepts other) := by
  have each : List.Forall₂ (Evaluates outside scope) [term, instead] [value, other] :=
    .cons termEvaluates (.cons insteadEvaluates .nil)
  cases rule with
  | whenEmpty =>
    refine evaluates_apply "fallback" .fallback rfl _ _ each _ rfl _ ?_
    intro arguments yield
    exact Resolver.yields_firstAccepted _ arguments value other yield
  | whenUndefined =>
    refine evaluates_apply "coalesce" .coalesce rfl _ _ each _ rfl _ ?_
    intro arguments yield
    exact Resolver.yields_firstAccepted _ arguments value other yield

/-! ## Templates -/

theorem Term.evaluates_joined (quote : Quote) (parts : List Term) (values : List Value)
    (each : List.Forall₂ (Term.Evaluates outside scope) parts values) :
    ∃ value, (joined quote parts).Evaluates outside scope value ∧
      value.display = values.flatMap Value.display := by
  match parts, values, each with
  | [], [], _ => exact ⟨_, evaluates_text [] quote, rfl⟩
  | [part], [value], .cons first .nil =>
    exact ⟨value, first, by rw [List.flatMap_cons, List.flatMap_nil, List.append_nil]⟩
  | _ :: _ :: _, values, each => exact ⟨_, evaluates_concat _ values each, rfl⟩

theorem DefaultRule.display_of_not_accepts (rule : DefaultRule) (value : Value)
    (refused : rule.accepts value = false) : value.display = [] := by
  cases rule with
  | whenEmpty => exact value.display_of_isEmpty (by simpa [accepts] using refused)
  | whenUndefined =>
    cases value with
    | undefined => rw [Value.display]
    | boolean | number | text | list | json => cases refused

theorem DefaultRule.accepts_referTo (isLenient : scope.IsLenient) (rule : DefaultRule)
    (name : Text) :
    rule.accepts (scope.referTo name) = scope.keeps (rule = .whenEmpty) name := by
  cases rule with
  | whenEmpty =>
    have scalar := Scope.referTo_isScalar isLenient name
    simp only [accepts, Scope.keeps, decide_true, if_true, ← Scope.referTo_display]
    by_cases empty : (scope.referTo name).display = []
    · simp [empty, Value.isEmpty_of_display _ scalar empty]
    · cases isEmpty : (scope.referTo name).isEmpty with
      | true => exact absurd (Value.display_of_isEmpty _ isEmpty) empty
      | false => simp [empty]
  | whenUndefined =>
    simp only [accepts, Scope.referTo_isUndefined, Bool.not_not, Scope.keeps]
    rfl

theorem Value.display_orElse (isLenient : scope.IsLenient) (rule : DefaultRule) (name : Text)
    (instead : Value) :
    ((scope.referTo name).orElse rule.accepts instead).display =
      if scope.keeps (rule = .whenEmpty) name then scope.textOf name else instead.display := by
  rw [orElse, ← DefaultRule.accepts_referTo isLenient, ← Scope.referTo_display]
  split
  · rfl
  · split
    · rfl
    · rename_i refused
      rw [rule.display_of_not_accepts instead (eq_false_of_ne_true refused), display]

theorem Template.terms_evaluate (isLenient : scope.IsLenient) (answer : Text → Text)
    (answers : outside.Answers scope answer) (quote : Quote) (template : Template)
    (named : template.Named) :
    ∃ values, List.Forall₂ (Term.Evaluates outside scope) (template.terms quote) values ∧
      values.flatMap Value.display = template.meaning scope answer := by
  induction template with
  | nil => exact ⟨[], .nil, rfl⟩
  | plain text rest ih =>
    obtain ⟨values, each, means⟩ := ih named
    refine ⟨.text text :: values, .cons (Term.evaluates_text text quote) each, ?_⟩
    rw [List.flatMap_cons, means]
    rfl
  | command script rest ih =>
    obtain ⟨values, each, means⟩ := ih named
    refine ⟨.text (answer script) :: values,
      .cons (Term.evaluates_command answer answers script) each, ?_⟩
    rw [List.flatMap_cons, means]
    rfl
  | reference name rest ih =>
    obtain ⟨values, each, means⟩ := ih named.2
    refine ⟨scope.referTo name :: values,
      .cons (Term.evaluates_reference isLenient name named.1) each, ?_⟩
    rw [List.flatMap_cons, means, Scope.referTo_display]
    rfl
  | default rule name instead rest insteadIh restIh =>
    obtain ⟨nameNamed, insteadNamed, restNamed⟩ := named
    obtain ⟨insteadValues, insteadEach, insteadMeans⟩ := insteadIh insteadNamed
    obtain ⟨values, each, means⟩ := restIh restNamed
    obtain ⟨other, otherEvaluates, otherMeans⟩ :=
      Term.evaluates_joined quote (instead.terms quote) insteadValues insteadEach
    refine ⟨(scope.referTo name).orElse rule.accepts other :: values, .cons ?_ each, ?_⟩
    · exact Term.evaluates_default rule _ _ _ other
        (Term.evaluates_reference isLenient name nameNamed) otherEvaluates
    · rw [List.flatMap_cons, means, Value.display_orElse isLenient, otherMeans, insteadMeans]
      rfl

theorem Template.joined_evaluates (isLenient : scope.IsLenient) (answer : Text → Text)
    (answers : outside.Answers scope answer) (quote : Quote) (bare : Bool) (text : Text) :
    ∃ value, (Term.joined quote ((ofText bare text).terms quote)).Evaluates outside scope value ∧
      value.display = Direct.read bare scope answer text := by
  obtain ⟨values, each, means⟩ := terms_evaluate isLenient answer answers quote _
    (named_ofText bare text)
  obtain ⟨value, evaluates, display⟩ := Term.evaluates_joined quote _ values each
  exact ⟨value, evaluates, by rw [display, means, meaning_ofText]⟩

theorem Term.evaluates_withSource (source : Text) (term : Term) (value : Value)
    (evaluates : term.Evaluates outside scope value) :
    (term.withSource source).Evaluates outside scope value := by
  cases term with
  | literal written => exact evaluates
  | call name args argsSource old => exact evaluates

theorem Template.isPlain_of_noCall (quote : Quote) (template : Template)
    (noCall : (template.terms quote).any Term.isCall = false) : template.IsPlain := by
  induction template with
  | nil => exact trivial
  | plain text rest ih => exact ih noCall
  | command | reference | default => cases noCall

/-- A literal that is a text and not taken to the letter means what it says: it can be bound
once it is expanded, and it ends in the text that it has when it is read directly. -/
theorem Literal.expansion_evaluates (outside : Outside) (scope : Scope)
    (isLenient : scope.IsLenient) (answer : Text → Text)
    (answers : outside.Answers scope answer) (bare : Bool) (literal : Literal)
    (expandable : literal.isVerbatim = false) (text : Text)
    (isText : literal.scalar = .text text) :
    ∃ expr value, Expr.ofTerm .own ((Term.literal literal).expand bare) = .ok expr ∧
      (expr.evaluate scope).run.Yields outside (.ok value) ∧
      value.display = Direct.read bare scope answer text := by
  let quote := literal.quote.getD .double
  let parts := (Template.ofText bare text).terms quote
  have expands : literal.expand? bare =
      if parts.any Term.isCall then some ((Term.joined quote parts).withSource literal.raw)
      else none := by
    simp only [expand?, expandable, isText, Bool.false_eq_true, if_false]
    rfl
  cases hasCall : parts.any Term.isCall with
  | true =>
    obtain ⟨value, evaluates, display⟩ :=
      Template.joined_evaluates isLenient answer answers quote bare text
    obtain ⟨expr, bound, yields⟩ := Term.evaluates_withSource literal.raw _ value evaluates
    refine ⟨expr, value, ?_, yields, display⟩
    rw [Term.expand, expands, if_pos hasCall, Option.getD_some]
    exact bound
  | false =>
    refine ⟨.literal (.text text), .text text, ?_, Action.yields_pure _, ?_⟩
    · rw [Term.expand, expands, hasCall]
      simp only [Bool.false_eq_true, if_false, Option.getD_none, Expr.ofTerm, isText,
        Value.ofScalar]
    · rw [Template.read_of_isPlain scope answer bare text
        (Template.isPlain_of_noCall quote _ hasCall), Value.display]

def Scope.single : Scope :=
  ⟨[(['A'], .text ['x'])], .ofEnvironment [], none, none⟩

def Outside.clock : Outside :=
  { outcome := fun _ => .ended (some 0) (Octets.ofText "now\n".toList) []
    reply := fun secret => .ok (.text secret.key) }

theorem Literal.expansion_evaluates_clock :
    ∃ expr value,
      Expr.ofTerm .own ((Term.literal
        (.quoted "$A-$\x7bB:-$A\x7d $(date)".toList .double)).expand true) = .ok expr ∧
      (expr.evaluate .single).run.Yields .clock (.ok value) ∧
      value.display = "x-x now".toList := by
  have isLenient : Scope.single.IsLenient := by
    refine ⟨rfl, fun key value found => ?_⟩
    simp only [Scope.single, Keyed.get?] at found
    split at found
    · cases found
      exact ⟨.text ['x'], rfl⟩
    · cases found
  obtain ⟨expr, value, bound, yields, display⟩ := expansion_evaluates .clock .single isLenient
    (fun _ => "now".toList) (fun _ => rfl) true
    (.quoted "$A-$\x7bB:-$A\x7d $(date)".toList .double) rfl
    "$A-$\x7bB:-$A\x7d $(date)".toList (scalar_quoted _ _)
  refine ⟨expr, value, bound, yields, display.trans ?_⟩
  rw [← Template.meaning_ofText]
  rfl

end Dotenv
