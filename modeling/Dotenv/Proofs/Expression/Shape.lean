import Dotenv.Proofs.Expression.Own
import Dotenv.Proofs.Expression.Usage
/-!
# The shape of bound calls

Arguments are checked once, as they are written, when a call is bound. Its function meets them
later, as expressions, and relies on what was checked: in an expression that was bound, every call
has all the arguments that its function asks for.
-/

set_option autoImplicit false

namespace Dotenv

/-! ## Arguments as written -/

namespace Args

theorem keys_of_expectPositional (args : Args) (function : Text) (terms : List Term)
    (success : args.expectPositional function = .ok terms) :
    args.toList.map Arg.key = List.replicate args.size none := by
  obtain ⟨shape, shaped, isPositional⟩ := (bind_eq_ok _ _ _).mp success
  cases shape with
  | named entries => cases isPositional
  | positional values =>
    unfold expectShape at shaped
    split at shaped
    · rename_i found
      cases shaped
      simp only [shape?] at found
      split at found
      · rename_i unkeyed
        refine List.eq_replicate_iff.mpr ⟨List.length_map _, fun key member => ?_⟩
        obtain ⟨arg, inArgs, rfl⟩ := List.mem_map.mp member
        exact Option.isNone_iff_eq_none.mp (List.all_eq_true.mp unkeyed arg inArgs)
      · split at found <;> cases found
    · cases shaped

theorem size_of_expectCount (args : Args) (function : Text) (least : Nat) (most : Option Nat)
    (success : args.expectCount function least most = .ok ()) :
    least ≤ args.size ∧ args.size ≤ most.getD args.size := by
  unfold expectCount at success
  split at success
  · assumption
  · cases success

theorem eq_single (args : Args) (keys : args.toList.map Arg.key = [none]) :
    ∃ term, args = .cons none term .nil := by
  match args, keys with
  | .cons key term .nil, keys => exact ⟨term, by simpa [toList] using keys⟩

end Args

/-! ## Arguments as bound -/

def Exprs.keys : Exprs → List (Option Text)
  | .nil => []
  | .cons key _ rest => key :: rest.keys

theorem Exprs.length_arguments (scope : Scope) :
    ∀ exprs : Exprs, (exprs.arguments scope).length = exprs.keys.length
  | .nil => rfl
  | .cons _ _ rest => congrArg Nat.succ (length_arguments scope rest)

theorem Value.display_ofScalar (scalar : Scalar) : (ofScalar scalar).display = scalar.display := by
  cases scalar <;> rw [ofScalar, display, Scalar.display]

section
variable {registry : Registry}

theorem Exprs.keys_of_ofArgs (args : Args) (exprs : Exprs)
    (success : ofArgs registry args = .ok exprs) : exprs.keys = args.toList.map Arg.key :=
  match args with
  | .nil => by
    cases success
    rfl
  | .cons key value rest => by
    simp only [ofArgs, bind_eq_ok, Except.ok.injEq] at success
    obtain ⟨_, _, others, othersSuccess, rfl⟩ := success
    exact congrArg (key :: ·) (keys_of_ofArgs rest others othersSuccess)

end

/-! ## What functions rely on -/

def Routine.Fits (args : Exprs) : Routine → Prop
  | refTo key => key ≠ [] ∧ ∃ value, args = .cons none (.literal value) .nil ∧ value.display = key
  | refComputed => ∃ name resolver bound others,
    args = .cons none (.call name resolver bound others) .nil
  | forEnv => args.keys ≠ [] ∧ args.keys = List.replicate args.keys.length none
  | concat | fallback | coalesce => args.keys = List.replicate args.keys.length none
  | replace => args.keys = List.replicate 3 none
  | remap => ∃ names : List Text, args.keys = none :: names.map some
  | exec | secret _ _ => args.keys = [none]

theorem Routine.finds_of_fits (routine : Routine) (args : Exprs) (fits : routine.Fits args)
    (scope : Scope) : (routine.usage scope args.keys.length).Finds args.keys := by
  have first (keys : args.keys = [none]) : 0 < args.keys.length := by simp [keys]
  cases routine with
  | refTo key => exact trivial
  | refComputed =>
    obtain ⟨name, resolver, bound, others, rfl⟩ := fits
    exact Usage.finds_needs (first rfl) fun _ => trivial
  | forEnv =>
    rw [usage]
    split
    · exact trivial
    · split
      · exact trivial
      · exact Usage.finds_needsAll fun _ => trivial
  | concat => exact Usage.finds_needsAll fun _ => trivial
  | replace =>
    have three : args.keys.length = 3 := by rw [show args.keys = _ from fits, List.length_replicate]
    refine Usage.finds_needs (by omega) fun value => ?_
    split
    · exact trivial
    · exact Usage.finds_needs (by omega) fun search =>
        Usage.finds_needs (by omega) fun replacement => trivial
  | remap =>
    obtain ⟨names, keys⟩ := fits
    have inside : 0 < args.keys.length := by simp [keys]
    refine Usage.finds_needs inside fun value => ?_
    split
    · exact trivial
    · refine Usage.finds_matching _ _ _ fun index member => ?_
      obtain ⟨least, most⟩ := List.mem_range'_1.mp member
      obtain ⟨place, rfl⟩ : ∃ place, index = place + 1 := ⟨index - 1, by omega⟩
      have named : place < names.length := by
        simp only [keys, List.length_cons, List.length_map] at most
        omega
      exact ⟨names[place], by simp [keys, named]⟩
  | fallback => exact Usage.finds_choosing _ _ fun index => List.mem_range.mp
  | coalesce => exact Usage.finds_choosing _ _ fun index => List.mem_range.mp
  | exec => exact Usage.finds_needs (first fits) fun _ => trivial
  | secret name store => exact Usage.finds_needs (first fits) fun _ => trivial

/-- Arguments are what a call relies on, given by the name that it uses, the name of its function
and what it is bound to: the function is one of the library's own or that of a store, and in every
scope all that it asks for is there. -/
def Exprs.Serve (name resolver : Text) (bound : Bound) (args : Exprs) : Prop :=
  ∃ routine : Routine, routine.name = resolver ∧ routine.bound = bound ∧ routine.Fits args ∧
    ∀ scope,
      let usage := routine.usage scope args.keys.length
      let call : Invocation := ⟨name, args.arguments scope, scope⟩
      usage.Finds args.keys ∧ usage.run call = bound.run call

theorem Routine.serve_of_fits (routine : Routine) (args : Exprs) (fits : routine.Fits args)
    (name : Text) : args.Serve name routine.name routine.bound := by
  refine ⟨routine, rfl, rfl, fits, fun scope => ⟨routine.finds_of_fits args fits scope, ?_⟩⟩
  have runs := routine.run_usage ⟨name, args.arguments scope, scope⟩
  rw [Exprs.length_arguments] at runs
  exact runs

/-! ## What binding makes sure of -/

def Resolver.BindsWith (registry : Registry) (holds : Text → Text → Bound → Exprs → Prop)
    (resolver : Resolver) : Prop :=
  ∀ function args exprs bound, Exprs.ofArgs registry args = .ok exprs →
    resolver.bind function args = .ok bound → holds function resolver.name bound exprs

section
variable {registry : Registry} {args : Args} {exprs : Exprs}

theorem Exprs.keys_of_positional (made : ofArgs registry args = .ok exprs) {function : Text}
    {terms : List Term} (positional : args.expectPositional function = .ok terms) :
    exprs.keys = List.replicate args.size none := by
  rw [keys_of_ofArgs args exprs made, args.keys_of_expectPositional function terms positional]

theorem Exprs.keys_of_counted (made : ofArgs registry args = .ok exprs) {function : Text}
    {terms : List Term} {count : Nat} (positional : args.expectPositional function = .ok terms)
    (counted : args.expectCount function count (some count) = .ok ()) :
    exprs.keys = List.replicate count none := by
  obtain ⟨least, most⟩ := args.size_of_expectCount function count (some count) counted
  have exact : args.size = count := Nat.le_antisymm most least
  rw [keys_of_positional made positional, exact]

theorem Exprs.keys_all_none (made : ofArgs registry args = .ok exprs) {function : Text}
    {terms : List Term} (positional : args.expectPositional function = .ok terms) :
    exprs.keys = List.replicate exprs.keys.length none := by
  rw [keys_of_positional made positional, List.length_replicate]

end

namespace Resolver

variable {registry : Registry}

theorem ref_serves : ref.BindsWith registry Exprs.Serve := by
  intro function args exprs bound made success
  obtain ⟨_, positional, success⟩ := (bind_eq_ok _ _ _).mp success
  obtain ⟨⟨⟩, counted, success⟩ := (bind_eq_ok _ _ _).mp success
  have keys := Exprs.keys_of_counted made positional counted
  rw [Exprs.keys_of_ofArgs args exprs made] at keys
  obtain ⟨term, rfl⟩ := args.eq_single keys
  cases term with
  | literal written =>
    cases made
    have text : (Args.cons none (.literal written) .nil).text? 0 = some written.scalar.display :=
      rfl
    rw [text] at success
    split at success
    · exact absurd success (throw_ne_ok _ _)
    · rename_i key notEmpty same
      cases success
      refine (Routine.refTo key).serve_of_fits _ ⟨?_, _, rfl, ?_⟩ function
      · rintro rfl
        exact notEmpty rfl
      · rw [Value.display_ofScalar]
        exact Option.some.inj same
    · contradiction
  | call name others source whole =>
    cases success
    simp only [Exprs.ofArgs, bind_eq_ok, Except.ok.injEq] at made
    obtain ⟨first, firstMade, _, rfl, rfl⟩ := made
    simp only [Expr.ofTerm] at firstMade
    split at firstMade
    · cases firstMade
    · obtain ⟨inner, _, firstMade⟩ := (bind_eq_ok _ _ _).mp firstMade
      obtain ⟨_, _, firstMade⟩ := (bind_eq_ok _ _ _).mp firstMade
      cases firstMade
      exact Routine.refComputed.serve_of_fits _ ⟨_, _, _, _, rfl⟩ function

theorem forEnv_serves : forEnv.BindsWith registry Exprs.Serve := by
  intro function args exprs bound made success
  obtain ⟨_, positional, success⟩ := (bind_eq_ok _ _ _).mp success
  obtain ⟨⟨⟩, counted, success⟩ := (bind_eq_ok _ _ _).mp success
  cases success
  refine Routine.forEnv.serve_of_fits exprs ⟨?_, Exprs.keys_all_none made positional⟩ function
  obtain ⟨least, _⟩ := args.size_of_expectCount function 1 none counted
  rw [Exprs.keys_of_positional made positional]
  exact List.ne_nil_of_length_pos (by rw [List.length_replicate]; exact least)

theorem concat_serves : concat.BindsWith registry Exprs.Serve := by
  intro function args exprs bound made success
  obtain ⟨_, positional, success⟩ := (bind_eq_ok _ _ _).mp success
  cases success
  exact Routine.concat.serve_of_fits exprs (Exprs.keys_all_none made positional) function

theorem replace_serves : replace.BindsWith registry Exprs.Serve := by
  intro function args exprs bound made success
  obtain ⟨_, positional, success⟩ := (bind_eq_ok _ _ _).mp success
  obtain ⟨⟨⟩, counted, success⟩ := (bind_eq_ok _ _ _).mp success
  cases success
  exact Routine.replace.serve_of_fits exprs (Exprs.keys_of_counted made positional counted) function

theorem keys_of_isValueAndPairs (args : Args) (shaped : isValueAndPairs args = true) :
    ∃ names : List Text, args.toList.map Arg.key = none :: names.map some := by
  unfold isValueAndPairs at shaped
  split at shaped
  · cases shaped
  · rename_i value pairs found
    obtain ⟨first, others⟩ := (Bool.and_eq_true _ _).mp shaped
    refine ⟨pairs.map fun arg => arg.key.getD [], ?_⟩
    rw [found, List.map_cons, List.map_map, Option.isNone_iff_eq_none.mp first]
    refine congrArg (none :: ·) (List.map_congr_left fun arg member => ?_)
    obtain ⟨name, named⟩ := Option.isSome_iff_exists.mp (List.all_eq_true.mp others arg member)
    simp [named]

theorem remap_serves : remap.BindsWith registry Exprs.Serve := by
  intro function args exprs bound made success
  obtain ⟨_, _, success⟩ := (bind_eq_ok _ _ _).mp success
  split at success
  · obtain ⟨_, refused, _⟩ := (bind_eq_ok _ _ _).mp success
    exact absurd refused (throw_ne_ok _ _)
  · rename_i shaped
    cases success
    refine Routine.remap.serve_of_fits exprs ?_ function
    rw [Routine.Fits, Exprs.keys_of_ofArgs args exprs made]
    exact keys_of_isValueAndPairs args (by simpa using shaped)

theorem fallback_serves : fallback.BindsWith registry Exprs.Serve := by
  intro function args exprs bound made success
  obtain ⟨_, positional, success⟩ := (bind_eq_ok _ _ _).mp success
  cases success
  exact Routine.fallback.serve_of_fits exprs (Exprs.keys_all_none made positional) function

theorem coalesce_serves : coalesce.BindsWith registry Exprs.Serve := by
  intro function args exprs bound made success
  obtain ⟨_, positional, success⟩ := (bind_eq_ok _ _ _).mp success
  cases success
  exact Routine.coalesce.serve_of_fits exprs (Exprs.keys_all_none made positional) function

theorem exec_serves : exec.BindsWith registry Exprs.Serve := by
  intro function args exprs bound made success
  obtain ⟨_, positional, success⟩ := (bind_eq_ok _ _ _).mp success
  obtain ⟨⟨⟩, counted, success⟩ := (bind_eq_ok _ _ _).mp success
  cases success
  exact Routine.exec.serve_of_fits exprs (Exprs.keys_of_counted made positional counted) function

theorem secret_serves (name : Text) (store : Nat) :
    (secret name store).BindsWith registry Exprs.Serve := by
  intro function args exprs bound made success
  obtain ⟨_, positional, success⟩ := (bind_eq_ok _ _ _).mp success
  obtain ⟨⟨⟩, counted, success⟩ := (bind_eq_ok _ _ _).mp success
  split at success
  · obtain ⟨_, refused, _⟩ := (bind_eq_ok _ _ _).mp success
    exact absurd refused (throw_ne_ok _ _)
  · cases success
    exact (Routine.secret name store).serve_of_fits exprs
      (Exprs.keys_of_counted made positional counted) function

theorem builtins_serve (resolver : Resolver) (member : resolver ∈ builtins) :
    resolver.BindsWith registry Exprs.Serve := by
  simp only [builtins, List.mem_cons, List.not_mem_nil, or_false] at member
  rcases member with rfl | rfl | rfl | rfl | rfl | rfl | rfl | rfl
  · exact ref_serves
  · exact forEnv_serves
  · exact concat_serves
  · exact replace_serves
  · exact remap_serves
  · exact fallback_serves
  · exact coalesce_serves
  · exact exec_serves

end Resolver

/-! ## Whole expressions -/

mutual

def Expr.EachNode (holds : Text → Text → Bound → Exprs → Prop) : Expr → Prop
  | .literal _ => True
  | .call name resolver bound args => holds name resolver bound args ∧ args.EachNode holds

def Exprs.EachNode (holds : Text → Text → Bound → Exprs → Prop) : Exprs → Prop
  | .nil => True
  | .cons _ value rest => value.EachNode holds ∧ rest.EachNode holds

end

section
variable {registry : Registry} {holds : Text → Text → Bound → Exprs → Prop}

mutual

theorem Expr.eachNode_of_ofTerm (binds : registry.Each (Resolver.BindsWith registry holds)) :
    ∀ (term : Term) (expr : Expr), Expr.ofTerm registry term = .ok expr → expr.EachNode holds
  | .literal written, expr, success => by
    cases success
    exact trivial
  | .call name args _ _, expr, success => by
    simp only [Expr.ofTerm] at success
    cases found : registry.get? name with
    | none => simp [found] at success
    | some resolver =>
      simp only [found, bind_eq_ok, Except.ok.injEq] at success
      obtain ⟨exprs, made, bound, bindSuccess, rfl⟩ := success
      exact ⟨binds name resolver found name args exprs bound made bindSuccess,
        Exprs.eachNode_of_ofArgs binds args exprs made⟩

theorem Exprs.eachNode_of_ofArgs (binds : registry.Each (Resolver.BindsWith registry holds)) :
    ∀ (args : Args) (exprs : Exprs), Exprs.ofArgs registry args = .ok exprs → exprs.EachNode holds
  | .nil, exprs, success => by
    cases success
    exact trivial
  | .cons key value rest, exprs, success => by
    simp only [Exprs.ofArgs, bind_eq_ok, Except.ok.injEq] at success
    obtain ⟨first, firstMade, others, othersMade, rfl⟩ := success
    exact ⟨Expr.eachNode_of_ofTerm binds value first firstMade,
      Exprs.eachNode_of_ofArgs binds rest others othersMade⟩

end

end

/-- In an expression that was bound to the library's own functions and those of stores, every call
has the arguments that its function asks for, whatever the scope in which it is evaluated. -/
theorem Expr.each_call_served (stores : List (Text × Nat)) (term : Term) (expr : Expr)
    (success : Expr.ofTerm (.withBuiltins (stores.map fun store => .secret store.1 store.2)) term =
      .ok expr) :
    expr.EachNode Exprs.Serve := by
  refine Expr.eachNode_of_ofTerm ?_ term expr success
  refine Registry.each_withBuiltins _ Resolver.builtins_serve fun resolver member => ?_
  obtain ⟨store, _, rfl⟩ := List.mem_map.mp member
  exact Resolver.secret_serves store.1 store.2

/-- `remap(ref(A), b=ref(vault(c)), d=replace(e, f, eval(g)))`, with a store under `vault`. -/
theorem Expr.each_call_served_nested :
    let bare (c : Char) : Term := .literal (.bare [c])
    let computed := Term.applyNamed "ref" [.applyNamed "vault" [bare 'c']]
    let replaced := Term.applyNamed "replace" [bare 'e', bare 'f', .applyNamed "eval" [bare 'g']]
    let term := Term.call "remap".toList
      (.cons none (.applyNamed "ref" [bare 'A']) (.cons (some ['b']) computed
        (.cons (some ['d']) replaced .nil))) none none
    ∃ expr, Expr.ofTerm (.withBuiltins [.secret "vault".toList 0]) term = .ok expr ∧
      expr.EachNode Exprs.Serve := by
  intro bare computed replaced term
  exact ⟨_, rfl, Expr.each_call_served [("vault".toList, 0)] term _ rfl⟩

end Dotenv
