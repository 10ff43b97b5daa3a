import Dotenv.Proofs.Resolution.Written
import Dotenv.Proofs.Template.Evaluation
/-!
# References in braces

A value that is written as a name in braces is a reference to the key of that name, and nothing
else. A name in braces goes on with letters, digits, underscores and points, so a key with a hyphen
in it has no such reference: what follows the hyphen is a default.
-/

set_option autoImplicit false

namespace Dotenv

structure Text.IsReferable (name : Text) : Prop where
  starts : Scan.startsName name = true
  goesOn : ∀ c ∈ name, Template.isBracedChar c = true

def Text.braced (name : Text) : Text := '$' :: '{' :: (name ++ ['}'])

theorem Text.IsReferable.ne_nil {name : Text} (referable : name.IsReferable) : name ≠ [] := by
  rintro rfl
  cases referable.starts

theorem Text.IsReferable.not_mem {name : Text} (referable : name.IsReferable) (c : Char)
    (foreign : Template.isBracedChar c = false) : c ∉ name := by
  intro member
  rw [referable.goesOn c member] at foreign
  cases foreign

namespace Template

theorem bracedName?_append (name rest : Text) (referable : name.IsReferable)
    (ends : ∀ c ∈ rest.head?, isBracedChar c = false) :
    bracedName? (name ++ rest) = some (name, rest) := by
  have starts : Scan.startsName (name ++ rest) = true := by
    cases name with
    | nil => exact absurd rfl referable.ne_nil
    | cons c more => exact referable.starts
  have takes : rest.takeWhile isBracedChar = [] ∧ rest.dropWhile isBracedChar = rest := by
    cases rest with
    | nil => exact ⟨rfl, rfl⟩
    | cons c more =>
      have stops := Bool.eq_false_iff.mp (ends c rfl)
      exact ⟨List.takeWhile_cons_of_neg stops, List.dropWhile_cons_of_neg stops⟩
  rw [bracedName?, if_pos starts, List.takeWhile_append_of_pos referable.goesOn,
    List.dropWhile_append_of_pos referable.goesOn, takes.1, takes.2, List.append_nil]

theorem bracedName?_closed (name rest : Text) (referable : name.IsReferable) :
    bracedName? (name ++ '}' :: rest) = some (name, '}' :: rest) := by
  refine bracedName?_append name _ referable fun c isHead => ?_
  cases isHead
  decide

theorem splitCommands_of_not_mem (fuel : Nat) (text : Text) (enough : text.length ≤ fuel)
    (absent : '$' ∉ text) : splitCommands fuel text = (text, []) := by
  induction text generalizing fuel with
  | nil => cases fuel <;> rfl
  | cons c rest ih =>
    obtain ⟨fuel, rfl⟩ : ∃ less, fuel = less + 1 :=
      Nat.exists_eq_add_one.mpr (Nat.lt_of_lt_of_le (Nat.zero_lt_succ _) enough)
    have plain : c ≠ '$' := fun same => absent (same ▸ List.mem_cons_self)
    have rest := ih fuel (Nat.le_of_succ_le_succ enough)
      fun member => absent (List.mem_cons_of_mem c member)
    simp only [splitCommands, if_neg plain, rest]

theorem ofText_braced (bare : Bool) (name : Text) (referable : name.IsReferable) :
    ofText bare name.braced = .reference name .nil := by
  have absent : '$' ∉ '{' :: (name ++ ['}']) := by
    have inName := referable.not_mem '$' (by decide)
    simp [inName]
  have split : splitCommands name.braced.length name.braced = (name.braced, []) := by
    have noScript : script? ('{' :: (name ++ ['}'])) = none := rfl
    have rest := splitCommands_of_not_mem _ _ (Nat.le_refl _) absent
    rw [Text.braced, List.length_cons, splitCommands]
    simp only [if_true, noScript, rest]
  have form : form? bare ('{' :: (name ++ ['}'])) = some (.reference name []) := by
    simp only [form?, braced?, bracedName?_closed name [] referable]
  rw [ofText, split]
  simp only [ofPlain, Text.braced, List.length_cons, substitutions, if_true, form, ofCommands]
  cases (name ++ ['}']).length <;> rfl

end Template

theorem Text.isPlain_braced (name : Text) (referable : name.IsReferable) :
    name.braced.IsPlain := by
  constructor
  · exact List.cons_ne_nil _ _
  · have front : trimStart name.braced = name.braced := rfl
    have back : trimEnd name.braced = name.braced := by
      simp only [trimEnd, dropEndWhile, braced, List.reverse_cons, List.reverse_append,
        List.reverse_nil, List.nil_append, List.cons_append]
      rw [List.dropWhile_cons_of_neg (by decide)]
      simp
    rw [trim, front, back]
  · have inName := referable.not_mem '#' (by decide)
    simp [braced, inName]
  · intro same
    cases congrArg List.head? same

theorem Literal.scalar_braced (name : Text) (referable : name.IsReferable) :
    (Literal.bare name.braced).scalar = .text name.braced := by
  rw [Literal.scalar_bare (Text.isPlain_braced name referable)]
  rcases Scalar.ofBare_cases _ (Text.isPlain_braced name referable) with text | ⟨word, -⟩ |
    ⟨word, -⟩ | ⟨_, -, numeric, -⟩
  · exact text
  · cases congrArg List.head? word
  · cases congrArg List.head? word
  · simp [Scalar.isNumeric, Text.braced] at numeric

structure Literal.RefersTo (literal : Literal) (name : Text) : Prop where
  referable : name.IsReferable
  isOpen : literal.isVerbatim = false
  scalar : literal.scalar = .text name.braced

theorem Literal.refersTo_bare (name : Text) (referable : name.IsReferable) :
    (bare name.braced).RefersTo name :=
  ⟨referable, rfl, scalar_braced name referable⟩

theorem Term.expand_refersTo (bare : Bool) (literal : Literal) (name : Text)
    (refers : literal.RefersTo name) :
    (Term.literal literal).expand bare = (Term.reference name).withSource literal.raw := by
  simp only [Term.expand, Literal.expand?, refers.isOpen, refers.scalar,
    Template.ofText_braced bare name refers.referable, Template.terms]
  rfl

def Expr.reference (key : Text) : Expr :=
  .call "ref".toList "ref".toList (Resolver.refTo key) (.cons none (.literal (.text key)) .nil)

theorem Expr.dependencies_reference (key : Text) : (reference key).dependencies = some [key] := rfl

theorem Expr.evaluate_reference (key : Text) (scope : Scope) :
    (reference key).evaluate scope = Resolver.lookUp scope key := by
  rw [reference, evaluate]
  rfl

theorem Expr.ofTerm_refersTo (registry : Registry)
    (isRef : registry.get? "ref".toList = some .ref) (bare : Bool) (literal : Literal)
    (name : Text) (refers : literal.RefersTo name) :
    ofTerm registry ((Term.literal literal).expand bare) = .ok (.reference name) := by
  have argument : Exprs.ofArgs registry (.positional [Term.text name .double]) =
      .ok (.cons none (.literal (.text name)) .nil) := by
    have unfolded : Args.positional [Term.text name .double] =
        .cons none (Term.text name .double) .nil := rfl
    rw [unfolded]
    simp only [Exprs.ofArgs, Term.text, ofTerm, Literal.scalar_quoted, Value.ofScalar]
    rfl
  rw [Term.expand_refersTo bare literal name refers]
  simp only [Term.reference, Term.applyNamed, Term.apply, Term.withSource, ofTerm, isRef,
    argument, Resolver.bind_ref name refers.referable.ne_nil]
  rfl

end Dotenv
