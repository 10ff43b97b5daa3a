import Dotenv.Proofs.Reading.Settings
/-!
# Arguments read again

A call that was read is read again from its canonical text, in which the gaps between its arguments
are other ones. Two steps lead there: what the reader can make of a text has a form of its own, and
what has that form is read from its canonical text as the same tree. An argument has the form if its
key, its value and what may stand behind it are told apart by the value alone.
-/

set_option autoImplicit false

namespace Dotenv

mutual

def Term.tree : Term → Term
  | .literal written => .literal written
  | .call name args _ _ => .call name args.tree none none

def Args.tree : Args → Args
  | .nil => .nil
  | .cons key value rest => .cons key value.tree rest.tree

end

/-! ## The form of arguments -/

structure Literal.IsArgument (inside : Char → Prop) (literal : Literal) : Prop where
  chars : ∀ c ∈ literal.raw, inside c
  again : ∀ enough, 4 * literal.raw.length + 1 ≤ enough → ∀ other, Scan.FollowsArgument other →
    Scan.argument enough (literal.raw ++ other) = some (.literal literal, other)

/-- Whether an argument is taken apart into its key, or none, and the text of its value. -/
def Scan.Labels (key : Option Text) (body : Text) : Prop :=
  ∀ other, FollowsArgument other →
    argumentKey (Arg.labelled key body ++ other) = (key, body ++ other) ∧
      Text.skipGap (Arg.labelled key body ++ other) = Arg.labelled key body ++ other

mutual

def Term.IsArgument (inside : Char → Prop) : Term → Prop
  | .literal written => written.IsArgument inside
  | .call name args _ _ => Scan.IsName name ∧ args.AreArguments inside

def Args.AreArguments (inside : Char → Prop) : Args → Prop
  | .nil => True
  | .cons key value rest => Scan.Labels key value.canonical ∧ value.IsArgument inside ∧
      rest.AreArguments inside

end

namespace Scan

theorem FollowsArgument.comma (rest : Text) : FollowsArgument (',' :: rest) :=
  ⟨',', rest, Text.skipGap_cons ',' rest rfl, .inl rfl⟩

theorem FollowsArgument.close (rest : Text) : FollowsArgument (')' :: rest) :=
  ⟨')', rest, Text.skipGap_cons ')' rest rfl, .inr rfl⟩

theorem FollowsArgument.notName {text : Text} (follows : FollowsArgument text) :
    ∃ c rest, text = c :: rest ∧ isNameChar c = false ∧ c ≠ '=' := by
  obtain ⟨c, rest, isText, stop⟩ := follows.head
  refine ⟨c, rest, isText, ?_⟩
  rcases stop with isGap | rfl | rfl
  · simp only [Text.isGap, Bool.or_eq_true, beq_iff_eq] at isGap
    rcases isGap with rfl | rfl <;> exact ⟨rfl, by decide⟩
  · exact ⟨rfl, by decide⟩
  · exact ⟨rfl, by decide⟩

/-! ## Keys of arguments -/

theorem IsName.skipGap {name : Text} (isName : IsName name) (rest : Text) :
    Text.skipGap (name ++ rest) = name ++ rest := by
  cases name with
  | nil => cases isName
  | cons c more =>
    refine Text.skipGap_cons c _ (not_isGap_of_isKeyChar c ?_)
    have nameChar := isName.parts.2 c List.mem_cons_self
    simp only [isKeyChar, nameChar, Bool.true_or]

theorem argumentKey_keyed {name : Text} (isName : IsName name) (body : Text) :
    argumentKey (name ++ '=' :: body) = (some name, body) := by
  have named := isName.again ('=' :: body) fun c first => by cases first; rfl
  simp only [argumentKey, named]

theorem argumentKey_eq_some (text name rest : Text)
    (found : argumentKey text = (some name, rest)) : IsName name ∧ text = name ++ '=' :: rest := by
  unfold argumentKey at found
  split at found
  · rename_i other left named
    cases found
    exact ⟨name?_isName text name _ named, (name?_append text name _ named).symm⟩
  · cases found

theorem argumentKey_eq_none (text rest : Text) (found : argumentKey text = (none, rest)) :
    rest = text := by
  unfold argumentKey at found
  split at found <;> cases found
  rfl

theorem Labels.keyed {name : Text} (isName : IsName name) (body : Text) :
    Labels (some name) body := by
  intro other _
  have text : Arg.labelled (some name) body ++ other = name ++ '=' :: (body ++ other) := by
    simp [Arg.labelled]
  rw [text]
  exact ⟨argumentKey_keyed isName _, isName.skipGap _⟩

theorem Labels.call {name : Text} (isName : IsName name) (inner : Text) :
    Labels none (name ++ '(' :: inner) := by
  intro other _
  have named := isName.again ('(' :: (inner ++ other)) fun c first => by cases first; rfl
  have text : Arg.labelled none (name ++ '(' :: inner) ++ other =
      name ++ '(' :: (inner ++ other) := by
    simp [Arg.labelled]
  have same : name ++ '(' :: inner ++ other = name ++ '(' :: (inner ++ other) := by simp
  rw [text, same]
  refine ⟨?_, isName.skipGap _⟩
  rw [argumentKey, named]
  rfl

/-- A value without a key has none wherever it is followed as an argument may be: an equals sign
behind a name would stand in the value. -/
theorem Labels.unkeyed {raw rest : Text} (filled : raw ≠ [])
    (bare : Text.skipGap (raw ++ rest) = raw ++ rest)
    (unkeyed : ∀ key left, argumentKey (raw ++ rest) ≠ (some key, left)) : Labels none raw := by
  intro other follows
  obtain ⟨c, more, rfl, notName, notEquals⟩ := follows.notName
  rw [Arg.labelled]
  constructor
  · cases found : argumentKey (raw ++ c :: more) with
    | mk key left =>
      cases key with
      | none => rw [argumentKey_eq_none _ left found]
      | some key =>
        obtain ⟨isName, whole⟩ := argumentKey_eq_some _ key left found
        -- The name ends in the value or behind it, and an equals sign follows it only in the value.
        rcases List.append_eq_append_iff.mp whole with ⟨inner, rfl, same⟩ | ⟨inner, rfl, same⟩
        · cases inner with
          | nil => exact absurd (List.cons.inj same).1 notEquals
          | cons d inner =>
            obtain ⟨rfl, -⟩ := List.cons.inj same
            have inKey := isName.parts.2 c (by simp)
            rw [notName] at inKey
            cases inKey
        · cases inner with
          | nil => exact absurd (List.cons.inj same).1.symm notEquals
          | cons d inner =>
            obtain ⟨rfl, -⟩ := List.cons.inj same
            refine absurd ?_ (unkeyed key (inner ++ rest))
            have keyed := argumentKey_keyed isName (inner ++ rest)
            simpa using keyed
  · cases raw with
    | nil => exact absurd rfl filled
    | cons d raw => exact Text.skipGap_cons d _ (Text.solid_of_skipGap _ d _ bare)

/-! ## What is read has the form -/

theorem argument_call (fuel : Nat) (text name : Text) (args : Args)
    (argsSource source : Option Text) (rest : Text)
    (found : argument fuel text = some (.call name args argsSource source, rest)) :
    ∃ less, fuel = less + 1 ∧ call less text = some (.call name args argsSource source, rest) := by
  cases fuel with
  | zero =>
    simp only [argument] at found
    cases found
  | succ fuel =>
    refine ⟨fuel, rfl, ?_⟩
    simp only [argument] at found
    split at found
    · obtain ⟨_, -, same⟩ := Option.map_eq_some_iff.mp found
      cases same
    · split at found
      · rename_i called
        cases found
        exact called
      · obtain ⟨_, -, same⟩ := Option.map_eq_some_iff.mp found
        cases same

theorem argument_literal (inside : Char → Prop) (fuel : Nat) (text : Text) (literal : Literal)
    (rest : Text) (chars : ∀ c ∈ text, inside c)
    (found : argument fuel text = some (.literal literal, rest)) :
    literal.raw ≠ [] ∧ literal.IsArgument inside := by
  have written := argument_append fuel text _ rest found
  obtain ⟨filled, again⟩ := argument_front fuel text _ rest found
  simp only [Term.render] at written filled again
  refine ⟨filled, fun c member => chars c ?_, again⟩
  rw [← written]
  exact List.mem_append_left rest member

theorem labels_of_read (inside : Char → Prop) {fuel : Nat} {text rest : Text} {value : Term}
    (bare : Text.skipGap text = text)
    (read : argument fuel (argumentKey text).2 = some (value, rest))
    (form : value.IsArgument inside) : Labels (argumentKey text).1 value.canonical := by
  cases found : argumentKey text with
  | mk key body =>
    cases key with
    | some name => exact .keyed (argumentKey_eq_some text name body found).1 _
    | none =>
      obtain rfl := argumentKey_eq_none text body found
      rw [found] at read
      cases value with
      | call name args argsSource source =>
        obtain ⟨isName, -⟩ := form
        have opened := Labels.call isName (Text.join [',', ' '] args.canonicalEach ++ [')'])
        simpa only [Term.canonical, List.append_assoc, List.cons_append] using opened
      | literal literal =>
        have written := argument_append fuel body _ rest read
        have filled := (argument_front fuel body _ rest read).1
        simp only [Term.render, Term.canonical] at written filled ⊢
        subst written
        refine .unkeyed filled bare fun key left keyed => ?_
        rw [found] at keyed
        cases keyed

section
variable {inside : Char → Prop}

mutual

theorem call_isArgument :
    ∀ (fuel : Nat) (text : Text) (term : Term) (rest : Text), (∀ c ∈ text, inside c) →
      call fuel text = some (term, rest) → term.IsArgument inside
  | 0, text, term, rest, _, found => by
    simp only [call] at found
    cases found
  | fuel + 1, text, term, rest, chars, found => by
    simp only [call] at found
    split at found
    · rename_i name afterName named
      split at found
      · rename_i args after inner
        cases found
        have whole := name?_append text name _ named
        refine ⟨name?_isName text name _ named,
          arguments_areArguments fuel afterName args rest (fun c member => chars c ?_) inner⟩
        rw [← whole]
        simp [member]
      · cases found
    · cases found

theorem arguments_areArguments :
    ∀ (fuel : Nat) (text : Text) (args : Args) (rest : Text), (∀ c ∈ text, inside c) →
      arguments fuel text = some (args, rest) → args.AreArguments inside
  | 0, text, args, rest, _, found => by
    simp only [arguments] at found
    cases found
  | fuel + 1, text, args, rest, chars, found => by
    simp only [arguments] at found
    split at found
    · cases found
      trivial
    · exact moreArguments_areArguments fuel _ args rest
        (fun c member => chars c ((Text.skipGap_suffix text).subset member))
        (Text.skipGap_skipGap text) found

theorem moreArguments_areArguments :
    ∀ (fuel : Nat) (text : Text) (args : Args) (rest : Text), (∀ c ∈ text, inside c) →
      Text.skipGap text = text → moreArguments fuel text = some (args, rest) →
        args.AreArguments inside
  | 0, text, args, rest, _, _, found => by
    simp only [moreArguments] at found
    cases found
  | fuel + 1, text, args, rest, chars, bare, found => by
    simp only [moreArguments] at found
    split at found
    · cases found
    · rename_i value after first
      have inBody := (argumentKey_suffix text).subset
      have form := argument_isArgument fuel _ value after
        (fun c member => chars c (inBody member)) first
      have labels := labels_of_read inside bare first form
      have inAfter : ∀ c ∈ after, c ∈ text := by
        intro c member
        refine inBody ?_
        rw [← argument_append fuel _ value after first]
        exact List.mem_append_right _ member
      split at found
      · rename_i beyond comma
        split at found
        · rename_i more final others
          cases found
          refine ⟨labels, form, moreArguments_areArguments fuel _ more rest
            (fun c member => chars c (inAfter c ?_)) (Text.skipGap_skipGap beyond) others⟩
          refine (Text.skipGap_suffix after).subset ?_
          rw [comma]
          exact List.mem_cons_of_mem _ ((Text.skipGap_suffix beyond).subset member)
        · cases found
      · cases found
        exact ⟨labels, form, trivial⟩
      · cases found

theorem argument_isArgument :
    ∀ (fuel : Nat) (text : Text) (value : Term) (rest : Text), (∀ c ∈ text, inside c) →
      argument fuel text = some (value, rest) → value.IsArgument inside
  | 0, text, value, rest, _, found => by
    simp only [argument] at found
    cases found
  | fuel + 1, text, .literal literal, rest, chars, found =>
    (argument_literal inside (fuel + 1) text literal rest chars found).2
  | fuel + 1, text, .call name args argsSource source, rest, chars, found => by
    obtain ⟨_, same, called⟩ := argument_call (fuel + 1) text name args argsSource source rest found
    cases same
    exact call_isArgument fuel text _ rest chars called

end

end

end Scan

/-! ## What has the form is read again -/

def Args.inner (args : Args) : Text := Text.join [',', ' '] args.canonicalEach

def Term.Rereads (term : Term) : Prop :=
  ∀ enough, 4 * term.canonical.length + 1 ≤ enough → ∀ other, Scan.FollowsArgument other →
    ∃ again, Scan.argument enough (term.canonical ++ other) = some (again, other) ∧
      again.tree = term.tree

/-- Whether arguments, if there are any, are read from their canonical text with the same tree. -/
def Args.Reread (args : Args) : Prop :=
  args ≠ .nil → ∀ enough, 4 * args.inner.length + 6 ≤ enough → ∀ other,
    ∃ again, Scan.moreArguments enough (args.inner ++ ')' :: other) = some (again, other) ∧
      again.tree = args.tree

theorem Term.canonical_call (name : Text) (args : Args) (argsSource source : Option Text) :
    (call name args argsSource source).canonical = name ++ '(' :: (args.inner ++ [')']) := by
  simp only [canonical, Args.inner, List.append_assoc, List.cons_append]

namespace Args

theorem inner_last (key : Option Text) (value : Term) :
    (cons key value nil).inner = Arg.labelled key value.canonical := by
  simp only [inner, canonicalEach, Text.join]

theorem inner_more (key : Option Text) (value : Term) {rest : Args} (filled : rest ≠ nil) :
    (cons key value rest).inner =
      Arg.labelled key value.canonical ++ ',' :: ' ' :: rest.inner := by
  cases rest with
  | nil => exact absurd rfl filled
  | cons other next more =>
    simp only [inner, canonicalEach, Text.join, List.append_assoc, List.cons_append,
      List.nil_append]

end Args

theorem Arg.length_labelled (key : Option Text) (body : Text) :
    body.length ≤ (labelled key body).length := by
  cases key with
  | none => exact Nat.le_refl _
  | some name =>
    simp only [labelled, List.length_append, List.length_cons]
    omega

namespace Scan

section
variable {key : Option Text} {body : Text} (labels : Labels key body) {fuel : Nat} {value : Term}
  {other : Text}

include labels in
theorem moreArguments_last
    (first : argument fuel (body ++ ')' :: other) = some (value, ')' :: other)) :
    moreArguments (fuel + 1) (Arg.labelled key body ++ ')' :: other) =
      some (.cons key value .nil, other) := by
  have follows := FollowsArgument.close other
  simp only [moreArguments, (labels _ follows).1, first, Text.skipGap_cons ')' other rfl]

include labels in
theorem moreArguments_more {text : Text} {rest : Args} (bare : Text.skipGap text = text)
    (first : argument fuel (body ++ ',' :: ' ' :: text) = some (value, ',' :: ' ' :: text))
    (others : moreArguments fuel text = some (rest, other)) :
    moreArguments (fuel + 1) (Arg.labelled key body ++ ',' :: ' ' :: text) =
      some (.cons key value rest, other) := by
  have follows := FollowsArgument.comma (' ' :: text)
  have gap : Text.skipGap (' ' :: text) = text := bare
  simp only [moreArguments, (labels _ follows).1, first, Text.skipGap_cons ',' _ rfl, gap, others]

end

theorem moreArguments_close (fuel : Nat) (rest : Text) :
    moreArguments fuel (')' :: rest) = none := by
  have noKey : argumentKey (')' :: rest) = (none, ')' :: rest) := rfl
  have noCall : ∀ less, call less (')' :: rest) = none := by
    intro less
    cases less with
    | zero => simp only [call]
    | succ less => simp [call, name?, startsName, isNameStart]
  have noBare : bareArgument (')' :: rest) = none := by
    simp [bareArgument, bareLiteral, Text.before, endsArgument, Literal.bare, Text.dropEndWhile]
  cases fuel with
  | zero => simp only [moreArguments]
  | succ fuel =>
    cases fuel with
    | zero => simp only [moreArguments, argument]
    | succ fuel =>
      have noMark : (')' :: rest).head?.bind Quote.ofMark? = none := rfl
      simp only [moreArguments, noKey, argument, noMark, noCall, noBare, Option.map_none]

end Scan

section
variable {inside : Char → Prop}

theorem Args.AreArguments.bare {args : Args} (form : args.AreArguments inside)
    (filled : args ≠ .nil) (other : Text) :
    Text.skipGap (args.inner ++ ')' :: other) = args.inner ++ ')' :: other := by
  cases args with
  | nil => exact absurd rfl filled
  | cons key value rest =>
    obtain ⟨labels, -, -⟩ := form
    by_cases last : rest = .nil
    · subst last
      rw [inner_last]
      exact (labels _ (.close other)).2
    · rw [inner_more key value last, List.append_assoc]
      exact (labels _ (.comma _)).2

theorem Args.Reread.arguments {args : Args} (reread : args.Reread)
    (form : args.AreArguments inside) (enough : Nat) (long : 4 * args.inner.length + 7 ≤ enough)
    (other : Text) :
    ∃ again, Scan.arguments enough (args.inner ++ ')' :: other) = some (again, other) ∧
      again.tree = args.tree := by
  obtain ⟨less, rfl⟩ : ∃ less, enough = less + 1 := ⟨enough - 1, by omega⟩
  by_cases empty : args = .nil
  · subst empty
    refine ⟨.nil, ?_, rfl⟩
    have close := Text.skipGap_cons ')' other rfl
    simp only [inner, canonicalEach, Text.join, List.nil_append, Scan.arguments, close]
  · obtain ⟨again, read, sameTree⟩ := reread empty less (by omega) other
    refine ⟨again, ?_, sameTree⟩
    have bare := form.bare empty other
    refine Scan.arguments_of_more less [] args.inner other again bare (fun more same => ?_) read
    rw [same, Scan.moreArguments_close] at read
    cases read

theorem Args.Reread.call {name : Text} {args : Args} (reread : args.Reread)
    (isName : Scan.IsName name) (form : args.AreArguments inside) (argsSource source : Option Text)
    (enough : Nat)
    (long : 4 * (Term.call name args argsSource source).canonical.length ≤ enough) (other : Text) :
    ∃ again list text,
      Scan.call enough ((Term.call name args argsSource source).canonical ++ other) =
        some (.call name again list text, other) ∧ again.tree = args.tree := by
  rw [Term.canonical_call] at long ⊢
  simp only [List.length_append, List.length_cons, List.length_nil] at long
  obtain ⟨less, rfl⟩ : ∃ less, enough = less + 1 := ⟨enough - 1, by omega⟩
  obtain ⟨again, read, sameTree⟩ := reread.arguments form less (by
    have filled := List.length_pos_iff.mpr isName.ne_nil
    omega) other
  have named := isName.again ('(' :: (args.inner ++ ')' :: other)) fun c first => by
    cases first
    rfl
  have called := Scan.call_of_arguments less name args.inner other again named read
  have whole : name ++ '(' :: (args.inner ++ [')']) ++ other =
      name ++ '(' :: (args.inner ++ ')' :: other) := by simp
  rw [whole]
  exact ⟨again, _, _, called, sameTree⟩

mutual

theorem Term.rereads : ∀ term : Term, term.IsArgument inside → term.Rereads
  | .literal literal, form => by
    intro enough long other follows
    simp only [Term.canonical] at long ⊢
    exact ⟨.literal literal, form.again enough long other follows, rfl⟩
  | .call name args argsSource source, form => by
    intro enough long other _
    obtain ⟨isName, argsForm⟩ := form
    obtain ⟨less, rfl⟩ : ∃ less, enough = less + 1 := ⟨enough - 1, by omega⟩
    obtain ⟨again, list, text, called, sameTree⟩ := (Args.reread args argsForm).call isName argsForm
      argsSource source less (by omega) other
    refine ⟨.call name again list text, ?_, by simp only [Term.tree, sameTree]⟩
    have unquoted : ((Term.call name args argsSource source).canonical ++ other).head?.bind
        Quote.ofMark? = none := by
      rw [Term.canonical_call, List.append_assoc]
      exact Scan.unquoted_of_startsName _
        ((Scan.startsName_append name _ isName.ne_nil).trans isName.parts.1)
    simp only [Scan.argument, unquoted, called]

theorem Args.reread : ∀ args : Args, args.AreArguments inside → args.Reread
  | .nil, _ => fun filled => absurd rfl filled
  | .cons key value rest, form => by
    intro _ enough long other
    obtain ⟨labels, valueForm, restForm⟩ := form
    have valueReads := Term.rereads value valueForm
    have restReads := Args.reread rest restForm
    have shorter := Arg.length_labelled key value.canonical
    obtain ⟨less, rfl⟩ : ∃ less, enough = less + 1 := ⟨enough - 1, by omega⟩
    by_cases last : rest = .nil
    · subst last
      rw [Args.inner_last] at long ⊢
      obtain ⟨first, read, sameTree⟩ := valueReads less (by omega) _ (.close other)
      refine ⟨.cons key first .nil, Scan.moreArguments_last labels read, ?_⟩
      simp only [Args.tree, sameTree]
    · rw [Args.inner_more key value last] at long ⊢
      simp only [List.length_append, List.length_cons] at long
      obtain ⟨first, read, sameTree⟩ := valueReads less (by omega) _
        (.comma (' ' :: (rest.inner ++ ')' :: other)))
      obtain ⟨others, readRest, sameRest⟩ := restReads last less (by omega) other
      refine ⟨.cons key first others, ?_, by simp only [Args.tree, sameTree, sameRest]⟩
      have whole := Scan.moreArguments_more labels (restForm.bare last other) read readRest
      simpa using whole

end

end

/-! ## One line -/

theorem Scan.IsName.not_newline {name : Text} (isName : Scan.IsName name) : '\n' ∉ name := by
  intro member
  cases isName.parts.2 _ member

theorem Scan.Labels.isName {name body : Text} (labels : Labels (some name) body) : IsName name :=
  (argumentKey_eq_some _ name _ (labels [')'] (.close [])).1).1

theorem Scan.Labels.not_newline {key : Option Text} {body : Text} (labels : Labels key body)
    (isLine : '\n' ∉ body) : '\n' ∉ Arg.labelled key body := by
  cases key with
  | none => exact isLine
  | some name =>
    have notEquals : '\n' ≠ '=' := by decide
    simp [Arg.labelled, labels.isName.not_newline, notEquals, isLine]

mutual

theorem Term.not_newline : ∀ term : Term, term.IsArgument (· ≠ '\n') → '\n' ∉ term.canonical
  | .literal literal, form => by
    simp only [Term.canonical]
    exact fun member => form.chars _ member rfl
  | .call name args argsSource source, form => by
    obtain ⟨isName, argsForm⟩ := form
    rw [Term.canonical_call]
    simp [isName.not_newline, Args.not_newline args argsForm]

theorem Args.not_newline : ∀ args : Args, args.AreArguments (· ≠ '\n') → '\n' ∉ args.inner
  | .nil, _ => by simp [Args.inner, Args.canonicalEach, Text.join]
  | .cons key value rest, form => by
    obtain ⟨labels, valueForm, restForm⟩ := form
    have first := labels.not_newline (Term.not_newline value valueForm)
    by_cases last : rest = .nil
    · subst last
      rwa [Args.inner_last]
    · rw [Args.inner_more key value last]
      simp [first, Args.not_newline rest restForm]

end

end Dotenv
