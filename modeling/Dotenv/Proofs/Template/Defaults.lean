import Dotenv.Proofs.Reading.Arguments
import Dotenv.Proofs.Value.Plain
/-!
# Defaults

What stands in the place of a value that is missing is a text with substitutions of its own, to any
depth. The brace that ends it is found by counting, and then it is expanded as it would be alone.
Commands are the exception: they are split off before any brace is looked for, so that a command in
a default leaves the braces around it open.
-/

set_option autoImplicit false

namespace Dotenv

inductive Text.IsNested : Text → Prop
  | nil : IsNested []
  | plain {c : Char} {rest : Text} (noEnd : c ≠ '}')
      (noOpening : ¬ (c = '$' ∧ rest.head? = some '{')) (nested : rest.IsNested) :
      IsNested (c :: rest)
  | braces {inner rest : Text} (inside : inner.IsNested) (nested : rest.IsNested) :
      IsNested ('$' :: '{' :: (inner ++ '}' :: rest))

/-- A text with a complete command in it: `$(`, a script and the first `)` after it. -/
def Text.HoldsCommand (text : Text) : Prop :=
  ∃ front script after, text = front ++ '$' :: '(' :: (script ++ ')' :: after) ∧ script ≠ [] ∧
    ')' ∉ script

def DefaultRule.sign : DefaultRule → Text
  | whenEmpty => [':', '-']
  | whenUndefined => ['-']

def Text.defaulted (name : Text) (rule : DefaultRule) (default : Text) : Text :=
  '$' :: '{' :: (name ++ (rule.sign ++ (default ++ ['}'])))

namespace Text

theorem isNested_of_noBrace (text : Text) (noOpening : '{' ∉ text) (noEnd : '}' ∉ text) :
    text.IsNested := by
  induction text with
  | nil => exact .nil
  | cons c rest ih =>
    rw [List.mem_cons, not_or] at noOpening noEnd
    refine .plain (Ne.symm noEnd.1) (fun opens => ?_) (ih noOpening.2 noEnd.2)
    exact noOpening.2 (List.mem_of_mem_head? opens.2)

/-! ## Commands in a text -/

theorem holdsCommand_cons (c : Char) (rest : Text) :
    HoldsCommand (c :: rest) ↔
      (∃ script after, c :: rest = '$' :: '(' :: (script ++ ')' :: after) ∧ script ≠ [] ∧
        ')' ∉ script) ∨ HoldsCommand rest := by
  constructor
  · rintro ⟨front, script, after, isText, filled, closes⟩
    cases front with
    | nil => exact .inl ⟨script, after, isText, filled, closes⟩
    | cons first more =>
      obtain ⟨-, isRest⟩ := List.cons.inj isText
      exact .inr ⟨more, script, after, isRest, filled, closes⟩
  · rintro (⟨script, after, isText, filled, closes⟩ | ⟨front, script, after, rfl, filled, closes⟩)
    · exact ⟨[], script, after, isText, filled, closes⟩
    · exact ⟨c :: front, script, after, rfl, filled, closes⟩

theorem holdsCommand_append (front rest : Text) (absent : '$' ∉ front) :
    HoldsCommand (front ++ rest) ↔ HoldsCommand rest := by
  induction front with
  | nil => exact Iff.rfl
  | cons c more ih =>
    rw [List.mem_cons, not_or] at absent
    rw [List.cons_append, holdsCommand_cons, ih absent.2]
    refine or_iff_right ?_
    rintro ⟨script, after, isText, -⟩
    exact absent.1 (List.cons.inj isText).1.symm

theorem holdsCommand_concat (text : Text) (c : Char) (other : c ≠ ')') :
    HoldsCommand (text ++ [c]) ↔ HoldsCommand text := by
  constructor
  · rintro ⟨front, script, after, isText, filled, closes⟩
    rcases List.eq_nil_or_concat after with rfl | ⟨inner, last, rfl⟩
    · have ends : text ++ [c] = front ++ '$' :: '(' :: script ++ [')'] := by simpa using isText
      exact absurd (List.cons.inj (List.append_inj' ends rfl).2).1 other
    · have ends : text ++ [c] = front ++ '$' :: '(' :: (script ++ ')' :: inner) ++ [last] := by
        simpa using isText
      exact ⟨front, script, inner, (List.append_inj' ends rfl).1, filled, closes⟩
  · rintro ⟨front, script, after, rfl, filled, closes⟩
    exact ⟨front, script, after ++ [c], by simp, filled, closes⟩

theorem holdsCommand_defaulted (name : Text) (rule : DefaultRule) (default : Text)
    (referable : name.IsReferable) :
    (defaulted name rule default).HoldsCommand ↔ default.HoldsCommand := by
  have absent : '$' ∉ '{' :: (name ++ rule.sign) := by
    have inName := referable.not_mem '$' (by decide)
    cases rule <;> simp [inName, DefaultRule.sign]
  have split : defaulted name rule default =
      '$' :: ('{' :: (name ++ rule.sign) ++ (default ++ ['}'])) := by
    simp [defaulted]
  rw [split, holdsCommand_cons, holdsCommand_append _ _ absent,
    holdsCommand_concat default '}' (by decide)]
  refine or_iff_right ?_
  rintro ⟨script, after, isText, -⟩
  have brace := (List.cons.inj (List.cons.inj isText).2).1
  exact absurd brace (by decide)

end Text

namespace Direct

theorem script?_eq_some_iff (text script after : Text) :
    script? text = some (script, after) ↔
      text = '$' :: '(' :: (script ++ ')' :: after) ∧ script ≠ [] ∧ ')' ∉ script := by
  constructor
  · intro found
    unfold script? at found
    split at found
    · rename_i body
      split at found
      · rename_i c more rest takes drops
        cases found
        refine ⟨?_, List.cons_ne_nil _ _, fun member => ?_⟩
        · rw [← takes, ← drops, List.takeWhile_append_dropWhile]
        · rw [← takes] at member
          simpa using List.mem_takeWhile_imp member
      · cases found
    · cases found
  · rintro ⟨rfl, filled, closes⟩
    have inside : ∀ c ∈ script, decide (c ≠ ')') = true := by
      intro c member
      refine decide_eq_true ?_
      rintro rfl
      exact closes member
    have takes : (script ++ ')' :: after).takeWhile (· ≠ ')') = script := by
      rw [List.takeWhile_append_of_pos inside]
      simp
    have drops : (script ++ ')' :: after).dropWhile (· ≠ ')') = ')' :: after := by
      rw [List.dropWhile_append_of_pos inside]
      simp
    obtain ⟨c, more, rfl⟩ := List.exists_cons_of_ne_nil filled
    rw [script?, takes, drops]
    rfl

theorem command?_eq_none_iff (text : Text) : command? text = none ↔ ¬ text.HoldsCommand := by
  induction text with
  | nil =>
    refine iff_of_true rfl ?_
    rintro ⟨front, script, after, isText, -⟩
    simp at isText
  | cons c rest ih =>
    have starts : (∃ script after, c :: rest = '$' :: '(' :: (script ++ ')' :: after) ∧
        script ≠ [] ∧ ')' ∉ script) ↔ script? (c :: rest) ≠ none := by
      rw [Option.ne_none_iff_exists']
      constructor
      · rintro ⟨script, after, isScript⟩
        exact ⟨(script, after), (script?_eq_some_iff _ _ _).mpr isScript⟩
      · rintro ⟨⟨script, after⟩, found⟩
        exact ⟨script, after, (script?_eq_some_iff _ _ _).mp found⟩
    rw [Text.holdsCommand_cons, starts, not_or, not_not, ← ih, command?]
    cases script? (c :: rest) with
    | none => simp
    | some found => simp

end Direct

/-! ## The brace that ends a default -/

namespace Template

theorem closeBrace_plain (depth : Nat) (c : Char) (rest : Text) (noEnd : c ≠ '}')
    (noOpening : ¬ (c = '$' ∧ rest.head? = some '{')) :
    closeBrace depth (c :: rest) = closeBrace depth rest := by
  rw [closeBrace.eq_def]
  split <;> simp_all

theorem closeBrace_nested {text : Text} (nested : text.IsNested) (depth : Nat) (rest : Text)
    (noOpening : rest.head? ≠ some '{') :
    closeBrace depth (text ++ rest) = closeBrace depth rest := by
  induction nested generalizing depth rest with
  | nil => rfl
  | @plain c more noEnd opensNone _ ih =>
    have head : ¬ (c = '$' ∧ (more ++ rest).head? = some '{') := by
      rintro ⟨dollar, isHead⟩
      cases more with
      | nil => exact noOpening isHead
      | cons d others => exact opensNone ⟨dollar, isHead⟩
    rw [List.cons_append, closeBrace_plain depth c _ noEnd head, ih depth rest noOpening]
  | @braces inner more _ _ insideIh restIh =>
    have inside := insideIh (depth + 1) ('}' :: (more ++ rest)) (by simp)
    rw [List.cons_append, List.cons_append, List.append_assoc, List.cons_append, closeBrace, inside,
      closeBrace, restIh depth rest noOpening]

theorem defaultRule?_sign (rule : DefaultRule) (rest : Text) :
    defaultRule? (rule.sign ++ rest) = some (rule, rest) := by
  cases rule <;> rfl

theorem form?_defaulted (bare : Bool) (name : Text) (rule : DefaultRule) (default : Text)
    (referable : name.IsReferable) (nested : default.IsNested) :
    form? bare ('{' :: (name ++ (rule.sign ++ (default ++ ['}'])))) =
      some (.default rule name default []) := by
  have named : bracedName? (name ++ (rule.sign ++ (default ++ ['}']))) =
      some (name, rule.sign ++ (default ++ ['}'])) := by
    refine bracedName?_append name _ referable fun c isHead => ?_
    cases rule <;> cases isHead <;> decide
  have closed : closeBrace 0 (default ++ ['}']) = some ['}'] := by
    rw [closeBrace_nested nested 0 ['}'] (by simp), closeBrace]
  have inside : Text.before ['}'] (default ++ ['}']) = default := by
    simp [Text.before]
  have notEnded : ∀ rest, rule.sign ++ (default ++ ['}']) ≠ '}' :: rest := by
    intro rest same
    cases rule <;> cases congrArg List.head? same
  rw [form?, braced?, named]
  dsimp only
  split
  · rename_i rest same
    exact absurd same (notEnded rest)
  · simp only [defaultRule?_sign, closed, inside, List.drop_succ_cons, List.drop_nil]

/-! ## Templates of defaults -/

theorem substitutions_succ (bare : Bool) (fuel : Nat) (text : Text) (enough : text.length ≤ fuel) :
    substitutions bare (fuel + 1) text = substitutions bare fuel text := by
  induction fuel generalizing text with
  | zero =>
    rw [List.length_eq_zero_iff.mp (Nat.le_zero.mp enough)]
    rfl
  | succ fuel ih =>
    cases text with
    | nil => rfl
    | cons c rest =>
      have restEnough : rest.length ≤ fuel := Nat.le_of_succ_le_succ enough
      rw [substitutions, substitutions, ih rest restEnough]
      cases found : form? bare rest with
      | none => rfl
      | some form =>
        have shorter := form?_length bare rest form found
        cases form with
        | reference name after =>
          have afterShorter := shorter after List.mem_cons_self
          simp only [ih after (by omega)]
        | default rule name instead after =>
          have insteadShorter := shorter instead List.mem_cons_self
          have afterShorter := shorter after (by simp [Form.direct, Direct.Form.parts])
          simp only [ih instead (by omega), ih after (by omega)]

theorem substitutions_eq (bare : Bool) (fuel : Nat) (text : Text) (enough : text.length ≤ fuel) :
    substitutions bare fuel text = ofPlain bare text := by
  induction fuel, enough using Nat.le_induction with
  | base => rfl
  | succ fuel enough ih => rw [substitutions_succ bare fuel text enough, ih]

theorem ofPlain_ne_nil (bare : Bool) (c : Char) (rest : Text) : ofPlain bare (c :: rest) ≠ nil := by
  have push_ne_nil : ∀ template, push c template ≠ nil := by
    intro template
    cases template <;> exact Template.noConfusion
  rw [ofPlain, List.length_cons, substitutions]
  split
  · split
    · exact Template.noConfusion
    · exact Template.noConfusion
    · exact push_ne_nil _
  · exact push_ne_nil _

theorem append_nil (template : Template) : template.append nil = template := by
  induction template with
  | nil => rfl
  | plain text rest ih => rw [append, ih]
  | command script rest ih => rw [append, ih]
  | reference name rest ih => rw [append, ih]
  | default rule name instead rest _ ih => rw [append, ih]

theorem terms_append (quote : Quote) (front back : Template) :
    (front.append back).terms quote = front.terms quote ++ back.terms quote := by
  induction front with
  | nil => rfl
  | plain text rest ih => rw [append, terms, terms, ih, List.cons_append]
  | command script rest ih => rw [append, terms, terms, ih, List.cons_append]
  | reference name rest ih => rw [append, terms, terms, ih, List.cons_append]
  | default rule name instead rest _ ih => rw [append, terms, terms, ih, List.cons_append]

theorem ofText_of_noCommand (bare : Bool) (text : Text) (noCommand : ¬ text.HoldsCommand) :
    ofText bare text = ofPlain bare text := by
  have none := (Direct.command?_eq_none_iff text).mpr noCommand
  rw [ofText, splitCommands_eq text.length text (Nat.le_refl _), none]
  exact append_nil _

theorem ofPlain_defaulted (bare : Bool) (name : Text) (rule : DefaultRule) (default : Text)
    (referable : name.IsReferable) (nested : default.IsNested) :
    ofPlain bare (Text.defaulted name rule default) =
      .default rule name (ofPlain bare default) .nil := by
  have form := form?_defaulted bare name rule default referable nested
  have enough : default.length ≤ ('{' :: (name ++ (rule.sign ++ (default ++ ['}'])))).length := by
    simp only [List.length_cons, List.length_append]
    omega
  rw [ofPlain, Text.defaulted, List.length_cons, substitutions, if_pos rfl, form]
  simp only [substitutions_eq bare _ default enough]
  rfl

theorem joined_of_isPlain (bare : Bool) (quote : Quote) (text : Text)
    (plain : (ofPlain bare text).IsPlain) :
    Term.joined quote ((ofPlain bare text).terms quote) = Term.text text quote := by
  have parts : ∀ fuel text, text.length ≤ fuel → (substitutions bare fuel text).IsPlain →
      substitutions bare fuel text = if text = [] then .nil else .plain text .nil := by
    intro fuel
    induction fuel with
    | zero =>
      intro text enough _
      rw [List.length_eq_zero_iff.mp (Nat.le_zero.mp enough)]
      rfl
    | succ fuel ih =>
      intro text enough isPlain
      cases text with
      | nil => rfl
      | cons c rest =>
        have pushed : substitutions bare (fuel + 1) (c :: rest) =
            push c (substitutions bare fuel rest) := by
          rw [substitutions] at isPlain ⊢
          split
          · rename_i dollar
            rw [if_pos dollar] at isPlain
            cases found : form? bare rest with
            | none => rfl
            | some form =>
              rw [found] at isPlain
              cases form <;> cases isPlain
          · rfl
        rw [pushed] at isPlain ⊢
        rw [ih rest (Nat.le_of_succ_le_succ enough) (isPlain_push c _ isPlain)]
        cases rest <;> rfl
  rw [ofPlain, parts text.length text (Nat.le_refl _) plain]
  cases text <;> rfl

end Template

/-! ## Expanded defaults -/

namespace Term

theorem tree_withSource (source : Text) (term : Term) :
    (term.withSource source).tree = term.tree := by
  cases term <;> rfl

theorem tree_applyNamed (name : String) (terms : List Term) :
    (applyNamed name terms).tree = applyNamed name (terms.map tree) := by
  have args : ∀ terms, (Args.positional terms).tree = .positional (terms.map tree) := by
    intro terms
    induction terms with
    | nil => rfl
    | cons term rest ih =>
      have unfolded : ∀ term rest, Args.positional (term :: rest) =
          .cons none term (.positional rest) := fun _ _ => rfl
      rw [unfolded, Args.tree, ih, List.map_cons, unfolded]
  simp only [applyNamed, apply, tree, args]

end Term

namespace Literal

theorem expand_double (bare : Bool) (literal : Literal) (isDouble : literal.quote = some .double) :
    (Term.literal literal).expand bare =
      if ((Template.ofText bare literal.content).terms .double).any Term.isCall then
        (Term.joined .double ((Template.ofText bare literal.content).terms .double)).withSource
          literal.raw
      else .literal literal := by
  have scalar : literal.scalar = .text literal.content := by
    rw [Literal.scalar, isDouble]
  have isOpen : literal.isVerbatim = false := by
    rw [isVerbatim, isDouble]
    rfl
  simp only [Term.expand, expand?, isOpen, scalar, isDouble, Bool.false_eq_true, if_false,
    Option.getD_some]
  split <;> rfl

theorem tree_expand_quoted (bare : Bool) (text : Text) (noCommand : ¬ text.HoldsCommand) :
    ((Term.literal (.quoted text .double)).expand bare).tree =
      (Term.joined .double ((Template.ofPlain bare text).terms .double)).tree := by
  rw [expand_double bare _ rfl, content_quoted, Template.ofText_of_noCommand bare text noCommand]
  split
  · exact Term.tree_withSource _ _
  · rename_i noCall
    have plain := Template.isPlain_of_noCall .double _ (eq_false_of_ne_true noCall)
    rw [Template.joined_of_isPlain bare .double text plain]
    rfl

theorem expand_command (bare : Bool) (literal : Literal) (isDouble : literal.quote = some .double)
    (inside : Text) (content : literal.content = '$' :: '{' :: inside)
    (command : literal.content.HoldsCommand) :
    ∃ parts, ((Term.literal literal).expand bare).tree = Term.applyNamed "concat" parts := by
  have isSome : Direct.command? literal.content ≠ none := fun none =>
    (Direct.command?_eq_none_iff _).mp none command
  obtain ⟨⟨front, script, after⟩, found⟩ := Option.ne_none_iff_exists'.mp isSome
  have starts : ∃ more, front = '$' :: more := by
    rw [content, Direct.command?] at found
    obtain ⟨⟨more, others⟩, -, same⟩ := Option.map_eq_some_iff.mp found
    cases same
    exact ⟨more, rfl⟩
  obtain ⟨more, rfl⟩ := starts
  obtain ⟨first, rest, isFirst⟩ : ∃ first rest,
      (Template.ofPlain bare ('$' :: more)).terms .double = first :: rest := by
    have filled := Template.ofPlain_ne_nil bare '$' more
    generalize Template.ofPlain bare ('$' :: more) = template at filled
    cases template with
    | nil => exact absurd rfl filled
    | _ => exact ⟨_, _, rfl⟩
  obtain ⟨others, isTerms⟩ : ∃ others,
      (Template.ofText bare literal.content).terms .double =
        first :: (rest ++ Term.applyNamed "eval" [Term.text script .double] :: others) := by
    rw [Template.ofText, Template.splitCommands_eq _ _ (Nat.le_refl _), found]
    simp only [Template.ofCommands, Template.terms_append, Template.terms, isFirst,
      List.cons_append]
    exact ⟨_, rfl⟩
  have hasCall : ((Template.ofText bare literal.content).terms .double).any Term.isCall = true := by
    simp [isTerms, Term.applyNamed, Term.apply, Term.isCall]
  have several : Term.joined .double
      (first :: (rest ++ Term.applyNamed "eval" [Term.text script .double] :: others)) =
        Term.applyNamed "concat"
          (first :: (rest ++ Term.applyNamed "eval" [Term.text script .double] :: others)) := by
    cases rest <;> rfl
  rw [expand_double bare literal isDouble, if_pos hasCall, Term.tree_withSource, isTerms, several]
  exact ⟨_, Term.tree_applyNamed _ _⟩

/-- A name with a default, in double quotes, is expanded to the choice between the key and the
expanded default, whatever is nested in the default, exactly where the default holds no command.
The default is expanded as it is in double quotes of its own, which leaves it as it is when there is
nothing to substitute in it. -/
theorem default_expands_iff (bare : Bool) (name : Text) (rule : DefaultRule) (default : Text)
    (referable : name.IsReferable) (nested : default.IsNested) (literal : Literal)
    (isDouble : literal.quote = some .double)
    (content : literal.content = Text.defaulted name rule default) :
    (((Term.literal literal).expand bare).tree =
        Term.applyNamed rule.function [Term.reference name,
          ((Term.literal (.quoted default .double)).expand bare).tree] ↔
      ¬ default.HoldsCommand) ∧
      ((Template.ofText bare default).IsPlain →
        (Term.literal (.quoted default .double)).expand bare =
          .literal (.quoted default .double)) := by
  have commands := Text.holdsCommand_defaulted name rule default referable
  refine ⟨⟨fun same command => ?_, fun noCommand => ?_⟩, fun plain => ?_⟩
  · have inWhole : literal.content.HoldsCommand := content ▸ commands.mpr command
    obtain ⟨parts, isConcat⟩ := expand_command bare literal isDouble _ content inWhole
    rw [isConcat, Term.applyNamed, Term.applyNamed, Term.apply, Term.apply, Term.call.injEq] at same
    cases rule <;> exact absurd same.1 (by decide)
  · have parts : (Template.ofText bare literal.content).terms .double =
        [Term.applyNamed rule.function [Term.reference name,
          Term.joined .double ((Template.ofPlain bare default).terms .double)]] := by
      rw [content,
        Template.ofText_of_noCommand bare _ (fun command => noCommand (commands.mp command)),
        Template.ofPlain_defaulted bare name rule default referable nested]
      rfl
    have hasCall :
        ((Template.ofText bare literal.content).terms .double).any Term.isCall = true := by
      rw [parts]
      rfl
    rw [expand_double bare literal isDouble, if_pos hasCall, Term.tree_withSource, parts,
      Term.joined, Term.tree_applyNamed, tree_expand_quoted bare default noCommand]
    rfl
  · have noCall := Template.noCall_of_isPlain .double _ plain
    rw [expand_double bare _ rfl, content_quoted, noCall]
    rfl

/-- A default with text, a default of its own and a bare name in it, and a default of text alone. -/
theorem default_expands_iff_nested :
    let name : Text := "A.b".toList
    let default : Text := "x$\x7bB:-$C\x7d".toList
    let literal := quoted (Text.defaulted name .whenUndefined default) .double
    name.IsReferable ∧ default.IsNested ∧ literal.quote = some .double ∧
      literal.content = Text.defaulted name .whenUndefined default ∧ ¬ default.HoldsCommand ∧
      ((Term.literal literal).expand true).tree =
        Term.applyNamed "coalesce" [Term.reference name,
          Term.applyNamed "concat" [Term.text ['x'] .double,
            Term.applyNamed "fallback" [Term.reference ['B'], Term.reference ['C']]]] ∧
      (Template.ofText true ['x']).IsPlain ∧
      (Term.literal (.quoted ['x'] .double)).expand true = .literal (.quoted ['x'] .double) := by
  intro name default literal
  have referable : name.IsReferable := ⟨rfl, List.all_eq_true.mp rfl⟩
  have inner := Text.isNested_of_noBrace "B:-$C".toList (by decide) (by decide)
  have nested : default.IsNested := .plain (by decide) (by decide) (.braces inner .nil)
  have single := Text.isNested_of_noBrace ['x'] (by decide) (by decide)
  have content := content_quoted (Text.defaulted name .whenUndefined default) .double
  have noCommand : ¬ default.HoldsCommand := (Direct.command?_eq_none_iff _).mp (by decide)
  have expands := (default_expands_iff true name .whenUndefined default referable nested literal rfl
    content).1.mpr noCommand
  have plain : (Template.ofText true ['x']).IsPlain := trivial
  exact ⟨referable, nested, rfl, content, noCommand, expands.trans (by decide +kernel), plain,
    (default_expands_iff true name .whenEmpty ['x'] referable single _ rfl
      (content_quoted _ .double)).2 plain⟩

/-- A command in a default leaves its braces as text, in front of the command and behind it. -/
theorem default_expands_not_command :
    let default : Text := "$(date)".toList
    let literal := quoted (Text.defaulted ['A'] .whenEmpty default) .double
    Text.IsReferable ['A'] ∧ default.IsNested ∧ literal.quote = some .double ∧
      literal.content = Text.defaulted ['A'] .whenEmpty default ∧
      ((Term.literal literal).expand true).tree =
        Term.applyNamed "concat" [Term.text "$\x7bA:-".toList .double,
          Term.applyNamed "eval" [Term.text "date".toList .double], Term.text ['}'] .double] ∧
      ((Term.literal literal).expand true).tree ≠
        Term.applyNamed "fallback" [Term.reference ['A'],
          ((Term.literal (.quoted default .double)).expand true).tree] := by
  intro default literal
  have nested := default.isNested_of_noBrace (by decide) (by decide)
  exact ⟨⟨rfl, List.forall_mem_singleton.mpr rfl⟩, nested, rfl, content_quoted _ .double,
    by decide +kernel, by decide +kernel⟩

end Literal

end Dotenv
