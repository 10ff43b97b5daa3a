import Dotenv.Proofs.Success
import Dotenv.Reading.Item
/-!
# Tokens and what is left

Every scanner takes its token from the start of a text: what it leaves stands at the end of the
text, and the token, rendered, is what stands in front of that.
-/

set_option autoImplicit false

namespace Dotenv

theorem Text.dropEndWhile_append (p : Char → Bool) (text : Text) :
    dropEndWhile p text ++ takeEndWhile p text = text := by
  unfold dropEndWhile takeEndWhile
  rw [← List.reverse_append, List.takeWhile_append_dropWhile, List.reverse_reverse]

theorem Text.dropEndWhile_prefix (p : Char → Bool) (text : Text) : dropEndWhile p text <+: text :=
  ⟨takeEndWhile p text, dropEndWhile_append p text⟩

theorem Text.skipGap_suffix (text : Text) : skipGap text <:+ text :=
  List.dropWhile_suffix _

namespace Scan

theorem name?_append (text name rest : Text) (found : name? text = some (name, rest)) :
    name ++ rest = text := by
  unfold name? at found
  split at found
  · cases found
    exact List.takeWhile_append_dropWhile
  · cases found

theorem closeQuote_suffix (mark : Char) (text rest : Text)
    (closed : closeQuote mark text = some rest) : rest <:+ text := by
  fun_induction closeQuote mark text with
  | case1 => cases closed
  | case2 more ih => exact (ih closed).trans ((List.suffix_cons _ _).trans (List.suffix_cons _ _))
  | case3 c more differs ih => exact (ih closed).trans (List.suffix_cons _ _)
  | case4 more other =>
    cases closed
    exact List.suffix_cons _ _
  | case5 c more other differs ih => exact (ih closed).trans (List.suffix_cons _ _)

theorem dropStart?_suffix (start text rest : Text)
    (dropped : Text.dropStart? start text = some rest) : rest <:+ text := by
  fun_induction Text.dropStart? start text with
  | case1 text =>
    cases dropped
    exact List.suffix_refl _
  | case2 => cases dropped
  | case3 start b more ih => exact (ih dropped).trans (List.suffix_cons _ _)
  | case4 => cases dropped

theorem closeBlock_suffix (mark : Char) (text rest : Text)
    (closed : closeBlock mark text = some rest) : rest <:+ text := by
  fun_induction closeBlock mark text with
  | case1 => cases closed
  | case2 more ih => exact (ih closed).trans ((List.suffix_cons _ _).trans (List.suffix_cons _ _))
  | case3 c more differs ih => exact (ih closed).trans (List.suffix_cons _ _)
  | case4 c more other after dropped =>
    cases closed
    exact dropStart?_suffix _ _ _ dropped
  | case5 c more other kept ih => exact (ih closed).trans (List.suffix_cons _ _)

theorem quotedLiteral_append (quote : Quote) (text : Text) (literal : Literal) (rest : Text)
    (found : quotedLiteral quote text = some (literal, rest)) : literal.raw ++ rest = text := by
  simp only [quotedLiteral, Option.map_eq_some_iff, Prod.mk.injEq] at found
  obtain ⟨after, closed, rfl, rfl⟩ := found
  exact Text.before_append ((closeQuote_suffix _ _ _ closed).trans (List.drop_suffix 1 text))

theorem toHash_suffix (text : Text) : toHash text <:+ text := by
  fun_induction toHash text with
  | case1 => exact List.suffix_refl _
  | case2 rest ih => exact ih.trans ((List.suffix_cons _ _).trans (List.suffix_cons _ _))
  | case3 rest => exact List.suffix_refl _
  | case4 c rest _ _ ih => exact ih.trans (List.suffix_cons _ _)

theorem bareLiteral_append (rest text : Text) :
    (bareLiteral rest text).1.raw ++ (bareLiteral rest text).2 = text := by
  have front : Text.dropEndWhile Text.isGap (Text.before rest text) <+: text :=
    (Text.dropEndWhile_prefix _ _).trans (List.take_prefix _ _)
  exact List.prefix_iff_eq_append.mp front

theorem bareArgument_append (text : Text) (literal : Literal) (rest : Text)
    (found : bareArgument text = some (literal, rest)) : literal.raw ++ rest = text := by
  simp only [bareArgument] at found
  split at found
  · cases found
  · cases found
    exact bareLiteral_append _ text

theorem argumentKey_suffix (text : Text) : (argumentKey text).2 <:+ text := by
  unfold argumentKey
  split
  · rename_i key rest found
    rw [← name?_append text key ('=' :: rest) found]
    exact (List.suffix_cons _ _).trans (List.suffix_append _ _)
  · exact List.suffix_refl _

/-! ## Calls -/

mutual

theorem call_append :
    ∀ (fuel : Nat) (text : Text) (term : Term) (rest : Text),
      call fuel text = some (term, rest) → term.render ++ rest = text
  | 0, text, term, rest, found => by
    simp only [call] at found
    cases found
  | fuel + 1, text, term, rest, found => by
    simp only [call] at found
    split at found
    · rename_i name afterName named
      split at found
      · rename_i args after inner
        cases found
        have whole := name?_append text name ('(' :: afterName) named
        have atEnd : rest <:+ text := by
          rw [← whole]
          exact (arguments_suffix fuel afterName args rest inner).trans
            ((List.suffix_cons _ _).trans (List.suffix_append _ _))
        simp only [Term.render, Option.getD_some]
        exact Text.before_append atEnd
      · cases found
    · cases found

theorem arguments_suffix :
    ∀ (fuel : Nat) (text : Text) (args : Args) (rest : Text),
      arguments fuel text = some (args, rest) → rest <:+ text
  | 0, text, args, rest, found => by
    simp only [arguments] at found
    cases found
  | fuel + 1, text, args, rest, found => by
    have gap := Text.skipGap_suffix text
    simp only [arguments] at found
    split at found
    · rename_i after closing
      cases found
      rw [closing] at gap
      exact (List.suffix_cons _ _).trans gap
    · exact (moreArguments_suffix fuel _ args rest found).trans gap

theorem moreArguments_suffix :
    ∀ (fuel : Nat) (text : Text) (args : Args) (rest : Text),
      moreArguments fuel text = some (args, rest) → rest <:+ text
  | 0, text, args, rest, found => by
    simp only [moreArguments] at found
    cases found
  | fuel + 1, text, args, rest, found => by
    simp only [moreArguments] at found
    split at found
    · cases found
    · rename_i value after first
      have afterFirst : after <:+ text := by
        have whole := argument_append fuel _ value after first
        exact (whole ▸ List.suffix_append _ _ : after <:+ (argumentKey text).2).trans
          (argumentKey_suffix text)
      have gap := (Text.skipGap_suffix after).trans afterFirst
      split at found
      · rename_i beyond comma
        rw [comma] at gap
        split at found
        · rename_i more final others
          cases found
          exact (moreArguments_suffix fuel _ more rest others).trans
            ((Text.skipGap_suffix beyond).trans ((List.suffix_cons _ _).trans gap))
        · cases found
      · rename_i beyond closing
        cases found
        rw [closing] at gap
        exact (List.suffix_cons _ _).trans gap
      · cases found

theorem argument_append :
    ∀ (fuel : Nat) (text : Text) (term : Term) (rest : Text),
      argument fuel text = some (term, rest) → term.render ++ rest = text
  | 0, text, term, rest, found => by
    simp only [argument] at found
    cases found
  | fuel + 1, text, term, rest, found => by
    simp only [argument] at found
    split at found
    · rename_i quote _
      obtain ⟨⟨literal, after⟩, quoted, same⟩ := Option.map_eq_some_iff.mp found
      cases same
      simp only [Term.render]
      exact quotedLiteral_append quote text literal _ quoted
    · split at found
      · rename_i inner called
        cases found
        exact call_append fuel text term rest called
      · obtain ⟨⟨literal, after⟩, bare, same⟩ := Option.map_eq_some_iff.mp found
        cases same
        simp only [Term.render]
        exact bareArgument_append text literal _ bare

end

/-! ## Comments -/

theorem decoratorValue_append (name text : Text) (value : Term) (rest : Text)
    (read : decoratorValue name text = .ok (value, rest)) : value.render ++ rest = text := by
  simp only [decoratorValue] at read
  split at read
  · cases read
  · split at read
    · rename_i quote _
      split at read
      · rename_i literal after quoted
        cases read
        simp only [Term.render]
        exact quotedLiteral_append quote text literal _ quoted
      · cases read
    · have token : (Term.literal (.bare (text.takeWhile (!Text.isGap ·)))).render ++
          text.dropWhile (!Text.isGap ·) = text := by
        simp only [Term.render, Literal.bare]
        exact List.takeWhile_append_dropWhile
      split at read
      · rename_i found
        simp only [Except.ok.injEq] at read
        split at read
        · cases read
          exact call_append _ text value rest found
        · cases read
          exact token
      · cases read
        exact token

theorem setting_append (name text : Text) (setting : Setting) (rest : Text)
    (read : Scan.setting name text = .ok (setting, rest)) : setting.render ++ rest = text := by
  simp only [Scan.setting] at read
  split at read
  · cases read
    rfl
  · rename_i c more
    split at read
    · cases read
      rfl
    · split at read
      · rename_i equals
        split at read
        · cases read
        · rename_i value after assigned
          have whole := decoratorValue_append name more value after assigned
          split at read
          · cases read
            simp only [Setting.render, List.cons_append, whole, equals]
          · split at read
            · cases read
              simp only [Setting.render, List.cons_append, whole, equals]
            · cases read
      · split at read
        · rename_i opens
          split at read
          · rename_i args after found
            cases read
            simp only [Setting.render, Args.render, Option.getD_some]
            exact Text.before_append
              ((arguments_suffix _ more args rest found).trans (List.suffix_cons _ _))
          · cases read
        · cases read

theorem decorator_append (leading text : Text) (decorator : Decorator) (rest : Text)
    (read : Scan.decorator leading text = .ok (decorator, rest)) :
    decorator.render ++ rest = leading ++ '@' :: text := by
  simp only [Scan.decorator] at read
  split at read
  · cases read
  · rename_i name afterName named
    cases set : Scan.setting name afterName with
    | error fault =>
      rw [set] at read
      cases read
    | ok found =>
      rw [set] at read
      cases read
      simp only [Decorator.render, List.append_assoc, List.cons_append]
      rw [setting_append name afterName found.1 found.2 set, name?_append text name afterName named]

theorem decorators_append (fuel : Nat) (opening leading text : Text) (list : List Decorator)
    (trailing : Option Comment) (tail : Text)
    (read : decorators fuel leading text = .ok (list, trailing, tail)) :
    (DecoratorLine.mk opening list trailing tail).render = opening ++ (leading ++ '@' :: text) := by
  induction fuel generalizing opening leading text list trailing tail with
  | zero =>
    cases read
    simp only [DecoratorLine.render, List.flatMap_nil, List.append_nil]
  | succ fuel ih =>
    simp only [decorators] at read
    split at read
    · cases read
    · rename_i first after one
      rw [← decorator_append leading text first after one]
      have gap := Text.gap_append_skipGap after
      split at read
      · rename_i ended
        cases read
        rw [ended, List.append_nil] at gap
        simp only [DecoratorLine.render, List.flatMap_cons, List.flatMap_nil, List.append_nil,
          List.append_assoc, gap]
      · rename_i c beyond more
        rw [more] at gap
        split at read
        · rename_i isAt
          split at read
          · cases read
          · rename_i others othersTrailing othersTail rest
            cases read
            have whole := ih (opening ++ first.render) _ _ _ _ _ rest
            rw [← isAt.1, gap] at whole
            rw [← List.append_assoc, ← whole]
            simp only [DecoratorLine.render, List.flatMap_cons, List.append_assoc]
        · split at read
          · rename_i isHash
            cases read
            rw [isHash] at gap
            simp only [DecoratorLine.render, List.flatMap_cons, List.flatMap_nil, List.append_nil,
              Comment.render, List.append_assoc, List.singleton_append, gap]
          · cases read

theorem comment_append (opening afterHash : Text) (line : CommentLine)
    (read : Scan.comment opening afterHash = .ok line) : line.render = opening ++ afterHash := by
  simp only [Scan.comment] at read
  split at read
  · rename_i rest isAt
    split at read
    · cases read
    · rename_i list trailing tail found
      cases read
      have gap := Text.gap_append_skipGap afterHash
      rw [isAt] at gap
      have whole := decorators_append _ (opening ++ Text.gap afterHash) _ _ _ _ _ found
      rw [List.nil_append, List.append_assoc, gap] at whole
      exact whole
  · cases read
    rfl

/-! ## Items -/

theorem dropStart?_append (start text rest : Text)
    (dropped : Text.dropStart? start text = some rest) : start ++ rest = text := by
  fun_induction Text.dropStart? start text with
  | case1 text =>
    cases dropped
    rfl
  | case2 => cases dropped
  | case3 start b more ih => rw [List.cons_append, ih dropped]
  | case4 => cases dropped

theorem exportWord_append (text : Text) :
    (exportWord text).1.getD [] ++ (exportWord text).2 = text := by
  unfold exportWord
  split
  · rename_i after dropped
    split
    · simp only [Option.getD_some, List.append_assoc, Text.gap_append_skipGap]
      exact dropStart?_append _ text after dropped
    · rfl
  · rfl

theorem key_append (text : Text) : key text ++ text.drop (key text).length = text := by
  have front : key text <+: text := by
    unfold key
    split
    · exact List.takeWhile_prefix _
    · exact List.nil_prefix
  exact List.prefix_iff_eq_append.mp front

def Head.render (head : Head) : Text :=
  head.indent ++ head.exported.getD [] ++ head.key ++ head.beforeEquals ++ '=' :: head.afterEquals

theorem head_append (line : Text) (head : Head) (rest : Text)
    (read : Scan.head line = .ok (head, rest)) : head.render ++ rest = line := by
  simp only [Scan.head] at read
  split at read
  · cases read
  · split at read
    · rename_i afterEquals equals
      cases read
      simp only [Head.render, List.append_assoc, List.cons_append, Text.gap_append_skipGap]
      rw [← equals, Text.gap_append_skipGap, key_append, exportWord_append,
        Text.gap_append_skipGap]
    · cases read

theorem bareValue_append (text : Text) :
    (bareValue text).1.render ++ (bareValue text).2 = text := by
  have bare : (Term.literal (bareLiteral (toHash text) text).1).render ++
      (bareLiteral (toHash text) text).2 = text := by
    simp only [Term.render]
    exact bareLiteral_append (toHash text) text
  unfold bareValue
  split
  · rename_i value rest found
    have whole := call_append _ text value rest found
    split
    · exact whole
    · split
      · exact whole
      · exact bare
  · exact bare

theorem beginning_append (text : Text) (value : Option Term) (rest : Text)
    (read : beginning text = .ok (.whole value rest)) :
    (value.map Term.render).getD [] ++ rest = text := by
  simp only [beginning] at read
  split at read
  · cases read
    rfl
  · split at read
    · cases read
      rfl
    · split at read
      · split at read
        · cases read
        · cases read
      · split at read
        · split at read
          · rename_i literal after quoted
            cases read
            simp only [Option.map_some, Option.getD_some, Term.render]
            exact quotedLiteral_append _ _ literal _ quoted
          · cases read
        · cases read
          exact bareValue_append _

theorem text_of_blockQuote? (text : Text) (quote : Quote)
    (isBlock : blockQuote? text = some quote) :
    quote.isTriple = true ∧ ∃ rest, text = quote.delimiter ++ rest := by
  unfold blockQuote? at isBlock
  split at isBlock
  · rename_i isSome
    cases isBlock
    obtain ⟨rest, dropped⟩ := Option.isSome_iff_exists.mp isSome
    exact ⟨rfl, rest, (dropStart?_append _ _ rest dropped).symm⟩
  · split at isBlock
    · rename_i isSome
      cases isBlock
      obtain ⟨rest, dropped⟩ := Option.isSome_iff_exists.mp isSome
      exact ⟨rfl, rest, (dropStart?_append _ _ rest dropped).symm⟩
    · cases isBlock

theorem drop_delimiter {quote : Quote} (triple : quote.isTriple = true) (rest : Text) :
    (quote.delimiter ++ rest).drop 3 = rest := by
  rw [Quote.delimiter, if_pos triple]
  rfl

theorem opened_of_beginning (text : Text) (quote : Quote)
    (read : beginning text = .ok (.opened quote)) :
    quote.isTriple = true ∧ ∃ rest, text = quote.delimiter ++ rest ∧
      closeBlock quote.mark rest = none := by
  simp only [beginning] at read
  split at read
  · cases read
  · split at read
    · cases read
    · split at read
      · rename_i block isBlock
        split at read
        · cases read
        · rename_i unclosed
          cases read
          obtain ⟨triple, rest, isText⟩ := text_of_blockQuote? _ _ isBlock
          rw [Bool.not_eq_true, Option.isSome_eq_false_iff, Option.isNone_iff_eq_none, isText,
            drop_delimiter triple] at unclosed
          exact ⟨triple, rest, isText, unclosed⟩
      · split at read
        · split at read <;> cases read
        · cases read

theorem lineEnd_append (text : Text) (trailing : Option TrailingComment) (tail : Text)
    (read : lineEnd text = .ok (trailing, tail)) :
    (match trailing with
      | some trailing => trailing.gap ++ trailing.comment.render
      | none => tail) = text := by
  have gap := Text.gap_append_skipGap text
  simp only [lineEnd] at read
  split at read
  · rename_i ended
    cases read
    rw [ended, List.append_nil] at gap
    exact gap
  · rename_i c rest more
    split at read
    · rename_i isHash
      cases comment : Scan.comment ['#'] rest with
      | error fault =>
        rw [comment] at read
        cases read
      | ok line =>
        rw [comment] at read
        cases read
        rw [more, isHash] at gap
        dsimp only
        rw [comment_append ['#'] rest line comment]
        exact gap
    · cases read

end Scan

end Dotenv
