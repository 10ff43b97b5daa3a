import Dotenv.Proofs.Reading.Seams
import Dotenv.Proofs.Template.Meaning
import Mathlib.Algebra.GroupWithZero.Nat
/-!
# Signs

The canonical text of a value has as many hashes and at signs as the text that the value was
read from, whatever is expanded in it: quotes, escapes, gaps and the names of functions bring
none and take none away. So two values whose texts differ in their signs differ canonically.
-/

set_option autoImplicit false

namespace Dotenv

def Text.isSign (c : Char) : Bool := c == '#' || c == '@'

def Text.signs (text : Text) : Nat := text.countP isSign

namespace Text

theorem signs_nil : signs [] = 0 := rfl

theorem signs_append (front back : Text) : signs (front ++ back) = signs front + signs back :=
  List.countP_append

theorem signs_cons (c : Char) (rest : Text) : signs (c :: rest) = signs [c] + signs rest :=
  signs_append [c] rest

theorem signs_plain (c : Char) (rest : Text) (plain : isSign c = false) :
    signs (c :: rest) = signs rest :=
  List.countP_cons_of_neg (by simp [plain])

theorem signs_eq_zero (text : Text) (none : ∀ c ∈ text, isSign c = false) : signs text = 0 := by
  refine List.countP_eq_zero.mpr fun c member => ?_
  rw [none c member]
  exact Bool.false_ne_true

theorem signs_pos (text : Text) (c : Char) (member : c ∈ text) (sign : isSign c = true) :
    0 < signs text :=
  List.countP_pos_iff.mpr ⟨c, member, sign⟩

theorem signs_before (rest text : Text) (atEnd : rest <:+ text) :
    signs (before rest text) + signs rest = signs text := by
  rw [← signs_append, before_append atEnd]

theorem signs_takeWhile (p : Char → Bool) (text : Text) :
    signs (text.takeWhile p) + signs (text.dropWhile p) = signs text := by
  rw [← signs_append, List.takeWhile_append_dropWhile]

theorem signs_dropWhile (p : Char → Bool) (text : Text)
    (kept : ∀ c, isSign c = true → p c = false) : signs (text.dropWhile p) = signs text := by
  have none : ∀ c ∈ text.takeWhile p, isSign c = false := by
    intro c member
    cases sign : isSign c with
    | false => rfl
    | true =>
      have dropped := kept c sign
      rw [List.mem_takeWhile_imp member] at dropped
      cases dropped
  have split := signs_takeWhile p text
  rwa [signs_eq_zero _ none, Nat.zero_add] at split

theorem eq_of_isSign (c : Char) (sign : isSign c = true) : c = '#' ∨ c = '@' := by
  simpa [isSign] using sign

theorem signs_skipGap (text : Text) : signs (skipGap text) = signs text := by
  refine signs_dropWhile _ text fun c sign => ?_
  rcases eq_of_isSign c sign with rfl | rfl <;> rfl

theorem signs_reverse (text : Text) : signs text.reverse = signs text := List.countP_reverse

theorem signs_trim (text : Text) : signs (trim text) = signs text := by
  have kept : ∀ c, isSign c = true → isBlank c = false := by
    intro c sign
    rcases eq_of_isSign c sign with rfl | rfl <;> decide
  rw [trim, trimEnd, dropEndWhile, signs_reverse, signs_dropWhile _ _ kept, signs_reverse,
    trimStart, signs_dropWhile _ _ kept]

theorem signs_unescape (mark : Char) (text : Text) :
    signs (unescape mark text) = signs text := by
  fun_induction unescape mark text with
  | case1 => rfl
  | case2 rest ih =>
    rw [signs_plain '\\' _ (by decide), signs_cons, ih, ← signs_cons]
  | case3 c rest differs ih => rw [signs_cons, ih, ← signs_cons]
  | case4 c rest other ih => rw [signs_cons, ih, ← signs_cons]

theorem signs_escape (mark : Char) (text : Text) : signs (escape mark text) = signs text := by
  induction text with
  | nil => rfl
  | cons c rest ih =>
    rw [escape_cons, signs_append, ih, signs_cons c rest]
    split
    · rename_i same
      rw [same, signs_plain '\\' _ (by decide)]
    · rfl

theorem signs_join (separator : Text) (none : signs separator = 0) (parts : List Text) :
    signs (join separator parts) = (parts.map signs).sum := by
  induction parts with
  | nil => rfl
  | cons part more ih =>
    cases more with
    | nil => simp [join]
    | cons next rest =>
      have split : join separator (part :: next :: rest) =
          part ++ separator ++ join separator (next :: rest) := rfl
      rw [split, signs_append, signs_append, none, ih, Nat.add_zero]
      rfl

end Text

theorem Quote.signs_delimiter (quote : Quote) : Text.signs quote.delimiter = 0 := by
  cases quote <;> rfl

namespace Literal

theorem signs_quoted (text : Text) (quote : Quote) :
    Text.signs (quoted text quote).raw = Text.signs text := by
  have delimiter := quote.signs_delimiter
  have newline : Text.signs ['\n'] = 0 := rfl
  unfold quoted
  split <;> simp only [Text.signs_append, delimiter, newline, Text.signs_escape] <;> omega

def KeepsSigns (literal : Literal) : Prop :=
  Text.signs literal.content = Text.signs literal.raw

theorem keepsSigns_bare (text : Text) : (bare text).KeepsSigns := by
  show Text.signs (Text.unescape '#' (Text.trim text)) = Text.signs text
  rw [Text.signs_unescape, Text.signs_trim]

end Literal

/-! ## Templates -/

namespace Template

def signs : Template → Nat
  | nil => 0
  | plain text rest => Text.signs text + rest.signs
  | command script rest => Text.signs script + rest.signs
  | reference name rest => Text.signs name + rest.signs
  | default _ name instead rest => Text.signs name + instead.signs + rest.signs

theorem signs_push (c : Char) (template : Template) :
    (push c template).signs = Text.signs [c] + template.signs := by
  cases template with
  | plain text rest =>
    rw [push, signs, signs, Text.signs_cons, Nat.add_assoc]
  | _ => rfl

theorem signs_append (front back : Template) :
    (front.append back).signs = front.signs + back.signs := by
  induction front with
  | nil => rw [append, signs, Nat.zero_add]
  | plain text rest ih => rw [append, signs, signs, ih, Nat.add_assoc]
  | command script rest ih => rw [append, signs, signs, ih, Nat.add_assoc]
  | reference name rest ih => rw [append, signs, signs, ih, Nat.add_assoc]
  | default rule name instead rest _ ih =>
    rw [append, signs, signs, ih]
    omega

def Form.signs : Form → Nat
  | reference name rest => Text.signs name + Text.signs rest
  | default _ name instead rest => Text.signs name + Text.signs instead + Text.signs rest

theorem closeBrace_head (depth : Nat) (text rest : Text)
    (closed : closeBrace depth text = some rest) : ∃ after, rest = '}' :: after := by
  fun_induction closeBrace depth text with
  | case1 => cases closed
  | case2 depth more ih => exact ih closed
  | case3 more =>
    cases closed
    exact ⟨more, rfl⟩
  | case4 depth more ih => exact ih closed
  | case5 depth c more _ _ _ ih => exact ih closed

theorem defaultRule?_signs (text body : Text) (rule : DefaultRule)
    (found : defaultRule? text = some (rule, body)) : Text.signs body = Text.signs text := by
  unfold defaultRule? at found
  split at found
  · cases found
    rw [Text.signs_plain ':' _ (by decide), Text.signs_plain '-' _ (by decide)]
  · cases found
    rw [Text.signs_plain '-' _ (by decide)]
  · cases found

theorem braced?_signs (text : Text) (form : Form) (found : braced? text = some form) :
    form.signs = Text.signs text := by
  unfold braced? at found
  split at found
  · cases found
  · rename_i name after named
    have split : Text.signs name + Text.signs after = Text.signs text := by
      unfold bracedName? at named
      split at named
      · cases named
        exact Text.signs_takeWhile _ text
      · cases named
    split at found
    · rename_i rest
      cases found
      rwa [Text.signs_plain '}' _ (by decide)] at split
    · split at found
      · cases found
      · rename_i rule body ruled
        split at found
        · cases found
        · rename_i rest closed
          cases found
          have sameBody := defaultRule?_signs after body rule ruled
          have parts := Text.signs_before rest body (closeBrace_suffix 0 body rest closed)
          obtain ⟨beyond, rfl⟩ := closeBrace_head 0 body rest closed
          rw [Text.signs_plain '}' _ (by decide)] at parts
          simp only [Form.signs, List.drop_one, List.tail_cons]
          omega

theorem form?_signs (bare : Bool) (text : Text) (form : Form)
    (found : form? bare text = some form) : form.signs = Text.signs text := by
  unfold form? at found
  split at found
  · rename_i rest
    rw [braced?_signs rest form found, Text.signs_plain '{' _ (by decide)]
  · split at found
    · obtain ⟨⟨name, rest⟩, named, rfl⟩ := Option.map_eq_some_iff.mp found
      rw [Form.signs, ← Text.signs_append, Scan.name?_append _ name rest named]
    · cases found

theorem signs_substitutions (bare : Bool) (fuel : Nat) (text : Text)
    (enough : text.length ≤ fuel) : (substitutions bare fuel text).signs = Text.signs text := by
  induction fuel generalizing text with
  | zero =>
    rw [List.length_eq_zero_iff.mp (Nat.le_zero.mp enough)]
    rfl
  | succ fuel ih =>
    cases text with
    | nil => rfl
    | cons c rest =>
      have restEnough : rest.length ≤ fuel := Nat.le_of_succ_le_succ enough
      rw [substitutions]
      by_cases dollar : c = '$'
      · subst dollar
        rw [if_pos rfl, Text.signs_cons]
        cases found : form? bare rest with
        | none => rw [signs_push, ih rest restEnough]
        | some form =>
          have shorter := form?_length bare rest form found
          have same := form?_signs bare rest form found
          have none : Text.signs ['$'] = 0 := rfl
          cases form with
          | reference name after =>
            have afterEnough := shorter after List.mem_cons_self
            rw [signs, ih after (by omega), none, ← same, Form.signs, Nat.zero_add]
          | default rule name instead after =>
            have insteadEnough := shorter instead List.mem_cons_self
            have afterEnough := shorter after (by simp [Form.direct, Direct.Form.parts])
            rw [signs, ih instead (by omega), ih after (by omega), none, ← same, Form.signs,
              Nat.zero_add]
      · rw [if_neg dollar, signs_push, ih rest restEnough, ← Text.signs_cons]

theorem script?_signs (text script rest : Text) (found : script? text = some (script, rest)) :
    Text.signs script + Text.signs rest = Text.signs text ∧ rest.length < text.length := by
  unfold script? at found
  split at found
  · rename_i body
    dsimp only at found
    have parts := Text.signs_takeWhile (· ≠ ')') body
    have shorter := (List.dropWhile_suffix (· ≠ ')') (l := body)).length_le
    split at found
    · rename_i after closes
      split at found
      · cases found
      · cases found
        rw [closes, Text.signs_plain ')' _ (by decide)] at parts
        rw [closes, List.length_cons] at shorter
        rw [Text.signs_plain '(' _ (by decide), List.length_cons]
        exact ⟨parts, by omega⟩
    · cases found
  · cases found

theorem signs_ofPlain (bare : Bool) (text : Text) :
    (ofPlain bare text).signs = Text.signs text :=
  signs_substitutions bare text.length text (Nat.le_refl _)

theorem signs_splitCommands (bare : Bool) (fuel : Nat) (text : Text)
    (enough : text.length ≤ fuel) :
    Text.signs (splitCommands fuel text).1 + (ofCommands bare (splitCommands fuel text).2).signs =
      Text.signs text := by
  induction fuel generalizing text with
  | zero =>
    rw [List.length_eq_zero_iff.mp (Nat.le_zero.mp enough)]
    rfl
  | succ fuel ih =>
    cases text with
    | nil => rfl
    | cons c rest =>
      simp only [List.length_cons] at enough
      rw [splitCommands, Text.signs_cons]
      dsimp only
      split
      · rename_i script after starts
        split at starts
        · rename_i dollar
          obtain ⟨parts, shorter⟩ := script?_signs rest script after starts
          have others := ih after (by omega)
          have none : Text.signs [c] = 0 := by
            rw [dollar]
            rfl
          simp only [ofCommands, signs, signs_append, signs_ofPlain, Text.signs_nil]
          omega
        · cases starts
      · have others := ih rest (by omega)
        simp only
        rw [Text.signs_cons, Nat.add_assoc, others]

theorem signs_ofText (bare : Bool) (text : Text) :
    (ofText bare text).signs = Text.signs text := by
  rw [ofText]
  simp only [signs_append, signs_ofPlain]
  exact signs_splitCommands bare text.length text (Nat.le_refl _)

end Template

/-! ## Terms -/

def Term.signs (term : Term) : Nat := Text.signs term.canonical

def Args.signs (args : Args) : Nat := (args.canonicalEach.map Text.signs).sum

namespace Term

theorem signs_literal (written : Literal) :
    (Term.literal written).signs = Text.signs written.raw := by
  rw [signs, canonical]

theorem signs_call (name : Text) (args : Args) (argsSource source : Option Text) :
    (Term.call name args argsSource source).signs = Text.signs name + args.signs := by
  rw [signs, canonical, Text.signs_append, Text.signs_append,
    Text.signs_plain '(' _ (by decide), Text.signs_join [',', ' '] rfl]
  rfl

theorem signs_positional (terms : List Term) :
    (Args.positional terms).signs = (terms.map signs).sum := by
  induction terms with
  | nil => rfl
  | cons first rest ih =>
    have split : (Args.positional (first :: rest)).signs =
        first.signs + (Args.positional rest).signs := by
      rw [Args.signs, Args.positional, List.map_cons, Args.ofList, Args.canonicalEach,
        Arg.labelled]
      rfl
    rw [split, ih]
    rfl

theorem signs_applyNamed (name : String) (none : Text.signs name.toList = 0) (terms : List Term) :
    (applyNamed name terms).signs = (terms.map signs).sum := by
  rw [applyNamed, apply, signs_call, none, signs_positional, Nat.zero_add]

theorem signs_text (text : Text) (quote : Quote) :
    (Term.text text quote).signs = Text.signs text := by
  rw [Term.text, signs_literal, Literal.signs_quoted]

theorem signs_joined (quote : Quote) (parts : List Term) :
    (joined quote parts).signs = (parts.map signs).sum := by
  match parts with
  | [] => exact signs_text [] quote
  | [part] => simp [joined]
  | first :: second :: rest => exact signs_applyNamed "concat" (by decide) _

theorem signs_terms (quote : Quote) (template : Template) :
    ((template.terms quote).map signs).sum = template.signs := by
  induction template with
  | nil => rfl
  | plain text rest ih =>
    rw [Template.terms, List.map_cons, List.sum_cons, ih, signs_text, Template.signs]
  | command script rest ih =>
    rw [Template.terms, List.map_cons, List.sum_cons, ih, Template.signs,
      signs_applyNamed "eval" (by decide), List.map_singleton, List.sum_singleton, signs_text]
  | reference name rest ih =>
    rw [Template.terms, List.map_cons, List.sum_cons, ih, Template.signs, reference,
      signs_applyNamed "ref" (by decide), List.map_singleton, List.sum_singleton, signs_text]
  | default rule name instead rest insteadIh ih =>
    have noHash : Text.signs rule.function.toList = 0 := by cases rule <;> decide
    rw [Template.terms, List.map_cons, List.sum_cons, ih, Template.signs,
      signs_applyNamed rule.function noHash, List.map_cons, List.sum_cons, List.map_singleton,
      List.sum_singleton, signs_joined, insteadIh, reference, signs_applyNamed "ref" (by decide),
      List.map_singleton, List.sum_singleton, signs_text]

theorem signs_withSource (source : Text) (term : Term) :
    (term.withSource source).signs = term.signs := by
  cases term with
  | literal written => rfl
  | call name args argsSource old => rw [withSource, signs_call, signs_call]

end Term

theorem Scalar.signs_ofBare (bare text : Text) (isText : ofBare bare = .text text) :
    Text.signs text = Text.signs bare := by
  have trimmed : text = Text.trim bare := by
    simp only [ofBare] at isText
    split at isText
    · cases isText
    · split at isText
      · cases isText
      · split at isText
        · cases isText
        · split at isText
          · split at isText
            · split at isText
              · cases isText
              · cases isText
                rfl
            · cases isText
              rfl
          · cases isText
            rfl
  rw [trimmed, Text.signs_trim]

theorem Literal.signs_scalar (literal : Literal) (text : Text)
    (isText : literal.scalar = .text text) : Text.signs text = Text.signs literal.content := by
  unfold scalar at isText
  split at isText
  · exact Scalar.signs_ofBare _ text isText
  · cases isText
    rfl

theorem Literal.signs_expand (bare : Bool) (literal : Literal) (keeps : literal.KeepsSigns) :
    ((Term.literal literal).expand bare).signs = Text.signs literal.raw := by
  rw [Term.expand]
  cases expanded : literal.expand? bare with
  | none => exact Term.signs_literal literal
  | some term =>
    simp only [expand?] at expanded
    split at expanded
    · cases expanded
    · split at expanded
      · rename_i text isText
        split at expanded
        · cases expanded
          rw [Option.getD_some, Term.signs_withSource, Term.signs_joined, Term.signs_terms,
            Template.signs_ofText, literal.signs_scalar text isText, keeps]
        · cases expanded
      · cases expanded

/-! ## Terms that were read -/

namespace Scan

theorem quotedLiteral_keepsSigns (quote : Quote) (c : Char) (opens : Quote.ofMark? c = some quote)
    (text : Text) (literal : Literal) (rest : Text)
    (found : quotedLiteral quote (c :: text) = some (literal, rest)) : literal.KeepsSigns := by
  obtain ⟨inner, rfl⟩ := quotedLiteral_raw quote c text literal rest found
  obtain ⟨rfl, single⟩ := ofMark?_mark c quote opens
  have mark : Text.signs [quote.mark] = 0 := by cases quote <;> rfl
  have inside : Literal.between quote.delimiter (quote.mark :: inner ++ [quote.mark]) = inner := by
    rw [Quote.delimiter, single]
    exact Literal.between_append [quote.mark] inner
  simp only [Literal.KeepsSigns, Literal.content, single, inside, Bool.false_eq_true, if_false,
    Text.signs_unescape]
  rw [List.cons_append, Text.signs_cons, Text.signs_append, mark]
  omega

theorem argumentKey_signs (text : Text) (term : Term) :
    Text.signs (Arg.labelled (argumentKey text).1 term.canonical) +
        Text.signs (argumentKey text).2 = Text.signs text + term.signs := by
  unfold argumentKey
  split
  · rename_i key rest named
    rw [← name?_append text key ('=' :: rest) named]
    simp only [Arg.labelled, Text.signs_append, Text.signs_plain '=' _ (by decide), Term.signs]
    omega
  · exact Nat.add_comm _ _

mutual

theorem call_signs (bare : Bool) :
    ∀ (fuel : Nat) (text : Text) (term : Term) (rest : Text),
      call fuel text = some (term, rest) → (term.expand bare).signs = Text.signs term.render
  | 0, text, term, rest, found => by
    simp only [call] at found
    cases found
  | fuel + 1, text, term, rest, found => by
    have written := call_append (fuel + 1) text term rest found
    simp only [call] at found
    split at found
    · rename_i name afterName named
      split at found
      · rename_i args after inner
        cases found
        have inside := arguments_signs bare fuel afterName args rest inner
        have whole := congrArg Text.signs (written.trans (name?_append text name _ named).symm)
        rw [Text.signs_append, Text.signs_append, Text.signs_plain '(' _ (by decide)] at whole
        rw [Term.expand, Term.signs_call]
        omega
      · cases found
    · cases found

theorem arguments_signs (bare : Bool) :
    ∀ (fuel : Nat) (text : Text) (args : Args) (rest : Text),
      arguments fuel text = some (args, rest) →
        (args.expand bare).signs + Text.signs rest = Text.signs text
  | 0, text, args, rest, found => by
    simp only [arguments] at found
    cases found
  | fuel + 1, text, args, rest, found => by
    have gap := Text.signs_skipGap text
    simp only [arguments] at found
    split at found
    · rename_i after closing
      cases found
      rw [closing, Text.signs_plain ')' _ (by decide)] at gap
      rw [← gap]
      exact Nat.zero_add _
    · rw [← gap]
      exact moreArguments_signs bare fuel _ args rest found

theorem moreArguments_signs (bare : Bool) :
    ∀ (fuel : Nat) (text : Text) (args : Args) (rest : Text),
      moreArguments fuel text = some (args, rest) →
        (args.expand bare).signs + Text.signs rest = Text.signs text
  | 0, text, args, rest, found => by
    simp only [moreArguments] at found
    cases found
  | fuel + 1, text, args, rest, found => by
    simp only [moreArguments] at found
    split at found
    · cases found
    · rename_i value after first
      have whole := congrArg Text.signs (argument_append fuel _ value after first)
      have keyed := argumentKey_signs text (value.expand bare)
      have kept := argument_signs bare fuel _ value after first
      have gap := Text.signs_skipGap after
      rw [Text.signs_append] at whole
      split at found
      · rename_i beyond comma
        rw [comma, Text.signs_plain ',' _ (by decide)] at gap
        split at found
        · rename_i more final others
          cases found
          have inside := moreArguments_signs bare fuel _ more rest others
          have gapBeyond := Text.signs_skipGap beyond
          simp only [Args.expand, Args.signs, Args.canonicalEach, List.map_cons, List.sum_cons]
            at inside ⊢
          omega
        · cases found
      · rename_i beyond closing
        cases found
        rw [closing, Text.signs_plain ')' _ (by decide)] at gap
        simp only [Args.expand, Args.signs, Args.canonicalEach, List.map_cons, List.map_nil,
          List.sum_cons, List.sum_nil]
        omega
      · cases found

theorem argument_signs (bare : Bool) :
    ∀ (fuel : Nat) (text : Text) (value : Term) (rest : Text),
      argument fuel text = some (value, rest) →
        (value.expand bare).signs = Text.signs value.render
  | 0, text, value, rest, found => by
    simp only [argument] at found
    cases found
  | fuel + 1, text, value, rest, found => by
    simp only [argument] at found
    split at found
    · rename_i quote opens
      obtain ⟨⟨literal, after⟩, quoted, same⟩ := Option.map_eq_some_iff.mp found
      cases same
      cases text with
      | nil => cases opens
      | cons c more =>
        rw [Term.render]
        exact Literal.signs_expand bare literal
          (quotedLiteral_keepsSigns quote c opens more literal _ quoted)
    · split at found
      · rename_i inner called
        cases found
        exact call_signs bare fuel text value rest called
      · obtain ⟨⟨literal, after⟩, isBare, same⟩ := Option.map_eq_some_iff.mp found
        cases same
        simp only [bareArgument] at isBare
        split at isBare
        · cases isBare
        · cases isBare
          rw [Term.render]
          exact Literal.signs_expand bare _ (Literal.keepsSigns_bare _)

end

theorem bareValue_signs (bare : Bool) (text : Text) (value : Term) (rest : Text)
    (read : bareValue text = (value, rest)) :
    (value.expand bare).signs = Text.signs value.render := by
  by_cases isCall : ∃ call rest, call? text = some (call, rest) ∧ EndsValue rest
  · obtain ⟨call, left, found, ends⟩ := isCall
    rw [bareValue_call text call left found ends] at read
    cases read
    exact call_signs bare _ text value rest found
  · rw [bareValue_literal text fun call left found ends => isCall ⟨call, left, found, ends⟩] at read
    cases read
    rw [Term.render]
    exact Literal.signs_expand bare _ (Literal.keepsSigns_bare _)

theorem beginning_signs (bare : Bool) (text : Text) (value : Term) (rest : Text)
    (read : beginning text = .ok (.whole (some value) rest)) :
    (value.expand bare).signs = Text.signs value.render := by
  obtain ⟨c, more, rfl, -, -, shape⟩ := (beginning_eq_value text value rest).mp read
  rcases shape with ⟨quote, literal, opens, quoted, rfl⟩ | ⟨-, isBare⟩
  · rw [Term.render]
    exact Literal.signs_expand bare literal
      (quotedLiteral_keepsSigns quote c opens more literal rest quoted)
  · exact bareValue_signs bare _ value rest isBare

end Scan

end Dotenv
