import Dotenv.Proofs.Reading.Arguments
import Dotenv.Proofs.Reading.Quoted
import Dotenv.Proofs.Reading.Runs
/-!
# The literals of a document

Every literal in quotes on one line that a reader returns, wherever it stands in a document and
whether it was written there or put there by expansion, is the one that is built for its content.
-/

set_option autoImplicit false

namespace Dotenv

mutual

def Term.literals : Term → List Literal
  | .literal written => [written]
  | .call _ args _ _ => args.literals

def Args.literals : Args → List Literal
  | .nil => []
  | .cons _ value rest => value.literals ++ rest.literals

end

def Setting.literals : Setting → List Literal
  | flag => []
  | assigned value => value.literals
  | call args _ => args.literals

def CommentLine.literals (line : CommentLine) : List Literal :=
  line.decorators.flatMap fun decorator => decorator.setting.literals

def Node.literals (node : Node) : List Literal :=
  ((node.item?.bind Item.value).map Term.literals).getD [] ++
    node.comments.flatMap CommentLine.literals

def Document.literals (document : Document) : List Literal := document.nodes.flatMap Node.literals

/-! ## Literals that are built for a text -/

def Literal.IsBuilt (literal : Literal) : Prop :=
  ∀ quote, literal.quote = some quote → quote.isTriple = false →
    ∃ text, literal = .quoted text quote

def AreBuilt (literals : List Literal) : Prop := ∀ literal ∈ literals, literal.IsBuilt

theorem areBuilt_nil : AreBuilt [] := fun _ member => nomatch member

theorem areBuilt_append (front back : List Literal) :
    AreBuilt (front ++ back) ↔ AreBuilt front ∧ AreBuilt back := List.forall_mem_append

theorem areBuilt_flatMap {α : Type} (list : List α) (literals : α → List Literal) :
    AreBuilt (list.flatMap literals) ↔ ∀ entry ∈ list, AreBuilt (literals entry) :=
  List.forall_mem_flatMap

namespace Literal

theorem isBuilt_quoted (text : Text) (quote : Quote) : (quoted text quote).IsBuilt := by
  intro other same _
  cases same
  exact ⟨text, rfl⟩

theorem isBuilt_of_unquoted {literal : Literal} (unquoted : literal.quote = none) :
    literal.IsBuilt := by
  intro quote isQuote
  rw [unquoted] at isQuote
  cases isQuote

theorem isBuilt_of_triple {literal : Literal} {quote : Quote}
    (isQuote : literal.quote = some quote) (triple : quote.isTriple = true) : literal.IsBuilt := by
  intro other same single
  rw [isQuote] at same
  cases same
  rw [triple] at single
  cases single

theorem IsBuilt.quoted_content {literal : Literal} (built : literal.IsBuilt) {quote : Quote}
    (isQuote : literal.quote = some quote) (single : quote.isTriple = false) :
    quoted literal.content quote = literal := by
  obtain ⟨text, rfl⟩ := built quote isQuote single
  rw [content_quoted]

end Literal

/-! ## Values -/

namespace Scan

theorem quotedLiteral_isBuilt {quote : Quote} {text rest : Text} {literal : Literal}
    (opens : text.head?.bind Quote.ofMark? = some quote)
    (found : quotedLiteral quote text = some (literal, rest)) : literal.IsBuilt := by
  obtain ⟨c, first, mark⟩ := Option.bind_eq_some_iff.mp opens
  obtain ⟨rfl, single⟩ := ofMark?_mark c quote mark
  obtain ⟨body, -, rfl, -⟩ := (quotedLiteral_eq_some_iff single text literal rest first).mp found
  exact Literal.isBuilt_quoted body quote

theorem call_ne_literal (fuel : Nat) (text : Text) (literal : Literal) (rest : Text) :
    call fuel text ≠ some (.literal literal, rest) := by
  intro found
  cases fuel with
  | zero =>
    simp only [call] at found
    cases found
  | succ fuel =>
    simp only [call] at found
    split at found
    · split at found <;> cases found
    · cases found

theorem bareArgument_isBuilt {text rest : Text} {literal : Literal}
    (found : bareArgument text = some (literal, rest)) : literal.IsBuilt := by
  simp only [bareArgument] at found
  split at found <;> cases found
  exact Literal.isBuilt_of_unquoted rfl

theorem argument_isBuilt {fuel : Nat} {text rest : Text} {literal : Literal}
    (found : argument fuel text = some (.literal literal, rest)) : literal.IsBuilt := by
  cases fuel with
  | zero =>
    simp only [argument] at found
    cases found
  | succ fuel =>
    simp only [argument] at found
    split at found
    · rename_i quote opens
      obtain ⟨_, quoted, same⟩ := Option.map_eq_some_iff.mp found
      cases same
      exact quotedLiteral_isBuilt opens quoted
    · split at found
      · rename_i called
        cases found
        exact absurd called (call_ne_literal fuel text literal rest)
      · obtain ⟨_, bare, same⟩ := Option.map_eq_some_iff.mp found
        cases same
        exact bareArgument_isBuilt bare

end Scan

section
variable {inside : Char → Prop}

theorem Literal.IsArgument.isBuilt {literal : Literal} (form : literal.IsArgument inside) :
    literal.IsBuilt :=
  Scan.argument_isBuilt (form.again _ (Nat.le_refl _) [')'] (.close []))

mutual

theorem Term.areBuilt : ∀ term : Term, term.IsArgument inside → AreBuilt term.literals
  | .literal literal, form => by
    intro other member
    simp only [Term.literals, List.mem_singleton] at member
    subst member
    exact Literal.IsArgument.isBuilt form
  | .call name args argsSource source, form => by
    simp only [Term.literals]
    exact Args.areBuilt args form.2

theorem Args.areBuilt : ∀ args : Args, args.AreArguments inside → AreBuilt args.literals
  | .nil, _ => by
    simp only [Args.literals]
    exact areBuilt_nil
  | .cons key value rest, form => by
    obtain ⟨-, valueForm, restForm⟩ := form
    simp only [Args.literals, areBuilt_append]
    exact ⟨Term.areBuilt value valueForm, Args.areBuilt rest restForm⟩

end

end

theorem Literal.IsBuilt.areBuilt {literal : Literal} (built : literal.IsBuilt) :
    AreBuilt (Term.literal literal).literals := by
  intro other member
  simp only [Term.literals, List.mem_singleton] at member
  rwa [member]

namespace Scan

theorem call_areBuilt {fuel : Nat} {text rest : Text} {term : Term}
    (found : call fuel text = some (term, rest)) : AreBuilt term.literals := by
  have form : term.IsArgument fun _ => True :=
    call_isArgument fuel text term rest (fun _ _ => trivial) found
  exact Term.areBuilt term form

theorem bareValue_areBuilt (text : Text) : AreBuilt (bareValue text).1.literals := by
  have bare : AreBuilt (Term.literal (bareLiteral (toHash text) text).1).literals :=
    (Literal.isBuilt_of_unquoted rfl).areBuilt
  simp only [bareValue]
  split
  · rename_i value rest found
    split
    · exact call_areBuilt found
    · split
      · exact call_areBuilt found
      · exact bare
  · exact bare

end Scan

theorem ReadsValue.areBuilt {first after : Text} {more : List Text} {value : Option Term}
    (read : ReadsValue first more value after) :
    AreBuilt ((value.map Term.literals).getD []) := by
  cases read with
  | whole begins =>
    cases value with
    | none => exact areBuilt_nil
    | some term =>
      obtain ⟨c, rest, rfl, -, -, ⟨quote, literal, opens, found, rfl⟩ | ⟨-, bare⟩⟩ :=
        (Scan.beginning_eq_value first term after).mp begins
      · have marked : (c :: rest).head?.bind Quote.ofMark? = some quote := opens
        exact (Scan.quotedLiteral_isBuilt marked found).areBuilt
      · have built := Scan.bareValue_areBuilt (c :: rest)
        rw [bare] at built
        exact built
  | block opens inside closes =>
    obtain ⟨triple, -⟩ := Scan.opened_of_beginning _ _ opens
    exact (Literal.isBuilt_of_triple rfl triple).areBuilt

/-! ## Comments -/

namespace Scan

theorem Assigns.areBuilt {text rest : Text} {value : Term} (assigns : Assigns text value rest) :
    AreBuilt value.literals := by
  cases assigns with
  | quoted opens read => exact (quotedLiteral_isBuilt opens read).areBuilt
  | call bare read ends => exact call_areBuilt read
  | token bare noCall => exact (Literal.isBuilt_of_unquoted rfl).areBuilt

theorem Sets.areBuilt {text rest : Text} {setting : Setting} (sets : Sets text setting rest) :
    AreBuilt setting.literals := by
  cases sets with
  | flag ends => exact areBuilt_nil
  | assigned starts read ends => exact read.areBuilt
  | @call _ args _ read =>
    have form : args.AreArguments fun _ => True :=
      arguments_areArguments _ _ args _ (fun _ _ => trivial) read
    exact Args.areBuilt args form

theorem comment_areBuilt {opening afterHash : Text} {line : CommentLine}
    (read : comment opening afterHash = .ok line) : AreBuilt line.literals := by
  refine (areBuilt_flatMap _ _).mpr fun decorator member => ?_
  cases line with
  | plain comment => cases member
  | decorated line =>
    obtain ⟨-, -, each, -⟩ := comment_formed opening afterHash line read
    obtain ⟨_, sets⟩ := (each decorator member).2
    exact sets.areBuilt

theorem lineEnd_areBuilt {text tail : Text} {trailing : TrailingComment}
    (read : lineEnd text = .ok (some trailing, tail)) : AreBuilt trailing.comment.literals := by
  simp only [lineEnd] at read
  split at read
  · cases read
  · split at read
    · obtain ⟨found, isComment, same⟩ := (map_eq_ok _ _ _).mp read
      cases same
      exact comment_areBuilt isComment
    · cases read

end Scan

/-! ## Nodes -/

theorem Node.areBuilt_block {run : List CommentLine} (built : ∀ line ∈ run, AreBuilt line.literals)
    (closing : Option Text) : AreBuilt (block run closing).literals :=
  (areBuilt_flatMap _ _).mpr built

theorem Item.ReadFrom.areBuilt {item : Item} {line : Text} {own : List Text}
    (read : item.ReadFrom line own) (above : ∀ line ∈ item.above, AreBuilt line.literals) :
    AreBuilt (Node.item item).literals := by
  obtain ⟨head, first, after, -, value, ends, -⟩ := read
  refine (areBuilt_append _ _).mpr ⟨value.areBuilt, (areBuilt_flatMap _ _).mpr ?_⟩
  intro comment member
  rcases List.mem_append.mp member with isAbove | isTrailing
  · exact above comment isAbove
  · cases trailing : item.trailing with
    | none =>
      rw [trailing] at isTrailing
      cases isTrailing
    | some found =>
      rw [trailing] at isTrailing ends
      rw [List.mem_singleton.mp isTrailing]
      exact Scan.lineEnd_areBuilt ends

section
variable {run next : List CommentLine} {lines : List Text} {nodes : List Node}
  (built : ∀ line ∈ run, AreBuilt line.literals)

include built in
theorem looseBlock_areBuilt : ∀ node ∈ looseBlock run, AreBuilt node.literals := by
  intro node member
  cases run with
  | nil => cases member
  | cons first rest =>
    rw [List.mem_singleton.mp member]
    exact Node.areBuilt_block built none

include built in
theorem Portion.areBuilt (portion : Portion run lines nodes next) :
    (∀ node ∈ nodes, AreBuilt node.literals) ∧ ∀ line ∈ next, AreBuilt line.literals := by
  cases portion with
  | blank isBlank =>
    refine ⟨fun node member => ?_, fun line member => nomatch member⟩
    rcases List.mem_append.mp member with inLoose | isLine
    · exact looseBlock_areBuilt built node inLoose
    · rw [List.mem_singleton.mp isLine]
      exact areBuilt_nil
  | divider isComment read =>
    refine ⟨fun node member => ?_, fun line member => nomatch member⟩
    rw [List.mem_singleton.mp member]
    cases run with
    | nil => exact areBuilt_nil
    | cons first rest => exact Node.areBuilt_block built _
  | comment isComment read =>
    refine ⟨fun node member => (nomatch member), fun line member => ?_⟩
    rcases List.mem_append.mp member with inRun | isNew
    · exact built line inRun
    · rw [List.mem_singleton.mp isNew]
      exact Scan.comment_areBuilt (comment_of_readComment _ _ read)
  | item read =>
    refine ⟨fun node member => ?_, fun line member => nomatch member⟩
    rw [List.mem_singleton.mp member]
    exact read.areBuilt built

include built in
theorem Portions.areBuilt {last : List CommentLine} (portions : Portions run lines nodes last) :
    ∀ node ∈ nodes ++ looseBlock last, AreBuilt node.literals := by
  induction portions with
  | done => exact looseBlock_areBuilt built
  | more first _ ih =>
    obtain ⟨inFirst, next⟩ := first.areBuilt built
    intro node member
    rw [List.append_assoc] at member
    rcases List.mem_append.mp member with isFirst | isLater
    · exact inFirst node isFirst
    · exact ih next node isLater

end

/-! ## Expansion -/

theorem Args.literals_ofList (list : List Arg) :
    (Args.ofList list).literals = list.flatMap fun arg => arg.value.literals := by
  induction list with
  | nil => simp only [ofList, literals, List.flatMap_nil]
  | cons arg rest ih => simp only [ofList, literals, List.flatMap_cons, ih]

namespace Term

theorem literals_applyNamed (name : String) (terms : List Term) :
    (applyNamed name terms).literals = terms.flatMap literals := by
  simp only [applyNamed, apply, literals, Args.positional, Args.literals_ofList, List.flatMap_map]

theorem literals_withSource (source : Text) (term : Term) :
    (term.withSource source).literals = term.literals := by
  cases term <;> simp only [withSource, literals]

theorem areBuilt_text (content : Text) (quote : Quote) : AreBuilt (text content quote).literals :=
  (Literal.isBuilt_quoted content quote).areBuilt

theorem areBuilt_reference (name : Text) : AreBuilt (reference name).literals := by
  rw [reference, literals_applyNamed, List.flatMap_singleton]
  exact areBuilt_text name .double

theorem areBuilt_joined (quote : Quote) (parts : List Term)
    (built : AreBuilt (parts.flatMap literals)) : AreBuilt (joined quote parts).literals := by
  unfold joined
  split
  · exact areBuilt_text [] quote
  · rwa [List.flatMap_singleton] at built
  · rwa [literals_applyNamed]

end Term

theorem Template.areBuilt_terms (quote : Quote) (template : Template) :
    AreBuilt ((template.terms quote).flatMap Term.literals) := by
  induction template with
  | nil => exact areBuilt_nil
  | plain text rest ih =>
    rw [terms, List.flatMap_cons, areBuilt_append]
    exact ⟨Term.areBuilt_text text quote, ih⟩
  | command script rest ih =>
    rw [terms, List.flatMap_cons, areBuilt_append, Term.literals_applyNamed,
      List.flatMap_singleton]
    exact ⟨Term.areBuilt_text script .double, ih⟩
  | reference name rest ih =>
    rw [terms, List.flatMap_cons, areBuilt_append]
    exact ⟨Term.areBuilt_reference name, ih⟩
  | default rule name instead rest ihInstead ih =>
    rw [terms, List.flatMap_cons, areBuilt_append, Term.literals_applyNamed, List.flatMap_cons,
      List.flatMap_singleton, areBuilt_append]
    exact ⟨⟨Term.areBuilt_reference name, Term.areBuilt_joined quote _ ihInstead⟩, ih⟩

theorem Literal.areBuilt_expand? (bare : Bool) (literal : Literal) (term : Term)
    (expanded : literal.expand? bare = some term) : AreBuilt term.literals := by
  unfold expand? at expanded
  split at expanded
  · cases expanded
  · split at expanded
    · dsimp only at expanded
      split at expanded
      · cases expanded
        rw [Term.literals_withSource]
        exact Term.areBuilt_joined _ _ (Template.areBuilt_terms _ _)
      · cases expanded
    · cases expanded

mutual

theorem Term.areBuilt_expand (bare : Bool) :
    ∀ term : Term, AreBuilt term.literals → AreBuilt (term.expand bare).literals
  | .literal literal, built => by
    rw [Term.expand]
    cases expanded : literal.expand? bare with
    | none => exact built
    | some term => exact literal.areBuilt_expand? bare term expanded
  | .call name args argsSource source, built => by
    simp only [Term.expand, Term.literals] at built ⊢
    exact Args.areBuilt_expand bare args built

theorem Args.areBuilt_expand (bare : Bool) :
    ∀ args : Args, AreBuilt args.literals → AreBuilt (args.expand bare).literals
  | .nil, built => by simpa only [Args.expand] using built
  | .cons key value rest, built => by
    simp only [Args.expand, Args.literals, areBuilt_append] at built ⊢
    exact ⟨Term.areBuilt_expand bare value built.1, Args.areBuilt_expand bare rest built.2⟩

end

theorem CommentLine.areBuilt_expand (bare : Bool) {line : CommentLine}
    (built : AreBuilt line.literals) : AreBuilt (line.expand bare).literals := by
  have each := (areBuilt_flatMap _ _).mp built
  rw [literals, decorators_expand]
  refine (areBuilt_flatMap _ _).mpr fun decorator member => ?_
  obtain ⟨written, isWritten, rfl⟩ := List.mem_map.mp member
  have inWritten := each written isWritten
  rw [Decorator.expand]
  generalize written.setting = setting at inWritten ⊢
  cases setting with
  | assigned value => exact Term.areBuilt_expand bare value inWritten
  | flag | call => exact inWritten

theorem Node.areBuilt_expand (bare : Bool) {node : Node} (built : AreBuilt node.literals) :
    AreBuilt (node.expand bare).literals := by
  obtain ⟨inValue, inComments⟩ := (areBuilt_append _ _).mp built
  refine (areBuilt_append _ _).mpr ⟨?_, ?_⟩
  · cases node with
    | item definition =>
      obtain ⟨above, indent, exported, key, beforeEquals, afterEquals, value, trailing⟩ :=
        definition
      cases value with
      | none => exact areBuilt_nil
      | some term => exact Term.areBuilt_expand bare term inValue
    | _ => exact areBuilt_nil
  · rw [comments_expand]
    refine (areBuilt_flatMap _ _).mpr fun line member => ?_
    obtain ⟨written, isWritten, rfl⟩ := List.mem_map.mp member
    exact CommentLine.areBuilt_expand bare ((areBuilt_flatMap _ _).mp inComments written isWritten)

/-! ## Documents -/

theorem Document.areBuilt_of_read (options : ReadOptions) (source : Text) (document : Document)
    (isRead : read options source = .ok document) : AreBuilt document.literals := by
  obtain ⟨written, isWritten, rfl⟩ := (read_eq_ok options source document).mp isRead
  obtain ⟨body, last, portions, isNodes⟩ := portions_of_read source written isWritten
  have noRun : ∀ line ∈ ([] : List CommentLine), AreBuilt line.literals :=
    fun line member => nomatch member
  have built := portions.areBuilt noRun
  rw [← isNodes] at built
  refine (areBuilt_flatMap _ _).mpr ?_
  split
  · intro node member
    obtain ⟨plain, isNode, rfl⟩ := List.mem_map.mp member
    exact Node.areBuilt_expand options.bareNames (built plain isNode)
  · exact built

/-- To build a literal and to take its content are inverse to each other: the content of a literal
that is built is its text, and a literal in quotes on one line that was read, wherever it stands in
a document, is the one that is built for its content. -/
theorem Literal.quoted_content_inverse :
    (∀ text quote, (quoted text quote).content = text) ∧
      ∀ options source document, Document.read options source = .ok document →
        ∀ literal ∈ document.literals, ∀ quote, literal.quote = some quote →
          quote.isTriple = false → quoted literal.content quote = literal := by
  refine ⟨content_quoted, fun options source document isRead literal member quote => ?_⟩
  exact (Document.areBuilt_of_read options source document isRead literal member).quoted_content

/-- A mark behind a backslash in the value of a decorator, and one in a value that expansion takes
apart. -/
theorem Literal.quoted_content_inverse_expanded :
    let source := "# @a='it\\'s'\nA=\"a\\\"$B\"".toList
    let document := (Document.read .standard source).toOption.getD .empty
    let single : Literal := ⟨"'it\\'s'".toList, some .single⟩
    let double : Literal := ⟨"\"a\\\"\"".toList, some .double⟩
    Document.read .standard source = .ok document ∧ single ∈ document.literals ∧
      double ∈ document.literals ∧ quoted single.content .single = single ∧
      quoted double.content .double = double ∧
      (quoted "a\"".toList .double).content = "a\"".toList := by
  intro source document single double
  have isRead : Document.read .standard source = .ok document := by decide +kernel
  have hasSingle : single ∈ document.literals := by decide +kernel
  have hasDouble : double ∈ document.literals := by decide +kernel
  obtain ⟨content, inverse⟩ := quoted_content_inverse
  have each := inverse .standard source document isRead
  exact ⟨isRead, hasSingle, hasDouble, each single hasSingle .single rfl rfl,
    each double hasDouble .double rfl rfl, content _ _⟩

end Dotenv
