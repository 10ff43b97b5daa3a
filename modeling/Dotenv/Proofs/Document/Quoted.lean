import Dotenv.Document.Term
import Dotenv.Proofs.Text.Slices
/-!
# Literals in quotes

A literal in quotes that is built for a text stands for exactly that text.
-/

set_option autoImplicit false

namespace Dotenv

namespace Text

theorem dropStart?_append (start rest : Text) : dropStart? start (start ++ rest) = some rest := by
  induction start with
  | nil => rfl
  | cons c more ih => simp only [List.cons_append, dropStart?, if_true, ih]

theorem dropFinish?_append (front finish : Text) :
    dropFinish? finish (front ++ finish) = some front := by
  rw [dropFinish?, List.reverse_append, dropStart?_append, Option.map_some, List.reverse_reverse]

theorem escape_cons (mark c : Char) (rest : Text) :
    escape mark (c :: rest) = (if c = mark then ['\\', mark] else [c]) ++ escape mark rest := rfl

theorem escape_ne_nil (mark c : Char) (rest : Text) : escape mark (c :: rest) ≠ [] := by
  rw [escape_cons]
  split <;> simp

theorem head?_escape (mark : Char) (slashless : mark ≠ '\\') (text : Text) :
    (escape mark text).head? ≠ some mark := by
  cases text with
  | nil => exact fun none => nomatch none
  | cons c rest =>
    rw [escape_cons]
    split
    · simpa using slashless.symm
    · simpa

theorem unescape_escape (mark : Char) (slashless : mark ≠ '\\') (text : Text) :
    unescape mark (escape mark text) = text := by
  induction text with
  | nil => rfl
  | cons c rest ih =>
    rw [escape_cons]
    by_cases isMark : c = mark
    · rw [if_pos isMark]
      simp only [List.cons_append, List.nil_append, unescape, if_true, ih, isMark]
    · rw [if_neg isMark, List.singleton_append]
      by_cases slash : c = '\\'
      · subst slash
        cases escaped : escape mark rest with
        | nil =>
          rw [escaped] at ih
          rw [← ih]
          rfl
        | cons d more =>
          have differs : d ≠ mark := by
            intro same
            refine head?_escape mark slashless rest ?_
            rw [escaped, List.head?_cons, same]
          rw [escaped] at ih
          simp only [unescape, if_neg differs, ih]
      · rw [unescape, ih]
        exact fun d more same => absurd same slash

theorem unescape_sublist (mark : Char) (text : Text) : (unescape mark text).Sublist text := by
  fun_induction unescape mark text with
  | case1 => exact .slnil
  | case2 rest ih => exact (ih.cons_cons mark).cons '\\'
  | case3 c rest differs ih => exact ih.cons_cons '\\'
  | case4 c rest other ih => exact ih.cons_cons c

theorem head?_unescape (mark : Char) (text : Text) :
    ∀ c ∈ (unescape mark text).head?, c = mark ∨ c ∈ text.head? := by
  intro c first
  fun_cases unescape mark text with
  | case1 => cases first
  | case2 rest =>
    rw [unescape, if_pos rfl] at first
    exact .inl (Option.some.inj first).symm
  | case3 d rest differs =>
    rw [unescape, if_neg differs] at first
    exact .inr first
  | case4 d rest other =>
    rw [unescape] at first
    · exact .inr first
    · exact other

theorem getLast?_unescape (mark : Char) (text : Text) :
    (unescape mark text).getLast? = text.getLast? := by
  fun_induction unescape mark text with
  | case1 => rfl
  | case2 rest ih => rw [List.getLast?_cons, List.getLast?_cons_cons, List.getLast?_cons, ih]
  | case3 c rest differs ih => rw [List.getLast?_cons, List.getLast?_cons, ih]
  | case4 c rest other ih => rw [List.getLast?_cons, List.getLast?_cons, ih]

end Text

theorem Quote.mark_ne_slash (quote : Quote) : quote.mark ≠ '\\' := by
  cases quote <;> decide

theorem Quote.mark_ne_newline (quote : Quote) : quote.mark ≠ '\n' := by
  cases quote <;> decide

namespace Literal

theorem between_append (delimiter inner : Text) :
    between delimiter (delimiter ++ inner ++ delimiter) = inner := by
  have stop : Text.width (delimiter ++ inner ++ delimiter) - Text.width delimiter =
      Text.width delimiter + Text.width inner := by
    rw [Text.width_append, Text.width_append]
    omega
  rw [between, stop, List.append_assoc, Text.slice?_width, Option.getD_some]

theorem withoutEdges_append (inner : Text) : withoutEdges ('\n' :: inner ++ ['\n']) = inner := by
  have front : Text.dropStart? ['\n'] ('\n' :: inner ++ ['\n']) = some (inner ++ ['\n']) :=
    Text.dropStart?_append ['\n'] (inner ++ ['\n'])
  rw [withoutEdges, front, Option.getD_some, Text.dropFinish?_append, Option.getD_some]

theorem content_quoted (text : Text) (quote : Quote) : (quoted text quote).content = text := by
  have unescaped := Text.unescape_escape quote.mark quote.mark_ne_slash text
  cases triple : quote.isTriple with
  | false =>
    simp only [quoted, content, triple, between_append, Bool.false_eq_true, if_false]
    exact unescaped
  | true =>
    have inner : ∀ delimiter body : Text,
        delimiter ++ ['\n'] ++ body ++ ['\n'] ++ delimiter =
          delimiter ++ ('\n' :: body ++ ['\n']) ++ delimiter := by
      intro delimiter body
      simp only [List.append_assoc, List.cons_append, List.nil_append]
    simp only [quoted, content, triple, if_true, inner, between_append, withoutEdges_append]
    exact unescaped

theorem scalar_quoted (text : Text) (quote : Quote) :
    (quoted text quote).scalar = .text text := by
  have content := content_quoted text quote
  rw [scalar]
  exact congrArg Scalar.text content

end Literal

end Dotenv
