import Dotenv.Proofs.Reading.Alone
import Dotenv.Proofs.Reading.Arguments
/-!
# Canonical calls, read again

The call that an item has for its value is written as its tree behind a key and read again: the
call of the same name with the same tree of arguments.
-/

set_option autoImplicit false

namespace Dotenv

namespace Scan

theorem not_blockQuote?_of_startsName (text : Text) (starts : startsName text = true) :
    blockQuote? text = none := by
  cases isBlock : blockQuote? text with
  | none => rfl
  | some quote =>
    obtain ⟨-, rest, rfl⟩ := text_of_blockQuote? text quote isBlock
    cases quote <;> cases starts

theorem startsName_of_call? (text : Text) (value : Term) (rest : Text)
    (found : call? text = some (value, rest)) : startsName text = true := by
  cases starts : startsName text with
  | true => rfl
  | false =>
    rw [call?_of_noName text starts] at found
    cases found

theorem beginning_call (text : Text) (value : Term) (rest : Text)
    (found : call? text = some (value, rest)) (ends : EndsValue rest) :
    beginning text = .ok (.whole (some value) rest) := by
  have starts := startsName_of_call? text value rest found
  have unquoted := ofMark?_of_call text value rest found
  have noBlock := not_blockQuote?_of_startsName text starts
  refine (beginning_eq_value text value rest).mpr ?_
  cases text with
  | nil => cases starts
  | cons c more =>
    refine ⟨c, more, rfl, ?_, noBlock, .inr ⟨unquoted, bareValue_call _ value rest found ends⟩⟩
    rintro rfl
    cases starts

theorem call?_of_beginning (text name : Text) (args : Args) (argsSource source : Option Text)
    (rest : Text)
    (begins : beginning text = .ok (.whole (some (.call name args argsSource source)) rest)) :
    call? text = some (.call name args argsSource source, rest) := by
  obtain ⟨c, more, rfl, -, -, ⟨_, _, _, _, same⟩ | ⟨-, bare⟩⟩ :=
    (beginning_eq_value text _ rest).mp begins
  · cases same
  · simp only [bareValue] at bare
    -- Where the call does not fill the line, the value is bare text and not a call.
    split at bare
    · rename_i value left found
      split at bare
      · rw [found, bare]
      · split at bare
        · rw [found, bare]
        · cases bare
    · cases bare

end Scan

theorem Item.ReadFrom.isArgument {item : Item} {line : Text} {own : List Text}
    (read : item.ReadFrom line own) (areLines : Text.AreLines (line :: own)) {name : Text}
    {args : Args} {argsSource source : Option Text}
    (isCall : item.value = some (.call name args argsSource source)) :
    (Term.call name args argsSource source).IsArgument (· ≠ '\n') := by
  obtain ⟨head, first, after, headIs, value, -, -⟩ := read
  rw [isCall] at value
  cases value with
  | whole begins =>
    have isLine := areLines line List.mem_cons_self
    rw [← Scan.head_append line head first headIs, List.mem_append, not_or] at isLine
    have found := Scan.call?_of_beginning first name args argsSource source after begins
    refine Scan.call_isArgument _ first _ after ?_ found
    rintro c member rfl
    exact isLine.2 member

/-- The canonical text of a call that an item has for its value is read behind any key as the call
of the same name with the same tree of arguments. -/
theorem Document.canonical_call_reread (bare other : Bool) (source : Text) (document : Document)
    (isRead : read ⟨false, bare⟩ source = .ok document) (item : Item)
    (member : item ∈ document.items) (name : Text) (args : Args)
    (argsSource callSource : Option Text)
    (isCall : item.value = some (.call name args argsSource callSource)) (key : Text)
    (isKey : Scan.IsKey key) :
    ∃ found again list text,
      read ⟨false, other⟩ (key ++ '=' :: (Term.call name args argsSource callSource).canonical) =
        .ok found ∧
      found.Defines key (.call name again list text) ∧ again.tree = args.tree := by
  obtain ⟨written, isWritten, rfl⟩ := (read_eq_ok ⟨false, bare⟩ source document).mp isRead
  obtain ⟨line, own, readFrom, areLines⟩ := readFrom_of_mem source written isWritten item
    (mem_nodes_of_mem_items written item member)
  have form := readFrom.isArgument areLines isCall
  have isLine := Term.not_newline _ form
  obtain ⟨isName, argsForm⟩ := form
  have enough : 4 * (Term.call name args argsSource callSource).canonical.length ≤
      Scan.fuelFor (Term.call name args argsSource callSource).canonical := Nat.le_add_right _ 4
  obtain ⟨again, list, text, called, sameTree⟩ := (args.reread argsForm).call isName argsForm
    argsSource callSource _ enough []
  rw [List.append_nil] at called
  have begins := Scan.beginning_call _ _ [] called (.inl rfl)
  have solid : Text.skipGap (Term.call name args argsSource callSource).canonical =
      (Term.call name args argsSource callSource).canonical := by
    rw [Term.canonical_call]
    exact isName.skipGap _
  obtain ⟨found, isFound, defines⟩ := Scan.beginning_defines other isKey begins isLine solid
  exact ⟨found, again, list, text, isFound, defines, sameTree⟩

/-- Arguments with gaps around them: bare text with an equals sign that makes no key, quotes with
marks of the list in them, and a call behind a key. -/
theorem Document.canonical_call_reread_nested :
    let list := "( a =1 ,\"x, )\" , k=g( 'b' ))".toList
    let inner := Term.call ['g'] (.cons none (Term.text ['b'] .single) .nil)
      (some "( 'b' )".toList) (some "g( 'b' )".toList)
    let args := Args.cons none (.literal (.bare "a =1".toList))
      (.cons none (Term.text "x, )".toList .double) (.cons (some ['k']) inner .nil))
    let call := Term.call ['f'] args (some list) (some ('f' :: list))
    let item : Item := { Item.new ['A'] (some call) with span := ⟨0, 31⟩ }
    let document : Document := ⟨[.item item], false⟩
    read ⟨false, true⟩ ("A=f".toList ++ list) = .ok document ∧ item ∈ document.items ∧
      Scan.IsKey ['K'] ∧ call.canonical = "f(a =1, \"x, )\", k=g('b'))".toList ∧
      ∃ found again inside text, read ⟨false, false⟩ (['K'] ++ '=' :: call.canonical) = .ok found ∧
        found.Defines ['K'] (.call ['f'] again inside text) ∧ again.tree = args.tree := by
  intro list inner args call item document
  have isRead : read ⟨false, true⟩ ("A=f".toList ++ list) = .ok document := by decide +kernel
  have member : item ∈ document.items := List.mem_cons_self
  have isKey : Scan.IsKey ['K'] := ⟨rfl, rfl⟩
  have canonical : call.canonical = "f(a =1, \"x, )\", k=g('b'))".toList := by decide +kernel
  exact ⟨isRead, member, isKey, canonical, canonical_call_reread true false _ document isRead item
    member ['f'] args (some list) (some ('f' :: list)) rfl ['K'] isKey⟩

end Dotenv
