import Dotenv.Proofs.Reading.Alone
/-!
# Lines with a bare value

A line for a key is read whatever stands bare behind the equals sign, as long as no hash begins a
comment there. What looks like a call and is none is no fault, but a text like any other.
-/

set_option autoImplicit false

namespace Dotenv

/-! ## Bare values -/

def Text.ProtectsHashes (text : Text) : Prop :=
  ∀ front back, text = front ++ '#' :: back → front.getLast? = some '\\'

namespace Text.ProtectsHashes

variable {text : Text}

theorem behind (start rest : Text) (protects : (start ++ rest).ProtectsHashes)
    (apart : ¬ (start.getLast? = some '\\' ∧ rest.head? = some '#')) : rest.ProtectsHashes := by
  rintro front back rfl
  have last := protects (start ++ front) back (List.append_assoc _ _ _).symm
  cases front with
  | nil =>
    rw [List.append_nil] at last
    exact absurd ⟨last, rfl⟩ apart
  | cons c more => rwa [List.getLast?_append_of_ne_nil _ (List.cons_ne_nil c more)] at last

theorem skipGap (protects : text.ProtectsHashes) : (Text.skipGap text).ProtectsHashes := by
  rw [← Text.gap_append_skipGap text] at protects
  refine behind _ _ protects fun glued => ?_
  cases Text.gap_of_mem_gap text '\\' (List.mem_of_getLast? glued.1)

theorem ne_hash (protects : text.ProtectsHashes) (rest : Text) : text ≠ '#' :: rest := by
  rintro rfl
  cases protects [] rest rfl

theorem toHash (protects : text.ProtectsHashes) : Scan.toHash text = [] := by
  fun_induction Scan.toHash text with
  | case1 => rfl
  | case2 rest ih => exact ih (behind ['\\', '#'] rest protects fun glued => absurd glued.1 (by decide))
  | case3 rest => exact absurd rfl (protects.ne_hash rest)
  | case4 c rest escaped _ ih =>
    refine ih (behind [c] rest protects ?_)
    rintro ⟨slash, hash⟩
    obtain ⟨more, rfl⟩ := List.head?_eq_some_iff.mp hash
    exact escaped more (Option.some.inj slash) rfl

theorem iff_toHash (text : Text) : text.ProtectsHashes ↔ Scan.toHash text = [] := by
  refine ⟨toHash, fun none => ?_⟩
  fun_induction Scan.toHash text with
  | case1 =>
    intro front back isText
    simp at isText
  | case2 rest ih =>
    -- The pair is passed in one step, so the hash in it never stands first in what is left.
    intro front back isText
    cases front with
    | nil => cases isText
    | cons c front =>
      cases front with
      | nil =>
        cases isText
        rfl
      | cons d front =>
        cases isText
        have last := ih none front back rfl
        rw [List.getLast?_cons_cons, List.getLast?_cons, last]
        rfl
  | case3 => cases none
  | case4 c rest _ notHash ih =>
    intro front back isText
    cases front with
    | nil => exact absurd (List.cons.inj isText).1 notHash
    | cons d front =>
      cases isText
      rw [List.getLast?_cons, ih none front back rfl]
      rfl

end Text.ProtectsHashes

instance (text : Text) : Decidable text.ProtectsHashes :=
  decidable_of_iff _ (Text.ProtectsHashes.iff_toHash text).symm

namespace Scan

theorem ne_hash_of_call? (text : Text) (protects : text.ProtectsHashes) (value : Term) (rest : Text)
    (found : call? text = some (value, rest)) (comment : Text) :
    Text.skipGap rest ≠ '#' :: comment := by
  intro hash
  obtain ⟨front, closes⟩ := call?_closes text value rest found
  have whole : text = (value.render ++ Text.gap rest) ++ '#' :: comment := by
    rw [List.append_assoc, ← hash, Text.gap_append_skipGap]
    exact (call_append _ text value rest found).symm
  have last := protects _ comment whole
  rw [closes, List.append_assoc, List.singleton_append,
    List.getLast?_append_of_ne_nil _ (List.cons_ne_nil _ _)] at last
  rcases List.mem_cons.mp (List.mem_of_getLast? last) with isClose | inGap
  · cases isClose
  · cases Text.gap_of_mem_gap rest '\\' inGap

theorem bareValue_whole (text : Text) (protects : text.ProtectsHashes) :
    (bareValue text).1.render = Text.dropEndWhile Text.isGap text ∧
      Text.skipGap (bareValue text).2 = [] := by
  have onlyGap : Text.skipGap (Text.takeEndWhile Text.isGap text) = [] := by
    refine List.dropWhile_eq_nil_iff.mpr fun c member => ?_
    exact List.mem_takeWhile_imp (List.mem_reverse.mp member)
  have literal : bareLiteral (toHash text) text =
      (.bare (Text.dropEndWhile Text.isGap text), Text.takeEndWhile Text.isGap text) := by
    have split := bareLiteral_gap _ (Text.takeEndWhile Text.isGap text)
      (Text.dropEndWhile_dropEndWhile Text.isGap text)
    rwa [onlyGap, Text.dropEndWhile_append, ← protects.toHash] at split
  have bare : (Term.literal (bareLiteral (toHash text) text).1).render =
      Text.dropEndWhile Text.isGap text ∧
        Text.skipGap (bareLiteral (toHash text) text).2 = [] := by
    rw [literal, Term.render]
    exact ⟨rfl, onlyGap⟩
  unfold bareValue
  split
  · rename_i value rest found
    -- Only a hash may go on behind a call, and it would have the closing parenthesis in front.
    split
    · rename_i gapLeft
      obtain ⟨front, closes⟩ := call?_closes text value rest found
      have whole := call_append _ text value rest found
      have isGap := List.dropWhile_eq_nil_iff.mp gapLeft
      refine ⟨?_, gapLeft⟩
      rw [← whole, Text.dropEndWhile_append_of_pos _ _ _ isGap, closes,
        Text.dropEndWhile_cons _ _ _ _ rfl]
      rfl
    · rename_i c comment hash
      rw [if_neg]
      · exact bare
      · rintro rfl
        exact ne_hash_of_call? text protects value rest found comment hash
  · exact bare

end Scan

/-- Whether a value is shown as a text, or missing where the text is empty. -/
def Term.ShowsAs (value : Option Term) (text : Text) : Prop :=
  value.map Term.render = if text = [] then none else some text

theorem Term.ShowsAs.expand {value : Option Term} {text : Text} (shows : ShowsAs value text)
    (bare : Bool) : ShowsAs (value.map (Term.expand bare)) text := by
  have same : Term.render ∘ Term.expand bare = Term.render := funext (Term.render_expand bare)
  rw [ShowsAs, Option.map_map, same]
  exact shows

namespace Scan

theorem beginning_bare (text : Text) (solid : Text.skipGap text = text)
    (protects : text.ProtectsHashes) (unquoted : ∀ c ∈ text.head?, Quote.ofMark? c = none) :
    ∃ value rest, beginning text = .ok (.whole value rest) ∧
      Term.ShowsAs value (Text.dropEndWhile Text.isGap text) ∧ Text.skipGap rest = [] := by
  cases text with
  | nil => exact ⟨none, [], rfl, rfl, rfl⟩
  | cons c more =>
    have noBlock : blockQuote? (c :: more) = none := by
      cases isBlock : blockQuote? (c :: more) with
      | none => rfl
      | some quote =>
        obtain ⟨-, rest, isText⟩ := text_of_blockQuote? _ quote isBlock
        have bare := unquoted c rfl
        cases quote <;> obtain ⟨rfl, -⟩ := List.cons.inj isText <;> cases bare
    have notHash : c ≠ '#' := by
      rintro rfl
      exact protects.ne_hash more rfl
    have filled : Text.dropEndWhile Text.isGap (c :: more) ≠ [] := by
      have kept := Text.dropEndWhile_cons Text.isGap [] more c (Text.solid_of_skipGap _ c more solid)
      rw [List.nil_append] at kept
      rw [kept]
      exact List.cons_ne_nil _ _
    obtain ⟨render, onlyGap⟩ := bareValue_whole (c :: more) protects
    refine ⟨some (bareValue (c :: more)).1, (bareValue (c :: more)).2, ?_, ?_, onlyGap⟩
    · exact (beginning_eq_value _ _ _).mpr ⟨c, more, rfl, notHash, noBlock, .inr ⟨unquoted c rfl, rfl⟩⟩
    · rw [Term.ShowsAs, Option.map_some, render, if_neg filled]

end Scan

/-! ## Lines -/

namespace Scan.Head.IsLegal

variable {head : Scan.Head}

theorem step_bare (legal : head.IsLegal) (text : Text) (protects : text.ProtectsHashes)
    (unquoted : ∀ c ∈ (Text.skipGap text).head?, Quote.ofMark? c = none) (run : List CommentLine)
    (start : Nat) :
    ∃ item, (Position.between run).step start (head.render ++ text) =
        .ok ([.item item], .between []) ∧ item.key = head.key ∧
      Term.ShowsAs item.value (Text.dropEndWhile Text.isGap (Text.skipGap text)) := by
  have isHead := Scan.head_front _ _ _ legal.head_render text
  obtain ⟨value, rest, begins, shows, onlyGap⟩ :=
    Scan.beginning_bare _ (Text.skipGap_skipGap text) protects.skipGap unquoted
  have ends : Scan.lineEnd rest = .ok (none, Text.gap rest) := by
    simp only [Scan.lineEnd, onlyGap]
  let found : Scan.Head := { head with afterEquals := head.afterEquals ++ Text.gap text }
  refine ⟨found.item run value none (Text.gap rest)
    ⟨start, start + Text.width (head.render ++ text)⟩, ?_, rfl, shows⟩
  simp only [Position.step, LineClass.of_head _ _ _ isHead, readItem, isHead, begins, ends, bind,
    Except.bind]
  rfl

end Scan.Head.IsLegal

/-! ## Documents -/

namespace Document

theorem readVerbatim_of_step (source line : Text) (isLine : '\n' ∉ line) (filled : line ≠ [])
    (isSource : Text.unixLines source = line ∨ Text.unixLines source = line ++ ['\n'])
    (node : Node) (steps : (Position.between []).step 0 line = .ok ([node], .between [])) :
    ∃ document, readVerbatim source = .ok document ∧ document.nodes = [node] := by
  have lines : Text.lines (Text.unixLines source) = [line] := by
    rcases isSource with same | same
    · rw [same, Text.lines_single line isLine filled]
    · rw [same, Text.lines_newline line [] isLine]
      rfl
  refine ⟨⟨[node], _⟩, (readVerbatim_eq_ok source _).mpr ⟨?_, rfl⟩, rfl⟩
  rw [lines, Position.finish_cons, steps]
  rfl

/-- A line for a key with a bare value never fails to be read: under every run of comments it is an
item of the key, and so is the whole of a document that has no other line. The item has no value
when nothing but a gap stands behind the equals sign, and else one that is shown as what stands
there, without the gap at its ends. -/
theorem bare_value_read (head : Scan.Head) (legal : head.IsLegal) (text : Text)
    (isLine : '\n' ∉ text) (protects : text.ProtectsHashes)
    (unquoted : ∀ c ∈ (Text.skipGap text).head?, Quote.ofMark? c = none) :
    let line := head.render ++ text
    let shown := Text.dropEndWhile Text.isGap (Text.skipGap text)
    (∀ run start, ∃ item, (Position.between run).step start line =
        .ok ([.item item], .between []) ∧
      item.key = head.key ∧ Term.ShowsAs item.value shown) ∧
    ∀ options source, Text.unixLines source = line ∨ Text.unixLines source = line ++ ['\n'] →
      ∃ document item, read options source = .ok document ∧ document.nodes = [.item item] ∧
        item.key = head.key ∧ Term.ShowsAs item.value shown := by
  intro line shown
  refine ⟨legal.step_bare text protects unquoted, ?_⟩
  intro options source isSource
  obtain ⟨item, steps, isKey, shows⟩ := legal.step_bare text protects unquoted [] 0
  have oneLine : '\n' ∉ line := by
    rw [List.mem_append, not_or]
    exact ⟨legal.not_newline, isLine⟩
  have filled : line ≠ [] := by simp [line, Scan.Head.render]
  obtain ⟨document, verbatim, nodes⟩ :=
    readVerbatim_of_step source line oneLine filled isSource (.item item) steps
  cases expands : options.expand with
  | false =>
    refine ⟨document, item, (read_eq_ok options source document).mpr ⟨document, verbatim, ?_⟩,
      nodes, isKey, shows⟩
    rw [expands]
    rfl
  | true =>
    refine ⟨document.expand options.bareNames, item.expand options.bareNames,
      (read_eq_ok options source _).mpr ⟨document, verbatim, ?_⟩, ?_, isKey,
      shows.expand options.bareNames⟩
    · rw [expands]
      rfl
    · rw [expand, nodes]
      rfl

/-- A call in a call with quotes that nothing closes, and a hash behind a backslash. -/
theorem bare_value_read_malformed :
    let source : Text := "  export K = f(a, g(\"x) \\#y \r\n".toList
    ∃ document item, read .standard source = .ok document ∧ document.nodes = [.item item] ∧
      item.key = ['K'] ∧ item.value.map Term.render = some "f(a, g(\"x) \\#y".toList := by
  intro source
  have legal : Scan.Head.IsLegal ⟨[' ', ' '], some "export ".toList, ['K'], [' '], []⟩ := by
    refine ⟨by decide, ?_, ⟨by decide, by decide⟩, by decide, by decide⟩
    intro word isWord
    cases isWord
    exact ⟨[' '], rfl, List.cons_ne_nil _ _, by decide⟩
  have unquoted : ∀ c ∈ (Text.skipGap " f(a, g(\"x) \\#y ".toList).head?,
      Quote.ofMark? c = none := by
    intro c isFirst
    obtain rfl : 'f' = c := Option.some.inj isFirst
    rfl
  obtain ⟨-, alone⟩ := bare_value_read _ legal " f(a, g(\"x) \\#y ".toList (by decide)
    (by decide) unquoted
  obtain ⟨document, item, isRead, nodes, isKey, shows⟩ :=
    alone .standard source (.inr (by decide +kernel))
  exact ⟨document, item, isRead, nodes, isKey, shows.trans (by decide +kernel)⟩

end Document

end Dotenv
