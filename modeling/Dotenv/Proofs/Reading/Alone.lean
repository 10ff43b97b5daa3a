import Dotenv.Proofs.Reading.Settings
/-!
# One item alone

A key, an equals sign and the lines of a value behind it are read as one item of that key with that
value, and nothing else. In front of the value a line has a head, which is found again as it was
written when its gaps are gaps and its key is one.
-/

set_option autoImplicit false

namespace Dotenv

def Document.Defines (document : Document) (key : Text) (value : Term) : Prop :=
  ∃ item, document.nodes = [.item item] ∧ item.key = key ∧ item.value = some value

/-! ## Heads -/

namespace Scan

theorem IsKey.not_newline {key : Text} (isKey : IsKey key) : '\n' ∉ key := by
  intro member
  cases isKey.mem _ member

theorem IsKey.unixLines {key : Text} (isKey : IsKey key) (rest : Text) :
    Text.unixLines (key ++ '=' :: rest) = key ++ '=' :: Text.unixLines rest := by
  have plain : '\r' ∉ key ++ ['='] := by
    intro member
    rcases List.mem_append.mp member with inKey | isEquals
    · cases isKey.mem _ inKey
    · cases List.mem_singleton.mp isEquals
  have front := Text.unixLines_append (key ++ ['=']) rest plain
  simpa using front

/-- A head as it may stand in front of a value: an indent, the word `export` and a gap or nothing,
a key, and a gap on both sides of the equals sign. -/
structure Head.IsLegal (head : Head) : Prop where
  indent : Text.skipGap head.indent = []
  exported : ∀ word ∈ head.exported, ∃ gap, word = "export".toList ++ gap ∧ gap ≠ [] ∧
    Text.skipGap gap = []
  key : IsKey head.key
  beforeEquals : Text.skipGap head.beforeEquals = []
  afterEquals : Text.skipGap head.afterEquals = []

theorem IsKey.ne_nil {key : Text} (isKey : IsKey key) : key ≠ [] := by
  rintro rfl
  cases isKey.1

theorem IsKey.starts {key : Text} (isKey : IsKey key) (rest : Text) :
    startsName (key ++ rest) = true :=
  (startsName_append key rest isKey.ne_nil).trans isKey.1

theorem IsKey.solid {key : Text} (isKey : IsKey key) (rest : Text) :
    Text.skipGap (key ++ rest) = key ++ rest := by
  obtain ⟨c, more, rfl⟩ := List.exists_cons_of_ne_nil isKey.ne_nil
  exact Text.skipGap_cons c _ (not_isGap_of_isKeyChar c (isKey.mem c List.mem_cons_self))

theorem IsKey.takeWhile {key : Text} (isKey : IsKey key) (rest : Text)
    (stops : ∀ c ∈ rest.head?, isKeyChar c = false) : (key ++ rest).takeWhile isKeyChar = key := by
  rw [List.takeWhile_append_of_pos (List.all_eq_true.mp isKey.2)]
  cases rest with
  | nil => exact List.append_nil key
  | cons c more =>
    rw [List.takeWhile_cons_of_neg (by rw [stops c rfl]; exact Bool.false_ne_true),
      List.append_nil]

namespace Head

variable {head : Head}

def sign (head : Head) : Text := head.beforeEquals ++ '=' :: head.afterEquals

theorem render_eq (head : Head) :
    head.render = head.indent ++ (head.exported.getD [] ++ (head.key ++ head.sign)) := by
  simp only [render, sign, List.append_assoc]

namespace IsLegal

theorem skipGap_sign (legal : head.IsLegal) :
    Text.gap head.sign = head.beforeEquals ∧ Text.skipGap head.sign = '=' :: head.afterEquals :=
  Text.gap_append_solid _ _ legal.beforeEquals (Text.skipGap_cons '=' _ rfl)

theorem key_eq (legal : head.IsLegal) :
    (head.key ++ head.sign).takeWhile isKeyChar = head.key := by
  apply legal.key.takeWhile
  intro c first
  rw [sign] at first
  cases before : head.beforeEquals with
  | nil =>
    rw [before] at first
    cases first
    rfl
  | cons d more =>
    rw [before] at first
    cases first
    have isGap := List.dropWhile_eq_nil_iff.mp legal.beforeEquals c (before ▸ List.mem_cons_self)
    exact not_isKeyChar_of_isGap c isGap

theorem exportWord_none (legal : head.IsLegal) :
    exportWord (head.key ++ head.sign) = (none, head.key ++ head.sign) := by
  unfold exportWord
  split
  · rename_i after dropped
    rw [if_neg]
    rintro ⟨gap, starts⟩
    have whole := Scan.dropStart?_append _ _ after dropped
    have isKey := legal.key_eq
    rw [← whole] at isKey
    have wordOnly : ("export".toList ++ after).takeWhile isKeyChar = "export".toList := by
      rw [List.takeWhile_append_of_pos (List.all_eq_true.mp rfl)]
      cases after with
      | nil => rfl
      | cons c more =>
        have isGap : Text.isGap c = true := by
          by_contra solid
          exact gap (List.takeWhile_cons_of_neg solid)
        have notKey := Bool.eq_false_iff.mp (not_isKeyChar_of_isGap c isGap)
        rw [List.takeWhile_cons_of_neg notKey, List.append_nil]
    rw [← wordOnly.symm.trans isKey] at whole
    rw [List.append_cancel_left whole, legal.skipGap_sign.2] at starts
    cases starts
  · rfl

theorem exportWord_eq (legal : head.IsLegal) :
    exportWord (head.exported.getD [] ++ (head.key ++ head.sign)) =
      (head.exported, head.key ++ head.sign) := by
  cases word : head.exported with
  | none => exact legal.exportWord_none
  | some word =>
    obtain ⟨gap, rfl, filled, isGap⟩ := legal.exported _ word
    have split := Text.gap_append_solid gap (head.key ++ head.sign) isGap (legal.key.solid _)
    rw [Option.getD_some, exportWord, List.append_assoc, Text.dropStart?_append]
    simp only [split.1, split.2, legal.key.starts, ne_eq, filled, not_false_eq_true, and_self,
      if_true]

theorem skipGap_render (legal : head.IsLegal) : Text.gap head.render = head.indent ∧
    Text.skipGap head.render = head.exported.getD [] ++ (head.key ++ head.sign) := by
  rw [head.render_eq]
  apply Text.gap_append_solid _ _ legal.indent
  cases word : head.exported with
  | none => exact legal.key.solid _
  | some word =>
    obtain ⟨gap, rfl, -⟩ := legal.exported _ word
    rfl

theorem head_render (legal : head.IsLegal) : Scan.head head.render = .ok (head, []) := by
  have stops : '=' ∈ head.render := by simp [render]
  have isKey : Scan.key (head.key ++ head.sign) = head.key := by
    rw [Scan.key, if_pos (legal.key.starts _), legal.key_eq]
  have isGap := Text.gap_append_solid head.afterEquals [] legal.afterEquals rfl
  rw [← List.append_nil head.render]
  refine (head_stops head.render [] stops head []).mpr ?_
  simp only [legal.skipGap_render, legal.exportWord_eq, isKey, List.drop_left, legal.skipGap_sign]
  exact ⟨legal.key.ne_nil, _, rfl, by rw [isGap.1], isGap.2.symm⟩

theorem not_newline (legal : head.IsLegal) : '\n' ∉ head.render := by
  have noGap : ∀ gap : Text, Text.skipGap gap = [] → '\n' ∉ gap := by
    intro gap isGap member
    cases List.dropWhile_eq_nil_iff.mp isGap '\n' member
  have exported : '\n' ∉ head.exported.getD [] := by
    cases word : head.exported with
    | none => exact List.not_mem_nil
    | some word =>
      obtain ⟨gap, rfl, -, isGap⟩ := legal.exported _ word
      rw [Option.getD_some, List.mem_append, not_or]
      exact ⟨by decide, noGap gap isGap⟩
  simp only [render, List.mem_append, List.mem_cons, not_or]
  exact ⟨⟨⟨⟨noGap _ legal.indent, exported⟩, legal.key.not_newline⟩, noGap _ legal.beforeEquals⟩,
    by decide, noGap _ legal.afterEquals⟩

end IsLegal

end Head

theorem IsKey.legal {key : Text} (isKey : IsKey key) : Head.IsLegal ⟨[], none, key, [], []⟩ := by
  refine ⟨rfl, ?_, isKey, rfl, rfl⟩
  rintro word ⟨⟩

theorem IsKey.head {key : Text} (isKey : IsKey key) (value : Text)
    (solid : Text.skipGap value = value) :
    Scan.head (key ++ '=' :: value) = .ok (⟨[], none, key, [], []⟩, value) := by
  have again := head_solid _ _ _ value isKey.legal.head_render solid
  simpa [Head.render] using again

end Scan

/-! ## Items -/

theorem ReadsValue.alone (bare : Bool) {key first text : Text} (isKey : Scan.IsKey key)
    {own : List Text} {value : Term} (read : ReadsValue first own (some value) [])
    (areLines : Text.AreLines (first :: own))
    (solid : Text.skipGap first = first) (isText : Text.closed (first :: own) = text ++ ['\n'])
    (unix : Text.unixLines text = text) :
    ∃ document, Document.read ⟨false, bare⟩ (key ++ '=' :: text) = .ok document ∧
      document.Defines key value := by
  let item : Item := Item.new key (some value)
  have readFrom : item.ReadFrom (key ++ '=' :: first) own :=
    ⟨⟨[], none, key, [], []⟩, first, [], isKey.head first solid, read, rfl, rfl⟩
  obtain ⟨isLine, ownLines⟩ := (Text.areLines_cons first own).mp areLines
  have itemLines : Text.AreLines ((key ++ '=' :: first) :: own) := by
    refine (Text.areLines_cons _ own).mpr ⟨?_, ownLines⟩
    have notEquals : '\n' ≠ '=' := by decide
    simp [isKey.not_newline, isLine]
  have whole : Text.closed ((key ++ '=' :: first) :: own) = key ++ '=' :: text ++ ['\n'] := by
    rw [Text.closed_cons] at isText ⊢
    simp [isText]
  have areAll : Text.lines (key ++ '=' :: text) = (key ++ '=' :: first) :: own :=
    Text.lines_of_closed _ _ itemLines (Or.inr ⟨whole, readFrom.last_filled⟩)
  -- The item is read from its lines whatever its span is, and the reader puts the span in.
  obtain ⟨placed, finished, same⟩ := (Portions.more (.item readFrom) .done).finish 0
  have sameText : Text.unixLines (key ++ '=' :: text) = key ++ '=' :: text := by
    rw [isKey.unixLines, unix]
  rw [List.append_nil, ← areAll, ← sameText] at finished
  have verbatim := (Document.readVerbatim_eq_ok (key ++ '=' :: text) ⟨placed, _⟩).mpr
    ⟨finished, rfl⟩
  obtain ⟨node, rfl, sameNode⟩ := List.map_eq_singleton_iff.mp same
  have isRead := (Document.read_eq_ok ⟨false, bare⟩ _ _).mpr ⟨_, verbatim, rfl⟩
  cases node with
  | item found =>
    have sameItem := Node.item.inj sameNode
    have sameKey := congrArg Item.key sameItem
    have sameValue := congrArg Item.value sameItem
    exact ⟨_, isRead, found, rfl, sameKey, sameValue⟩
  | _ => cases sameNode

theorem Scan.beginning_defines (bare : Bool) {key text : Text} (isKey : IsKey key) {value : Term}
    (begins : Scan.beginning text = .ok (.whole (some value) [])) (isLine : '\n' ∉ text)
    (solid : Text.skipGap text = text) :
    ∃ document, Document.read ⟨false, bare⟩ (key ++ '=' :: text) = .ok document ∧
      document.Defines key value := by
  refine (ReadsValue.whole begins).alone bare isKey ?_ solid (Text.closed_singleton text) ?_
  · intro line member
    rwa [List.mem_singleton.mp member]
  · exact Text.unixLines_of_line isLine

theorem Scan.beginning_refused (bare : Bool) {key text : Text} (isKey : IsKey key)
    {fault : LineFault} (refused : Scan.beginning text = .error fault) (isLine : '\n' ∉ text)
    (solid : Text.skipGap text = text) :
    Document.read ⟨false, bare⟩ (key ++ '=' :: text) =
      .error (fault.inText (Text.width (key ++ '=' :: text))) := by
  have headIs := isKey.head text solid
  have notNewline : '\n' ∉ key ++ '=' :: text := by
    simp [isKey.not_newline, isLine]
  have sameText := Text.unixLines_of_line notNewline
  have onlyLine := Text.lines_single _ notNewline (by simp)
  have unread : readItem [] (key ++ '=' :: text) 0 = .error fault := by
    simp only [readItem, headIs, refused, bind, Except.bind]
  have stepped : (Position.between []).step 0 (key ++ '=' :: text) =
      .error (fault.inText (Text.width (key ++ '=' :: text))) := by
    simp only [Position.step, LineClass.of_head _ _ _ headIs, unread, Nat.zero_add]
  rw [Document.read, Document.readVerbatim_eq, sameText, onlyLine, Position.finish_cons, stepped]
  rfl

end Dotenv
