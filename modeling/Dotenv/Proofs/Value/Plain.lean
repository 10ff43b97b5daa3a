import Dotenv.Proofs.Template.Reference
import Mathlib.Data.List.DropRight
/-!
# Literals without substitutions

What a literal stands for is part of what was written. Where no dollar sign was written nothing is
substituted, and what the literal stands for is exported as it is, be it a boolean, a number or a
text; a bare literal without a text, and the bare word for undefined, are not exported.
-/

set_option autoImplicit false

namespace Dotenv

/-! ## Trimmed texts -/

namespace Text

theorem trim_sublist (text : Text) : (trim text).Sublist text := by
  have back : (trim text).Sublist (trimStart text) := (List.rdropWhile_prefix isBlank _).sublist
  exact back.trans (List.dropWhile_sublist isBlank)

theorem head?_trim (text : Text) : ∀ c ∈ (trim text).head?, isBlank c = false := by
  intro c first
  obtain ⟨dropped, whole⟩ := List.rdropWhile_prefix isBlank (trimStart text)
  change trim text ++ dropped = trimStart text at whole
  have start : (trimStart text).head? = some c := by
    rw [← whole, List.head?_append, first]
    rfl
  have kept := List.head?_dropWhile_not isBlank text
  rw [show (text.dropWhile isBlank).head? = some c from start] at kept
  exact kept

theorem getLast?_trim (text : Text) : ∀ c ∈ (trim text).getLast?, isBlank c = false := by
  intro c last
  obtain ⟨filled, isLast⟩ := List.mem_getLast?_eq_getLast last
  have kept := List.rdropWhile_last_not isBlank (trimStart text) filled
  rw [isLast]
  exact Bool.not_eq_true _ ▸ kept

theorem trim_eq_self (text : Text) (front : ∀ c ∈ text.head?, isBlank c = false)
    (back : ∀ c ∈ text.getLast?, isBlank c = false) : trim text = text := by
  have starts : trimStart text = text := by
    cases text with
    | nil => rfl
    | cons c rest => exact List.dropWhile_cons_of_neg (by simp [front c rfl])
  rw [trim, starts]
  refine List.rdropWhile_eq_self_iff.mpr ?_
  intro filled
  simp [back _ (List.getLast?_eq_some_getLast filled)]

theorem trim_unescape_trim (mark : Char) (isMark : isBlank mark = false) (text : Text) :
    trim (unescape mark (trim text)) = unescape mark (trim text) := by
  apply trim_eq_self
  · intro c first
    rcases head?_unescape mark _ c first with rfl | first
    · exact isMark
    · exact head?_trim text c first
  · intro c last
    rw [getLast?_unescape] at last
    exact getLast?_trim text c last

theorem dropBytes?_sublist (n : Nat) (text rest : Text) (isRest : dropBytes? n text = some rest) :
    rest.Sublist text := by
  fun_induction dropBytes? n text with
  | case1 text =>
    cases isRest
    exact List.Sublist.refl _
  | case2 => cases isRest
  | case3 n c more fits ih => exact (ih isRest).cons c
  | case4 => cases isRest

theorem takeBytes?_sublist (n : Nat) (text front : Text) (isFront : takeBytes? n text = some front) :
    front.Sublist text := by
  fun_induction takeBytes? n text generalizing front with
  | case1 text =>
    cases isFront
    exact List.nil_sublist _
  | case2 => cases isFront
  | case3 n c more fits ih =>
    obtain ⟨others, isOthers, rfl⟩ := Option.map_eq_some_iff.mp isFront
    exact (ih others isOthers).cons_cons c
  | case4 => cases isFront

theorem slice?_sublist (start stop : Nat) (text part : Text)
    (isPart : slice? start stop text = some part) : part.Sublist text := by
  unfold slice? at isPart
  split at isPart
  · obtain ⟨rest, isRest, isPart⟩ := Option.bind_eq_some_iff.mp isPart
    exact (takeBytes?_sublist _ rest part isPart).trans (dropBytes?_sublist _ text rest isRest)
  · cases isPart

theorem dropStart?_sublist (start text rest : Text) (isRest : dropStart? start text = some rest) :
    rest.Sublist text := by
  fun_induction dropStart? start text with
  | case1 text =>
    cases isRest
    exact List.Sublist.refl _
  | case2 => cases isRest
  | case3 start a more ih => exact (ih isRest).cons a
  | case4 => cases isRest

theorem dropFinish?_sublist (finish text front : Text)
    (isFront : dropFinish? finish text = some front) : front.Sublist text := by
  obtain ⟨rest, isRest, rfl⟩ := Option.map_eq_some_iff.mp isFront
  have reversed := (dropStart?_sublist _ _ rest isRest).reverse
  rwa [List.reverse_reverse] at reversed

end Text

/-! ## What a literal stands for -/

namespace Literal

theorem between_sublist (delimiter raw : Text) : (between delimiter raw).Sublist raw := by
  unfold between
  cases isPart : Text.slice? (Text.width delimiter) (Text.width raw - Text.width delimiter) raw with
  | none => exact List.nil_sublist raw
  | some part => exact Text.slice?_sublist _ _ raw part isPart

theorem withoutEdges_sublist (inner : Text) : (withoutEdges inner).Sublist inner := by
  have front : ((Text.dropStart? ['\n'] inner).getD inner).Sublist inner := by
    cases isRest : Text.dropStart? ['\n'] inner with
    | none => exact List.Sublist.refl inner
    | some rest => exact Text.dropStart?_sublist _ inner rest isRest
  unfold withoutEdges
  generalize (Text.dropStart? ['\n'] inner).getD inner = opened at front ⊢
  dsimp only
  cases isFront : Text.dropFinish? ['\n'] opened with
  | none => exact front
  | some closed => exact (Text.dropFinish?_sublist _ opened closed isFront).trans front

theorem content_sublist (literal : Literal) : literal.content.Sublist literal.raw := by
  unfold content
  cases literal.quote with
  | none => exact (Text.unescape_sublist '#' _).trans (Text.trim_sublist literal.raw)
  | some quote =>
    have inner := between_sublist quote.delimiter literal.raw
    refine (Text.unescape_sublist quote.mark _).trans ?_
    by_cases triple : quote.isTriple = true
    · simp only [if_pos triple]
      exact (withoutEdges_sublist _).trans inner
    · simp only [if_neg triple]
      exact inner

def exported (literal : Literal) : Option Text :=
  if literal.quote = none ∧ (literal.content = [] ∨ literal.content = "undefined".toList) then none
  else some literal.content

theorem trim_content_of_bare (literal : Literal) (bare : literal.quote = none) :
    Text.trim literal.content = literal.content := by
  simp only [content, bare]
  exact Text.trim_unescape_trim '#' (by decide) literal.raw

end Literal

namespace Scalar

structure ReadsAsItself (text : Text) : Prop where
  trimmed : Text.trim text = text
  reads : ofBare text = .text text

inductive IsBare : Scalar → Prop where
  | boolean (b : Bool) : IsBare (.boolean b)
  | number (x : Double) : IsBare (.number x)
  | text (written : Text) (itself : ReadsAsItself written) : IsBare (.text written)

theorem IsBare.ne_undefined {scalar : Scalar} (isBare : scalar.IsBare) : scalar ≠ .undefined := by
  rintro rfl
  cases isBare

end Scalar

namespace Literal

/-- A bare literal is undefined where it has no text or the word for that, and else it is a scalar
that is written as the literal is. -/
theorem scalar_cases (literal : Literal) (bare : literal.quote = none) :
    (literal.content = [] ∨ literal.content = "undefined".toList) ∧ literal.scalar = .undefined ∨
      ¬ (literal.content = [] ∨ literal.content = "undefined".toList) ∧
        literal.scalar.IsBare ∧ literal.scalar.display = literal.content := by
  have trimmed := literal.trim_content_of_bare bare
  simp only [scalar, bare]
  by_cases absent : literal.content = [] ∨ literal.content = "undefined".toList
  · refine .inl ⟨absent, ?_⟩
    rw [Scalar.ofBare]
    simp only [trimmed, if_pos absent]
  · refine .inr ⟨absent, ?_⟩
    obtain ⟨written, defined⟩ := not_or.mp absent
    rcases Scalar.ofBare_cases_of_trimmed literal.content written trimmed defined with
      reads | ⟨word, reads⟩ | ⟨word, reads⟩ | ⟨x, reads, -, -, shown⟩
    · rw [reads]
      exact ⟨.text _ ⟨trimmed, reads⟩, rfl⟩
    · rw [reads, word]
      exact ⟨.boolean true, rfl⟩
    · rw [reads, word]
      exact ⟨.boolean false, rfl⟩
    · rw [reads]
      exact ⟨.number x, shown⟩

theorem exported_scalar (literal : Literal) :
    (Value.ofScalar literal.scalar).exported = literal.exported := by
  unfold exported
  cases bare : literal.quote with
  | some quote =>
    simp only [scalar, bare, Value.ofScalar, reduceCtorEq, false_and, if_false]
    rfl
  | none =>
    simp only [true_and]
    rcases literal.scalar_cases bare with ⟨absent, none⟩ | ⟨written, isBare, display⟩
    · rw [if_pos absent, none]
      rfl
    · rw [if_neg written, ← display]
      generalize literal.scalar = scalar at isBare
      cases isBare <;> rfl

end Literal

/-! ## Where nothing is substituted -/

namespace Template

theorem isPlain_of_push (c : Char) (template : Template) (plain : template.IsPlain) :
    (push c template).IsPlain := by
  cases template <;> exact plain

theorem isPlain_substitutions (bare : Bool) (fuel : Nat) (text : Text) (absent : '$' ∉ text) :
    (substitutions bare fuel text).IsPlain := by
  induction fuel generalizing text with
  | zero => exact trivial
  | succ fuel ih =>
    cases text with
    | nil => exact trivial
    | cons c rest =>
      obtain ⟨differs, others⟩ := not_or.mp (mt List.mem_cons.mpr absent)
      rw [substitutions, if_neg (Ne.symm differs)]
      exact isPlain_of_push c _ (ih rest others)

theorem isPlain_ofText (bare : Bool) (text : Text) (absent : '$' ∉ text) :
    (ofText bare text).IsPlain := by
  have plain := isPlain_substitutions bare text.length text absent
  rw [ofText, splitCommands_of_not_mem _ text (Nat.le_refl _) absent]
  change ((substitutions bare text.length text).append .nil).IsPlain
  generalize substitutions bare text.length text = template at plain
  induction template with
  | nil => exact trivial
  | plain text rest ih => exact ih plain
  | command | reference | default => cases plain

theorem noCall_of_isPlain (quote : Quote) (template : Template) (plain : template.IsPlain) :
    (template.terms quote).any Term.isCall = false := by
  induction template with
  | nil => rfl
  | plain text rest ih => exact ih plain
  | command | reference | default => cases plain

end Template

theorem Term.isCall_withSource (source : Text) (term : Term) :
    (term.withSource source).isCall = term.isCall := by
  cases term <;> rfl

namespace Literal

/-- A literal in which nothing is substituted: single quotes, or no dollar sign. -/
def IsFixed (literal : Literal) : Prop := literal.quote = some .single ∨ '$' ∉ literal.raw

instance (literal : Literal) : Decidable literal.IsFixed :=
  inferInstanceAs (Decidable (literal.quote = some .single ∨ '$' ∉ literal.raw))

theorem content_of_scalar (literal : Literal) (text : Text)
    (isText : literal.scalar = .text text) : literal.content = text := by
  cases bare : literal.quote with
  | some quote =>
    simp only [scalar, bare, Scalar.text.injEq] at isText
    exact isText
  | none =>
    rcases literal.scalar_cases bare with ⟨-, none⟩ | ⟨-, -, display⟩
    · cases none.symm.trans isText
    · rw [← display, isText, Scalar.display]

theorem expand?_of_isFixed (bare : Bool) (literal : Literal) (isFixed : literal.IsFixed) :
    literal.expand? bare = none := by
  unfold expand?
  split
  · rfl
  · rename_i substituted
    split
    · rename_i text isText
      have absent : '$' ∉ text := by
        rcases isFixed with single | absent
        · simp [isVerbatim, single] at substituted
        · rw [← literal.content_of_scalar text isText]
          exact fun member => absent (literal.content_sublist.subset member)
      have noCall := Template.noCall_of_isPlain (literal.quote.getD .double) _
        (Template.isPlain_ofText bare text absent)
      simp only [noCall, Bool.false_eq_true, if_false]
    · rfl

theorem isCall_of_expand? (bare : Bool) (literal : Literal) (term : Term)
    (expanded : literal.expand? bare = some term) : term.isCall = true := by
  unfold expand? at expanded
  split at expanded
  · cases expanded
  · split at expanded
    · simp only [Option.ite_none_right_eq_some] at expanded
      obtain ⟨hasCall, isTerm⟩ := expanded
      rw [← Option.some.inj isTerm, Term.isCall_withSource]
      exact Term.isCall_joined _ _ hasCall
    · cases expanded

end Literal

end Dotenv
