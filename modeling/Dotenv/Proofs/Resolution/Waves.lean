import Dotenv.Resolution.Evaluation
import Dotenv.Resolver.Builtin
import Mathlib.Algebra.GroupWithZero.Nat
import Mathlib.Data.List.Forall2
/-!
# What a wave is

The waves of items are the items again, cut into parts, and no item of a wave reads or
defines the key of one before it.
-/

set_option autoImplicit false

namespace Dotenv.Waves

variable {α : Type}

/-- A later item that does not read or define the key of an earlier one. -/
def Apart (earlier later : WaveItem) : Prop :=
  earlier.key ≠ later.key ∧ ∃ reads, later.reads = some reads ∧ earlier.key ∉ reads

theorem apart_of_not_breaks (keys : List Text) (item : WaveItem)
    (joins : breaks keys item = false) (earlier : WaveItem) (member : earlier.key ∈ keys) :
    Apart earlier item := by
  unfold breaks at joins
  split at joins
  · cases joins
  · rename_i reads known
    simp only [Bool.or_eq_false_iff, List.contains_eq_mem, decide_eq_false_iff_not,
      List.any_eq_false, decide_eq_true_eq] at joins
    refine ⟨?_, reads, known, ?_⟩
    · intro same
      exact joins.1 (same ▸ member)
    · intro read
      exact joins.2 earlier.key read member

def Independent (view : α → WaveItem) (part : List α) : Prop :=
  part.Pairwise fun earlier later => Apart (view earlier) (view later)

def keys (view : α → WaveItem) (part : List α) : List Text := part.map fun item => (view item).key

theorem Independent.concat (view : α → WaveItem) (wave : List α) (item : α)
    (independent : Independent view wave)
    (joins : ¬ (keys view wave ≠ [] ∧ breaks (keys view wave) (view item))) :
    Independent view (wave ++ [item]) := by
  unfold Independent
  rw [List.pairwise_append]
  refine ⟨independent, List.pairwise_singleton _ _, ?_⟩
  intro earlier member later isItem
  rw [List.mem_singleton] at isItem
  subst isItem
  have member : (view earlier).key ∈ keys view wave :=
    List.mem_map_of_mem member
  have gathered : keys view wave ≠ [] := List.ne_nil_of_mem member
  refine apart_of_not_breaks _ (view later) ?_ (view earlier) member
  exact eq_false_of_ne_true fun ends => joins ⟨gathered, ends⟩

theorem flatten_cut_sizesFrom (view : α → WaveItem) (wave items : List α) :
    (cut (sizesFrom (keys view wave) (items.map view)) (wave ++ items)).flatten =
      wave ++ items := by
  induction items generalizing wave with
  | nil =>
    cases wave with
    | nil => simp [keys, sizesFrom, cut]
    | cons first rest => simp [keys, sizesFrom, cut]
  | cons item rest ih =>
    simp only [List.map_cons, sizesFrom]
    split
    · have cutRest := ih [item]
      simp only [keys, List.map_cons, List.map_nil, List.singleton_append] at cutRest
      simp [keys, cut, cutRest]
    · have cutRest := ih (wave ++ [item])
      simpa [keys] using cutRest

theorem independent_of_mem_cut_sizesFrom (view : α → WaveItem) (wave items : List α)
    (independent : Independent view wave) :
    ∀ part ∈ cut (sizesFrom (keys view wave) (items.map view)) (wave ++ items),
      Independent view part := by
  induction items generalizing wave with
  | nil =>
    cases wave with
    | nil => simp [keys, sizesFrom, cut]
    | cons first rest => simpa [keys, sizesFrom, cut] using independent
  | cons item rest ih =>
    simp only [List.map_cons, sizesFrom]
    split
    · have cutRest := ih [item] (List.pairwise_singleton _ _)
      simp only [keys, List.map_cons, List.map_nil, List.singleton_append] at cutRest
      simpa [keys, cut] using ⟨independent, cutRest⟩
    · rename_i joins
      have cutRest := ih (wave ++ [item]) (independent.concat view wave item joins)
      simpa [keys] using cutRest

theorem forall₂_zip {β : Type} {rel : β → β → Prop} {results results' : List β}
    (same : List.Forall₂ rel results results') (wave : List α) :
    List.Forall₂ (fun entry other => entry.1 = other.1 ∧ rel entry.2 other.2)
      (wave.zip results) (wave.zip results') := by
  induction same generalizing wave with
  | nil =>
    rw [List.zip_nil_right]
    exact .nil
  | cons related _ ih =>
    cases wave with
    | nil => exact .nil
    | cons item wave => exact .cons ⟨rfl, related⟩ (ih wave)

/-! ## How few the waves are

The waves that are planned are ranges of places: they follow each other from the first item to the
last, none is empty, and no item of one reads or defines the key of an item before it there. Each is
as long as it can be, and so no other ranges of this kind are fewer. -/

/-- Ranges that follow each other from one place to another, the end of each not in it. -/
def Follow : Nat → Nat → List (Nat × Nat) → Prop
  | start, stop, [] => start = stop
  | start, stop, (first, last) :: rest => first = start ∧ first ≤ last ∧ Follow last stop rest

/-- A range of places in which every item after the first names the keys that it reads, and neither
defines nor reads the key of an item before it in the range. -/
def IsWave (items : List ItemSchema) (range : Nat × Nat) : Prop :=
  ∀ place item, range.1 < place → place < range.2 → items[place]? = some item →
    ∃ reads, item.value.dependencies = some reads ∧
      ∀ before earlier, range.1 ≤ before → before < place → items[before]? = some earlier →
        earlier.key ≠ item.key ∧ earlier.key ∉ reads

def slice (items : List α) (range : Nat × Nat) : List α :=
  (items.drop range.1).take (range.2 - range.1)

theorem getElem?_slice (items : List α) (range : Nat × Nat) (index : Nat)
    (inside : range.1 + index < range.2) :
    (slice items range)[index]? = items[range.1 + index]? := by
  rw [slice, List.getElem?_take_of_lt (by omega), List.getElem?_drop]

theorem lt_of_getElem?_slice (items : List α) (range : Nat × Nat) (index : Nat) (item : α)
    (found : (slice items range)[index]? = some item) : range.1 + index < range.2 := by
  have inSlice := (List.getElem?_eq_some_iff.mp found).1
  have atMost : (slice items range).length ≤ range.2 - range.1 := List.length_take_le _ _
  omega

theorem pairwise_iff_getElem? (rel : α → α → Prop) (list : List α) :
    list.Pairwise rel ↔ ∀ (before place : Nat) (earlier item : α), before < place →
      list[before]? = some earlier → list[place]? = some item → rel earlier item := by
  rw [List.pairwise_iff_getElem]
  constructor
  · intro pairwise before place earlier item isBefore foundEarlier found
    obtain ⟨inList, rfl⟩ := List.getElem?_eq_some_iff.mp foundEarlier
    obtain ⟨inListToo, rfl⟩ := List.getElem?_eq_some_iff.mp found
    exact pairwise before place inList inListToo isBefore
  · intro each before place inList inListToo isBefore
    exact each before place _ _ isBefore (List.getElem?_eq_getElem inList)
      (List.getElem?_eq_getElem inListToo)

theorem isWave_iff (items : List ItemSchema) (range : Nat × Nat) :
    IsWave items range ↔ Independent WaveItem.ofSchema (slice items range) := by
  rw [Independent, pairwise_iff_getElem?]
  constructor
  · intro isWave before place earlier item isBefore foundEarlier found
    have inside := lt_of_getElem?_slice items range place item found
    rw [getElem?_slice items range before (by omega)] at foundEarlier
    rw [getElem?_slice items range place inside] at found
    obtain ⟨reads, known, apart⟩ :=
      isWave (range.1 + place) item (by omega) inside found
    have differs := apart (range.1 + before) earlier (by omega) (by omega) foundEarlier
    exact ⟨differs.1, reads, known, differs.2⟩
  · intro pairwise place item afterFirst inside found
    have apart : ∀ before earlier, range.1 ≤ before → before < place →
        items[before]? = some earlier → Apart (.ofSchema earlier) (.ofSchema item) := by
      intro before earlier fromFirst isBefore foundEarlier
      have places : range.1 + (before - range.1) = before ∧
          range.1 + (place - range.1) = place := by omega
      refine pairwise (before - range.1) (place - range.1) earlier item (by omega) ?_ ?_
      · rw [getElem?_slice items range _ (by omega), places.1, foundEarlier]
      · rw [getElem?_slice items range _ (by omega), places.2, found]
    -- The first item of the range shows that the keys are known.
    have inItems := (List.getElem?_eq_some_iff.mp found).1
    have first : items[range.1]? = some items[range.1] :=
      List.getElem?_eq_getElem (by omega)
    obtain ⟨-, reads, known, -⟩ := apart range.1 _ (Nat.le_refl _) afterFirst first
    refine ⟨reads, known, fun before earlier fromFirst isBefore foundEarlier => ?_⟩
    obtain ⟨differs, others, alsoKnown, unread⟩ :=
      apart before earlier fromFirst isBefore foundEarlier
    rw [known] at alsoKnown
    cases alsoKnown
    exact ⟨differs, unread⟩

/-! ### Ranges and parts -/

theorem Follow.le {start stop : Nat} {ranges : List (Nat × Nat)}
    (follow : Follow start stop ranges) : start ≤ stop := by
  induction ranges generalizing start with
  | nil => exact Nat.le_of_eq follow
  | cons range rest ih =>
    obtain ⟨rfl, ordered, more⟩ := follow
    exact Nat.le_trans ordered (ih more)

theorem Follow.flatten {start stop : Nat} {ranges : List (Nat × Nat)}
    (follow : Follow start stop ranges) (items : List α) :
    (ranges.map (slice items)).flatten = slice items (start, stop) := by
  induction ranges generalizing start with
  | nil =>
    obtain rfl : start = stop := follow
    simp [slice]
  | cons range rest ih =>
    obtain ⟨first, last⟩ := range
    obtain ⟨rfl, ordered, more⟩ := follow
    have atMost := more.le
    have split : stop - first = last - first + (stop - last) := by omega
    have rejoined : first + (last - first) = last := by omega
    rw [List.map_cons, List.flatten_cons, ih more]
    simp only [slice, split, List.take_add, List.drop_drop, rejoined]

theorem follow_rangesFrom (start : Nat) (sizes : List Nat) :
    Follow start (start + sizes.sum) (rangesFrom start sizes) := by
  induction sizes generalizing start with
  | nil => exact (Nat.add_zero start).symm
  | cons size rest ih =>
    refine ⟨rfl, Nat.le_add_right _ _, ?_⟩
    rw [List.sum_cons, ← Nat.add_assoc]
    exact ih (start + size)

theorem lt_of_mem_rangesFrom (start : Nat) (sizes : List Nat) (filled : ∀ size ∈ sizes, 0 < size) :
    ∀ range ∈ rangesFrom start sizes, range.1 < range.2 := by
  induction sizes generalizing start with
  | nil => exact fun _ member => nomatch member
  | cons size rest ih =>
    rw [List.forall_mem_cons] at filled
    simp only [rangesFrom, List.forall_mem_cons]
    exact ⟨Nat.lt_add_of_pos_right filled.1, ih (start + size) filled.2⟩

theorem length_rangesFrom (start : Nat) (sizes : List Nat) :
    (rangesFrom start sizes).length = sizes.length := by
  induction sizes generalizing start with
  | nil => rfl
  | cons size rest ih => simp only [rangesFrom, List.length_cons, ih]

theorem map_slice_rangesFrom (items : List α) (start : Nat) (sizes : List Nat) :
    (rangesFrom start sizes).map (slice items) = cut sizes (items.drop start) := by
  induction sizes generalizing start with
  | nil => rfl
  | cons size rest ih =>
    simp only [rangesFrom, List.map_cons, cut, ih, slice, List.drop_drop, Nat.add_sub_cancel_left]

theorem wavesOf_eq_map_slice (items : List ItemSchema) :
    Resolution.wavesOf items = (plan (items.map WaveItem.ofSchema)).map (slice items) :=
  (map_slice_rangesFrom items 0 _).symm

/-! ### What the planned waves cover -/

theorem sum_sizesFrom (keys : List Text) (items : List WaveItem) :
    (sizesFrom keys items).sum = keys.length + items.length := by
  induction items generalizing keys with
  | nil => cases keys <;> simp [sizesFrom]
  | cons item rest ih =>
    simp only [sizesFrom]
    split
    · simp only [List.sum_cons, ih, List.length_cons, List.length_nil]
      omega
    · simp only [ih, List.length_append, List.length_cons, List.length_nil]
      omega

theorem pos_of_mem_sizesFrom (keys : List Text) (items : List WaveItem) :
    ∀ size ∈ sizesFrom keys items, 0 < size := by
  induction items generalizing keys with
  | nil => cases keys <;> simp [sizesFrom]
  | cons item rest ih =>
    simp only [sizesFrom]
    split
    · rename_i ends
      rw [List.forall_mem_cons]
      exact ⟨List.length_pos_iff.mpr ends.1, ih _⟩
    · exact ih _

/-! ### How many waves there are -/

theorem breaks_mono {keys others : List Text} (included : keys ⊆ others) (item : WaveItem)
    (ends : breaks keys item) : breaks others item := by
  unfold breaks at ends ⊢
  split
  · rfl
  · rename_i reads known
    simp only [known, Bool.or_eq_true, List.contains_eq_mem, decide_eq_true_eq,
      List.any_eq_true] at ends ⊢
    exact ends.imp (fun own => included own)
      fun ⟨read, member, defined⟩ => ⟨read, member, included defined⟩

theorem not_breaks_of_apart (view : α → WaveItem) (wave : List α) (item : WaveItem)
    (filled : keys view wave ≠ []) (apart : ∀ earlier ∈ wave, Apart (view earlier) item) :
    ¬ breaks (keys view wave) item := by
  obtain ⟨first, inWave⟩ := List.exists_mem_of_ne_nil wave fun none => filled (none ▸ rfl)
  obtain ⟨-, reads, known, -⟩ := apart first inWave
  simp only [breaks, known, Bool.or_eq_true, List.contains_eq_mem, decide_eq_true_eq,
    List.any_eq_true, not_or, not_exists, not_and]
  have unread : ∀ key ∈ keys view wave, key ≠ item.key ∧ key ∉ reads := by
    intro key member
    obtain ⟨earlier, inWave, rfl⟩ := List.mem_map.mp member
    obtain ⟨differs, others, alsoKnown, unread⟩ := apart earlier inWave
    rw [known] at alsoKnown
    cases alsoKnown
    exact ⟨differs, unread⟩
  exact ⟨fun defined => (unread _ defined).1 rfl,
    fun key read defined => (unread key defined).2 read⟩

theorem sizesFrom_append (view : α → WaveItem) (wave part rest : List α)
    (independent : Independent view (wave ++ part)) :
    sizesFrom (keys view wave) ((part ++ rest).map view) =
      sizesFrom (keys view (wave ++ part)) (rest.map view) := by
  induction part generalizing wave with
  | nil => rw [List.nil_append, List.append_nil]
  | cons item more ih =>
    have joins : ¬ (keys view wave ≠ [] ∧ breaks (keys view wave) (view item)) := by
      rintro ⟨filled, ends⟩
      refine not_breaks_of_apart view wave (view item) filled (fun earlier member => ?_) ends
      exact (List.pairwise_append.mp independent).2.2 earlier member item List.mem_cons_self
    have moved : wave ++ item :: more = wave ++ [item] ++ more := by
      rw [List.append_assoc, List.singleton_append]
    rw [moved] at independent ⊢
    rw [← ih (wave ++ [item]) independent, List.cons_append, List.map_cons, sizesFrom,
      if_neg joins]
    simp only [keys, List.map_append, List.map_cons, List.map_nil]

theorem length_sizesFrom_mono (items : List WaveItem) {keys others : List Text} (filled : keys ≠ [])
    (included : keys ⊆ others) :
    (sizesFrom keys items).length ≤ (sizesFrom others items).length ∧
      (sizesFrom others items).length ≤ (sizesFrom keys items).length + 1 := by
  have othersFilled : others ≠ [] := by
    rintro rfl
    exact filled (List.subset_nil.mp included)
  induction items generalizing keys others with
  | nil =>
    have single : ∀ gathered : List Text, gathered ≠ [] → (sizesFrom gathered []).length = 1 := by
      intro gathered isFilled
      cases gathered with
      | nil => exact absurd rfl isFilled
      | cons key more => rfl
    rw [single keys filled, single others othersFilled]
    omega
  | cons item rest ih =>
    have added : keys ++ [item.key] ⊆ others ++ [item.key] :=
      List.append_subset.mpr ⟨fun key member => List.mem_append_left _ (included member),
        List.subset_append_right others [item.key]⟩
    have alone (gathered : List Text) : [item.key] ⊆ gathered ++ [item.key] :=
      List.subset_append_right _ _
    simp only [sizesFrom, filled, othersFilled, ne_eq, not_false_eq_true, true_and]
    by_cases ends : breaks keys item
    · rw [if_pos ends, if_pos (breaks_mono included item ends), List.length_cons, List.length_cons]
      omega
    · rw [if_neg ends]
      by_cases endsOther : breaks others item
      · have less := ih (List.cons_ne_nil item.key []) (alone keys) (by simp)
        rw [if_pos endsOther, List.length_cons]
        omega
      · rw [if_neg endsOther]
        exact ih (by simp) added (by simp)

theorem length_sizesFrom_le (keys : List Text) (items : List WaveItem) :
    (sizesFrom keys items).length ≤ (sizesFrom [] items).length + 1 := by
  cases items with
  | nil => cases keys <;> simp [sizesFrom]
  | cons item rest =>
    have fromFirst : sizesFrom [] (item :: rest) = sizesFrom [item.key] rest := by
      simp [sizesFrom]
    rw [fromFirst, sizesFrom]
    split
    · exact Nat.le_refl _
    · exact (length_sizesFrom_mono rest (List.cons_ne_nil item.key [])
        (List.subset_append_right keys [item.key])).2

theorem length_sizes_le (view : α → WaveItem) (parts : List (List α))
    (independent : ∀ part ∈ parts, Independent view part) :
    (sizes (parts.flatten.map view)).length ≤ parts.length := by
  induction parts with
  | nil => exact Nat.le_refl _
  | cons part rest ih =>
    rw [List.forall_mem_cons] at independent
    have gathered : sizes ((part ++ rest.flatten).map view) =
        sizesFrom (keys view part) (rest.flatten.map view) :=
      sizesFrom_append view [] part rest.flatten independent.1
    calc (sizes ((part :: rest).flatten.map view)).length
        = (sizesFrom (keys view part) (rest.flatten.map view)).length := by
          rw [List.flatten_cons, gathered]
      _ ≤ (sizes (rest.flatten.map view)).length + 1 := length_sizesFrom_le _ _
      _ ≤ rest.length + 1 := Nat.succ_le_succ (ih independent.2)

/-- The planned waves are not empty, follow each other from the first item to the last, and are
waves; and there are no fewer ranges of which this holds. -/
theorem plan_fewest (items : List ItemSchema) :
    let waves := plan (items.map WaveItem.ofSchema)
    (∀ range ∈ waves, range.1 < range.2) ∧ Follow 0 items.length waves ∧
      (∀ range ∈ waves, IsWave items range) ∧
      ∀ ranges, Follow 0 items.length ranges → (∀ range ∈ ranges, IsWave items range) →
        waves.length ≤ ranges.length := by
  intro waves
  have covered : (sizes (items.map WaveItem.ofSchema)).sum = items.length := by
    rw [sizes, sum_sizesFrom, List.length_nil, Nat.zero_add, List.length_map]
  refine ⟨?_, ?_, ?_, fun ranges follow areWaves => ?_⟩
  · exact lt_of_mem_rangesFrom 0 _ (pos_of_mem_sizesFrom [] _)
  · have follow := follow_rangesFrom 0 (sizes (items.map WaveItem.ofSchema))
    rwa [covered, Nat.zero_add] at follow
  · intro range member
    have evaluated : slice items range ∈ Resolution.wavesOf items := by
      rw [wavesOf_eq_map_slice]
      exact List.mem_map_of_mem member
    exact (isWave_iff items range).mpr
      (independent_of_mem_cut_sizesFrom WaveItem.ofSchema [] items .nil _ evaluated)
  · have whole : (ranges.map (slice items)).flatten = items := by
      rw [follow.flatten items, slice, Nat.sub_zero, List.drop_zero, List.take_length]
    have independent : ∀ part ∈ ranges.map (slice items), Independent WaveItem.ofSchema part := by
      intro part member
      obtain ⟨range, inRanges, rfl⟩ := List.mem_map.mp member
      exact (isWave_iff items range).mp (areWaves range inRanges)
    have fewest := length_sizes_le WaveItem.ofSchema (ranges.map (slice items)) independent
    rwa [whole, List.length_map, ← length_rangesFrom 0] at fewest

/-- A reference to the first item begins a second wave; the items one by one are three. -/
theorem plan_fewest_reference :
    let bare (c : Char) : Term := .literal (.bare [c])
    let items := (Schema.ofItems (.withBuiltins [])
      [.new ['A'] (some (bare '1')), .new ['B'] (some (.applyNamed "ref" [bare 'A'])),
        .new ['C'] (some (bare '2'))]).1
    let waves := plan (items.map WaveItem.ofSchema)
    let single := [(0, 1), (1, 2), (2, 3)]
    waves = [(0, 1), (1, 3)] ∧ Follow 0 items.length single ∧
      (∀ range ∈ single, IsWave items range) ∧ waves.length ≤ single.length := by
  intro bare items waves single
  have follow : Follow 0 items.length single := by
    simp only [single, Follow]
    decide
  have areWaves : ∀ range ∈ single, IsWave items range := by
    simp only [single, List.forall_mem_cons, List.not_mem_nil, false_implies, implies_true,
      and_true]
    exact ⟨fun place _ _ _ _ => by omega, fun place _ _ _ _ => by omega,
      fun place _ _ _ _ => by omega⟩
  exact ⟨by decide, follow, areWaves, (plan_fewest items).2.2.2 single follow areWaves⟩

end Dotenv.Waves
