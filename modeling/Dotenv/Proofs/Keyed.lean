import Dotenv.Keyed
import Mathlib.Data.List.Forall2
import Mathlib.Data.List.Induction
import Mathlib.Data.List.Nodup
import Mathlib.Data.List.Perm.Basic
/-!
# Entries put in and taken out

What is among the entries of a keyed list, and what is found under a key, after entries were put in
or taken out. Keyed lists with values that belong together stay so.
-/

set_option autoImplicit false

namespace Dotenv.Keyed

variable {α : Type}

/-! ## Entries -/

theorem mem_set (key : Text) (value : α) (entries : Keyed α)
    (entry : Text × α) (member : entry ∈ entries.set key value) :
    entry.2 = value ∨ entry ∈ entries := by
  induction entries with
  | nil =>
    simp only [set, List.mem_singleton] at member
    exact .inl (by rw [member])
  | cons first rest ih =>
    obtain ⟨k, old⟩ := first
    simp only [set] at member
    split at member
    · rcases List.mem_cons.mp member with rfl | member
      · exact .inl rfl
      · exact .inr (List.mem_cons_of_mem _ member)
    · rcases List.mem_cons.mp member with rfl | member
      · exact .inr List.mem_cons_self
      · exact (ih member).imp id (List.mem_cons_of_mem _)

theorem mem_setAll (entries : Keyed α) (more : List (Text × α))
    (entry : Text × α) (member : entry ∈ entries.setAll more) :
    entry.2 ∈ more.map Prod.snd ∨ entry ∈ entries := by
  induction more generalizing entries with
  | nil => exact .inr member
  | cons first rest ih =>
    rcases ih (entries.set first.1 first.2) member with found | found
    · exact .inl (List.mem_cons_of_mem _ found)
    · rcases mem_set first.1 first.2 entries entry found with same | found
      · exact .inl (by rw [List.map_cons, same]; exact List.mem_cons_self)
      · exact .inr found

theorem mem_erase (key : Text) (entries : Keyed α) (entry : Text × α)
    (member : entry ∈ entries.erase key) : entry ∈ entries := by
  induction entries with
  | nil => cases member
  | cons first rest ih =>
    obtain ⟨k, value⟩ := first
    simp only [erase] at member
    split at member
    · exact List.mem_cons_of_mem _ member
    · rcases List.mem_cons.mp member with rfl | member
      · exact List.mem_cons_self
      · exact List.mem_cons_of_mem _ (ih member)

theorem mem_of_get? (key : Text) (entries : Keyed α) (value : α)
    (found : entries.get? key = some value) : (key, value) ∈ entries := by
  induction entries with
  | nil => cases found
  | cons first rest ih =>
    obtain ⟨k, other⟩ := first
    simp only [get?] at found
    split at found
    · next same =>
      cases found
      subst same
      exact List.mem_cons_self
    · exact List.mem_cons_of_mem _ (ih found)

/-! ## Values under keys -/

theorem get?_erase_of_ne (key other : Text) (differs : key ≠ other) (entries : Keyed α) :
    (entries.erase key).get? other = entries.get? other := by
  induction entries with
  | nil => rfl
  | cons first rest ih =>
    obtain ⟨k, value⟩ := first
    by_cases same : k = key
    · subst same
      simp only [erase, get?, if_true, if_neg differs]
    · simp only [erase, get?, if_neg same, ih]

theorem get?_filterMap (value? : Text → Option α) (key : Text) (keys : List Text) :
    get? key (keys.filterMap fun other => (value? other).map fun value => (other, value)) =
      if key ∈ keys then value? key else none := by
  induction keys with
  | nil => rfl
  | cons first rest ih =>
    cases found : value? first with
    | some value =>
      simp only [List.filterMap_cons, found, Option.map_some, get?, List.mem_cons]
      by_cases same : first = key
      · rw [if_pos same, if_pos (Or.inl same.symm), ← same, found]
      · rw [if_neg same, ih]
        simp only [Ne.symm same, false_or]
    | none =>
      simp only [List.filterMap_cons, found, Option.map_none, ih, List.mem_cons]
      by_cases same : key = first
      · simp [same, found]
      · simp only [same, false_or]

theorem get?_filterMap_of_found {β : Type} (change : α → Option β) (key : Text)
    (entries : Keyed α) (value : α) (changed : β) (found : entries.get? key = some value)
    (kept : change value = some changed) :
    get? key (entries.filterMap fun entry => (change entry.2).map fun other => (entry.1, other)) =
      some changed := by
  induction entries with
  | nil => cases found
  | cons first rest ih =>
    obtain ⟨k, old⟩ := first
    by_cases same : k = key
    · simp only [get?, if_pos same] at found
      cases found
      simp only [List.filterMap_cons, kept, Option.map_some, get?, if_pos same]
    · simp only [get?, if_neg same] at found
      cases other : change old with
      | none => simpa only [List.filterMap_cons, other, Option.map_none] using ih found
      | some _ =>
        simpa only [List.filterMap_cons, other, Option.map_some, get?, if_neg same] using ih found

theorem set_of_absent (key : Text) (value : α) (entries : Keyed α)
    (absent : entries.get? key = none) : entries.set key value = entries ++ [(key, value)] := by
  induction entries with
  | nil => rfl
  | cons first rest ih =>
    obtain ⟨k, old⟩ := first
    by_cases found : k = key
    · simp only [get?, if_pos found] at absent
      cases absent
    · simp only [get?, if_neg found] at absent
      simp only [set, if_neg found, ih absent, List.cons_append]

theorem set_of_found (key : Text) (value : α) (entries : Keyed α)
    (found : entries.get? key = some value) : entries.set key value = entries := by
  induction entries with
  | nil => cases found
  | cons first rest ih =>
    obtain ⟨k, old⟩ := first
    by_cases same : k = key
    · simp only [get?, if_pos same] at found
      simp only [set, if_pos same, Option.some.inj found]
    · simp only [get?, if_neg same] at found
      simp only [set, if_neg same, ih found]

theorem get?_setAll_of_absent (key : Text) (entries : Keyed α) (more : Keyed α)
    (absent : more.get? key = none) : (entries.setAll more).get? key = entries.get? key := by
  induction more generalizing entries with
  | nil => rfl
  | cons first rest ih =>
    obtain ⟨k, value⟩ := first
    by_cases found : k = key
    · simp only [get?, if_pos found] at absent
      cases absent
    · simp only [get?, if_neg found] at absent
      change (setAll (entries.set k value) rest).get? key = _
      rw [ih (entries.set k value) absent, get?_set, if_neg found]

theorem setAll_set_of_found (key : Text) (value : α) (entries more : Keyed α)
    (absent : more.get? key = none) (found : entries.get? key = some value) :
    entries.setAll (more.set key value) = entries.setAll more := by
  rw [set_of_absent key value more absent, setAll, List.foldl_append]
  change Keyed.set key value (entries.setAll more) = entries.setAll more
  apply set_of_found
  rw [get?_setAll_of_absent key entries more absent]
  exact found

theorem setAll_cons_of_absent (key : Text) (value : α) (entries more : Keyed α)
    (absent : ∀ entry ∈ more, entry.1 ≠ key) :
    setAll ((key, value) :: entries) more = (key, value) :: setAll entries more := by
  induction more generalizing entries with
  | nil => rfl
  | cons first rest ih =>
    obtain ⟨k, other⟩ := first
    have differs : key ≠ k := (absent (k, other) List.mem_cons_self).symm
    have next := ih (set k other entries) fun entry member =>
      absent entry (List.mem_cons_of_mem _ member)
    simp only [setAll, List.foldl_cons, set, if_neg differs] at next ⊢
    exact next

/-! ## Distinct keys -/

theorem keys_set (key : Text) (value : α) (entries : Keyed α) :
    (entries.set key value).keys =
      if key ∈ entries.keys then entries.keys else entries.keys ++ [key] := by
  induction entries with
  | nil => rfl
  | cons first rest ih =>
    obtain ⟨k, old⟩ := first
    by_cases same : k = key
    · simp [set, keys, same]
    · have differs : key ≠ k := fun isFirst => same isFirst.symm
      simp only [keys] at ih
      simp only [set, if_neg same, keys, List.map_cons, ih, List.mem_cons, differs, false_or]
      exact apply_ite (k :: ·) _ _ _

theorem nodup_keys_set (key : Text) (value : α) (entries : Keyed α)
    (distinct : entries.keys.Nodup) : (entries.set key value).keys.Nodup := by
  rw [keys_set]
  split
  · exact distinct
  · rename_i absent
    refine List.nodup_append.mpr ⟨distinct, List.pairwise_singleton _ key, ?_⟩
    rintro other member _ isKey rfl
    exact absent (List.mem_singleton.mp isKey ▸ member)

theorem keys_erase_sublist (key : Text) (entries : Keyed α) :
    (entries.erase key).keys.Sublist entries.keys := by
  induction entries with
  | nil => exact .refl _
  | cons first rest ih =>
    simp only [erase]
    split
    · exact List.sublist_cons_self _ _
    · exact ih.cons_cons first.1

theorem get?_eq_none_iff (key : Text) (entries : Keyed α) :
    entries.get? key = none ↔ key ∉ entries.keys := by
  induction entries with
  | nil => simp [get?, keys]
  | cons first rest ih =>
    obtain ⟨k, value⟩ := first
    by_cases same : k = key
    · simp [get?, keys, same]
    · have differs : key ≠ k := fun isFirst => same isFirst.symm
      simp only [get?, if_neg same, ih, keys, List.map_cons, List.mem_cons, differs, false_or]

theorem get?_erase_self (key : Text) (entries : Keyed α) (distinct : entries.keys.Nodup) :
    (entries.erase key).get? key = none := by
  induction entries with
  | nil => rfl
  | cons first rest ih =>
    obtain ⟨k, value⟩ := first
    obtain ⟨absent, others⟩ := List.nodup_cons.mp distinct
    by_cases same : k = key
    · subst same
      simp only [erase, if_true]
      exact (get?_eq_none_iff k rest).mpr absent
    · simp only [erase, get?, if_neg same, ih others]

theorem get?_of_mem (key : Text) (value : α) (entries : Keyed α) (distinct : entries.keys.Nodup)
    (member : (key, value) ∈ entries) : entries.get? key = some value := by
  induction entries with
  | nil => cases member
  | cons first rest ih =>
    obtain ⟨absent, others⟩ := List.nodup_cons.mp distinct
    rcases List.mem_cons.mp member with rfl | inRest
    · simp only [get?, if_true]
    · have differs : first.1 ≠ key := by
        rintro rfl
        exact absent (List.mem_map.mpr ⟨_, inRest, rfl⟩)
      simp only [get?, if_neg differs, ih others inRest]

theorem ofList_concat (front : List (Text × α)) (entry : Text × α) :
    ofList (front ++ [entry]) = (ofList front).set entry.1 entry.2 :=
  List.foldl_concat _ _ _ _

theorem keys_ofList (entries : List (Text × α)) :
    (ofList entries).keys = (entries.map Prod.fst).eraseDups := by
  induction entries using List.reverseRecOn with
  | nil => rfl
  | append_singleton front entry ih =>
    have kept : (if entry.1 ∈ front.map Prod.fst then [] else [entry.1]) =
        ([entry].map Prod.fst).removeAll (front.map Prod.fst) := by
      by_cases found : entry.1 ∈ front.map Prod.fst <;>
        simp only [List.map_cons, List.map_nil, List.removeAll, List.filter, List.contains_eq_mem,
          found, if_true, if_false, decide_true, decide_false, Bool.not_true, Bool.not_false]
    rw [ofList_concat, keys_set, ih, List.map_append, List.eraseDups_append, ← kept]
    simp only [List.mem_eraseDups]
    split <;> simp [List.eraseDups_cons]

theorem nodup_keys_ofList (entries : List (Text × α)) : (ofList entries).keys.Nodup := by
  induction entries using List.reverseRecOn with
  | nil => exact .nil
  | append_singleton front entry ih =>
    rw [ofList_concat]
    exact nodup_keys_set _ _ _ ih

theorem mem_ofList (key : Text) (value : α) (entries : List (Text × α))
    (member : (key, value) ∈ ofList entries) :
    ∃ front back, entries = front ++ (key, value) :: back ∧ ∀ later ∈ back, later.1 ≠ key := by
  have found := get?_of_mem key value _ (nodup_keys_ofList entries) member
  clear member
  induction entries using List.reverseRecOn with
  | nil => cases found
  | append_singleton front entry ih =>
    rw [ofList_concat, get?_set] at found
    split at found
    · rename_i isKey
      refine ⟨front, [], ?_, fun later none => nomatch none⟩
      rw [← isKey, ← Option.some.inj found]
    · rename_i differs
      obtain ⟨upper, back, rfl, others⟩ := ih found
      refine ⟨upper, back ++ [entry], by simp, ?_⟩
      intro later isLater
      rcases List.mem_append.mp isLater with inBack | isLast
      · exact others later inBack
      · rw [List.mem_singleton.mp isLast]
        exact differs

/-! ## Entries that belong together -/

variable {rel : α → α → Prop}

/-- Entries under the same keys in the same order, with values that belong together. -/
def Alike (rel : α → α → Prop) (entries others : Keyed α) : Prop :=
  List.Forall₂ (fun entry other => entry.1 = other.1 ∧ rel entry.2 other.2) entries others

theorem Alike.get? {entries others : Keyed α} (alike : entries.Alike rel others) (key : Text) :
    Option.Rel rel (entries.get? key) (others.get? key) := by
  induction alike with
  | nil => exact .none
  | @cons first second rest others same _ ih =>
    obtain ⟨k, value⟩ := first
    obtain ⟨k', value'⟩ := second
    obtain ⟨rfl, related⟩ := same
    by_cases found : k = key
    · simp only [Keyed.get?, if_pos found]
      exact .some related
    · simp only [Keyed.get?, if_neg found]
      exact ih

theorem Alike.set {entries others : Keyed α} (alike : entries.Alike rel others) (key : Text)
    {value other : α} (related : rel value other) :
    (entries.set key value).Alike rel (others.set key other) := by
  induction alike with
  | nil => exact .cons ⟨rfl, related⟩ .nil
  | @cons first second rest others same more ih =>
    obtain ⟨k, old⟩ := first
    obtain ⟨k', old'⟩ := second
    obtain ⟨rfl, olds⟩ := same
    by_cases found : k = key
    · simp only [Keyed.set, if_pos found]
      exact .cons ⟨rfl, related⟩ more
    · simp only [Keyed.set, if_neg found]
      exact .cons ⟨rfl, olds⟩ ih

theorem Alike.setAll {entries others more more' : Keyed α} (alike : entries.Alike rel others)
    (moreAlike : more.Alike rel more') :
    (entries.setAll more).Alike rel (others.setAll more') := by
  induction moreAlike generalizing entries others with
  | nil => exact alike
  | @cons first second rest rest' same _ ih =>
    obtain ⟨k, value⟩ := first
    obtain ⟨k', value'⟩ := second
    obtain ⟨rfl, related⟩ := same
    exact ih (alike.set k related)

/-! ## Entries in another order

Two keyed lists that have the same under every key have the same entries, and differ at most in the
order of them. They stay so when the same is put in or taken out, and when their values are changed. -/

variable {β : Type}

structure Reordered (entries others : Keyed α) : Prop where
  distinct : entries.keys.Nodup
  distinctToo : others.keys.Nodup
  same : ∀ key, entries.get? key = others.get? key

theorem mem_iff_get? (entries : Keyed α) (distinct : entries.keys.Nodup) (entry : Text × α) :
    entry ∈ entries ↔ entries.get? entry.1 = some entry.2 :=
  ⟨get?_of_mem entry.1 entry.2 entries distinct, mem_of_get? entry.1 entries entry.2⟩

theorem keys_filterMap_sublist (change : α → Option β) (entries : Keyed α) :
    (keys (entries.filterMap fun entry => (change entry.2).map fun other =>
      (entry.1, other))).Sublist entries.keys := by
  induction entries with
  | nil => exact .slnil
  | cons entry rest ih =>
    cases changed : change entry.2 with
    | none =>
      simp only [List.filterMap_cons, changed, Option.map_none]
      exact ih.cons entry.1
    | some other =>
      simp only [List.filterMap_cons, changed, Option.map_some]
      exact ih.cons_cons entry.1

theorem reordered_of_perm (entries others : Keyed α) (distinct : entries.keys.Nodup)
    (perm : entries.Perm others) : entries.Reordered others := by
  have distinctToo : others.keys.Nodup := (perm.map Prod.fst).nodup distinct
  refine ⟨distinct, distinctToo, fun key => Option.ext fun value => ?_⟩
  calc entries.get? key = some value
    _ ↔ (key, value) ∈ entries := (mem_iff_get? entries distinct (key, value)).symm
    _ ↔ (key, value) ∈ others := perm.mem_iff
    _ ↔ others.get? key = some value := mem_iff_get? others distinctToo (key, value)

namespace Reordered

variable {entries others : Keyed α}

theorem perm (reordered : entries.Reordered others) : entries.Perm others := by
  have nodup := List.Nodup.of_map Prod.fst reordered.distinct
  have nodupToo := List.Nodup.of_map Prod.fst reordered.distinctToo
  refine (List.perm_ext_iff_of_nodup nodup nodupToo).mpr fun entry => ?_
  rw [mem_iff_get? _ reordered.distinct, mem_iff_get? _ reordered.distinctToo, reordered.same]

theorem set (reordered : entries.Reordered others) (key : Text) (value : α) :
    (entries.set key value).Reordered (others.set key value) := by
  refine ⟨nodup_keys_set _ _ _ reordered.distinct, nodup_keys_set _ _ _ reordered.distinctToo, ?_⟩
  intro other
  rw [get?_set, get?_set, reordered.same]

theorem setAll (reordered : entries.Reordered others) (more : List (Text × α)) :
    (entries.setAll more).Reordered (others.setAll more) := by
  induction more generalizing entries others with
  | nil => exact reordered
  | cons first rest ih => exact ih (reordered.set first.1 first.2)

theorem filterMap (reordered : entries.Reordered others) (change : α → Option β) :
    Reordered (entries.filterMap fun entry => (change entry.2).map fun other => (entry.1, other))
      (others.filterMap fun entry => (change entry.2).map fun other => (entry.1, other)) := by
  refine reordered_of_perm _ _ ?_ (reordered.perm.filterMap _)
  exact (keys_filterMap_sublist change entries).nodup reordered.distinct

end Reordered

theorem reordered_set_swap (entries : Keyed α) (distinct : entries.keys.Nodup) (key other : Text)
    (differs : key ≠ other) (value value' : α) :
    ((entries.set key value).set other value').Reordered
      ((entries.set other value').set key value) := by
  refine ⟨nodup_keys_set _ _ _ (nodup_keys_set _ _ _ distinct),
    nodup_keys_set _ _ _ (nodup_keys_set _ _ _ distinct), fun name => ?_⟩
  simp only [get?_set]
  by_cases isKey : key = name
  · rw [if_pos isKey, if_pos isKey, if_neg fun isOther => differs (isKey.trans isOther.symm)]
  · rw [if_neg isKey, if_neg isKey]

theorem reordered_ofList_swap (front back : List (Text × α)) (first second : Text × α)
    (differs : first.1 ≠ second.1) :
    (ofList (front ++ first :: second :: back)).Reordered
      (ofList (front ++ second :: first :: back)) := by
  have swapped := reordered_set_swap (ofList front) (nodup_keys_ofList front) first.1 second.1
    differs first.2 second.2
  simp only [ofList, setAll, List.foldl_append, List.foldl_cons]
  exact swapped.setAll back

end Dotenv.Keyed
