import Dotenv.Proofs.Keyed
import Dotenv.Proofs.Secret.Traffic
import Dotenv.Secret.Timeline
/-!
# Isolation

A source is fair when its answer to several keys gives each of them what it would give to the key
alone. Behind a coalescer, a request for a key of a fair source is then answered as if it had been
the only one: it does not matter which other keys were fetched with it, and when.
-/

set_option autoImplicit false

namespace Dotenv

/-! ## Fair sources -/

namespace Source

variable {source : Source} {key : Text} {keys : List Text}

/-- A source that always answers or refuses, and whose answer to several keys gives each of them
what a request for it alone would give. -/
structure IsFair (source : Source) : Prop where
  responds : ∀ keys, source.fetch keys ≠ .dropped
  agrees : ∀ keys replies, 1 < keys.length → source.fetch keys = .answered replies →
    ∀ key ∈ keys, source.pick replies key = source.alone key

theorem gather_single (source : Source) (key : Text) :
    (source.gather [key]).replies key = source.alone key := by
  simp only [gather, alone]
  cases source.fetch [key] <;> simp

theorem IsFair.gather_reply (fair : source.IsFair) (member : key ∈ keys) :
    (source.gather keys).replies key = source.alone key := by
  by_cases several : 1 < keys.length
  · simp only [gather]
    cases fetched : source.fetch keys with
    | answered replies => exact fair.agrees keys replies several fetched key member
    | refused error =>
      simp only
      rw [if_pos several]
    | dropped => exact absurd fetched (fair.responds keys)
  · have single : keys = [key] := by
      cases keys with
      | nil => cases member
      | cons first rest =>
        rw [List.length_cons] at several
        have none : rest = [] := List.length_eq_zero_iff.mp (by omega)
        subst none
        rw [List.mem_singleton.mp member]
    rw [single]
    exact gather_single source key

def fetches (source : Source) (keys : List Text) (replies : Text → Reply) : Prop :=
  replies = (source.gather keys).replies

end Source

namespace Vault

variable {vault : Vault}

theorem fetch_answered {keys : List Text} {replies : Keyed Reply}
    (fetched : vault.fetch keys = .answered replies) :
    isAmong vault.abort keys = false ∧ isAmong vault.poison keys = false ∧
      replies = keys.filterMap fun key => (vault.reply? key).map fun reply => (key, reply) := by
  unfold fetch at fetched
  split at fetched
  · cases fetched
  · rename_i noAbort
    split at fetched
    · cases fetched
    · rename_i noPoison
      cases fetched
      exact ⟨by simpa using noAbort, by simpa using noPoison, rfl⟩

theorem isAmong_single {bad : Option Text} {key : Text} {keys : List Text} (member : key ∈ keys)
    (good : isAmong bad keys = false) : isAmong bad [key] = false := by
  cases bad with
  | none => rfl
  | some other =>
    simp only [isAmong, Option.any_some, List.contains_eq_mem, decide_eq_false_iff_not] at good ⊢
    intro same
    exact good (List.mem_singleton.mp same ▸ member)

theorem source_isFair (vault : Vault) (responds : vault.abort = none) : vault.source.IsFair where
  responds := by
    intro keys
    have goesOn : isAmong vault.abort keys = false := by
      rw [responds]
      rfl
    simp only [source, fetch, goesOn, Bool.false_eq_true, if_false]
    cases isAmong vault.poison keys <;> simp
  agrees := by
    intro keys replies _ fetched key member
    obtain ⟨noAbort, noPoison, rfl⟩ := fetch_answered fetched
    have alone : vault.fetch [key] = .answered ([key].filterMap fun key =>
        (vault.reply? key).map fun reply => (key, reply)) := by
      simp only [fetch, isAmong_single member noAbort, isAmong_single member noPoison,
        Bool.false_eq_true, if_false]
    have fetchedAlone : vault.source.fetch [key] = _ := alone
    simp only [Source.alone, fetchedAlone, Source.pick, Keyed.get?_filterMap, if_pos member,
      List.mem_singleton, if_true]

end Vault

/-! ## Requests -/

namespace Coalescer

variable {Ticket : Type}

theorem mem_keys_of_mem_requests {batch : Batch Ticket} {key : Text} {ticket : Ticket}
    (member : (key, ticket) ∈ requests batch) : key ∈ Keyed.keys batch := by
  simp only [requests, List.mem_flatMap, List.mem_map, Prod.mk.injEq] at member
  obtain ⟨entry, present, _, -, rfl, -⟩ := member
  exact List.mem_map_of_mem present

end Coalescer

namespace Traffic

variable {source : Source} {keeps : Bool} {traffic next : Traffic} {incident : Incident}

/-- Every reply, and every value at hand, is what a request for the key alone would give. -/
structure Isolated (source : Source) (traffic : Traffic) : Prop where
  answered : ∀ ticket reply, (ticket, reply) ∈ traffic.answered →
    ∃ key, traffic.asked[ticket]? = some key ∧ reply = source.alone key
  kept : ∀ key value, traffic.coalescer.held? key = some value → source.alone key = .ok value

theorem idle_isolated (source : Source) (keeps : Bool) : (idle keeps).Isolated source where
  answered := by
    intro ticket reply member
    cases member
  kept := by
    intro key value found
    cases keeps <;> cases found

theorem Isolated.answered_append (isolated : traffic.Isolated source) (other : Text) (ticket : Nat)
    (reply : Reply) (member : (ticket, reply) ∈ traffic.answered) :
    ∃ key, (traffic.asked ++ [other])[ticket]? = some key ∧ reply = source.alone key := by
  obtain ⟨key, found, isReply⟩ := isolated.answered ticket reply member
  exact ⟨key, asked_append other found, isReply⟩

theorem Isolated.step (fair : source.IsFair) (sound : traffic.Sound)
    (isolated : traffic.Isolated source) (taken : Step source.fetches traffic incident next) :
    next.Isolated source := by
  cases taken with
  | held key got =>
    obtain ⟨atHand, rfl⟩ := Coalescer.held_of_get got
    refine ⟨fun ticket reply member => ?_, isolated.kept⟩
    rcases List.mem_append.mp member with earlier | now
    · exact isolated.answered_append key ticket reply earlier
    · obtain ⟨rfl, rfl⟩ := Prod.mk.inj (List.mem_singleton.mp now)
      exact ⟨key, List.getElem?_concat_length, (isolated.kept key _ atHand).symm⟩
  | joined key got =>
    obtain ⟨-, rfl⟩ := Coalescer.joined_of_get got
    exact ⟨isolated.answered_append key, isolated.kept⟩
  | fired runs flushed =>
    cases flushed
    exact ⟨isolated.answered, isolated.kept⟩
  | finished front back replies flies fetched completed =>
    rename_i batch answers coalescer
    cases completed
    obtain rfl : replies = (source.gather batch.keys).replies := fetched
    refine ⟨fun ticket reply member => ?_, fun key value found => ?_⟩
    · rcases List.mem_append.mp member with earlier | now
      · exact isolated.answered ticket reply earlier
      · obtain ⟨key, isRequest, rfl⟩ := (Coalescer.mem_answers _ _ ticket reply).mp now
        have inFlight : (key, ticket) ∈ traffic.unanswered := by
          refine List.mem_append_right _ (List.mem_flatMap.mpr ⟨batch, ?_, isRequest⟩)
          rw [flies]
          exact List.mem_append_right _ List.mem_cons_self
        exact ⟨key, sound.keyed _ inFlight,
          fair.gather_reply (Coalescer.mem_keys_of_mem_requests isRequest)⟩
    · simp only [Coalescer.held?] at found
      obtain ⟨cache, isCache, found⟩ := Option.bind_eq_some_iff.mp found
      obtain ⟨before, wasCache, rfl⟩ := Option.map_eq_some_iff.mp isCache
      rw [Coalescer.get?_keepAll, Option.or_eq_some_iff] at found
      rcases found with fresh | ⟨-, kept⟩
      · split at fresh
        · rename_i member
          rw [← fair.gather_reply member]
          cases reply : (source.gather batch.keys).replies key with
          | ok other =>
            rw [reply] at fresh
            cases fresh
            rfl
          | error error =>
            rw [reply] at fresh
            cases fresh
        · cases fresh
      · refine isolated.kept key value ?_
        rw [Coalescer.held?, wasCache]
        exact kept

theorem Reachable.isolated (fair : source.IsFair)
    (reached : Reachable source.fetches keeps traffic) : traffic.Isolated source := by
  induction reached with
  | start => exact idle_isolated source keeps
  | step before taken ih => exact ih.step fair before.sound taken

theorem reachable_single (source : Source) (keeps : Bool) (key : Text) :
    ∃ traffic, Reachable source.fetches keeps traffic ∧ traffic.asked = [key] ∧
      traffic.answered = [(0, source.alone key)] := by
  have misses : (idle keeps).coalescer.get key 0 =
      (.joined true,
        { (idle keeps).coalescer with waiting := [(key, [0])], scheduled := true }) := by
    cases keeps <;> rfl
  have opened : Reachable source.fetches keeps _ := .step .start (.joined key misses)
  have flying : Reachable source.fetches keeps _ := .step opened (.fired Nat.one_pos rfl)
  have answered : Reachable source.fetches keeps _ :=
    .step flying (.finished [] [] (source.gather [key]).replies rfl rfl rfl)
  refine ⟨_, answered, rfl, ?_⟩
  rw [← source.gather_single key]
  rfl

/-- Behind a coalescer, with or without a cache, a request for a key of a fair source gets the reply
that it would get in a window of its own, whatever other requests there are, and however windows
and fetches lie in time. Vaults are fair. -/
theorem reachable_isolated :
    (∀ vault : Vault, vault.abort = none → vault.source.IsFair) ∧
    ∀ source : Source, source.IsFair → ∀ keeps traffic, Reachable source.fetches keeps traffic →
      ∀ ticket reply, (ticket, reply) ∈ traffic.answered →
        ∃ key, traffic.asked[ticket]? = some key ∧ reply = source.alone key ∧
          ∃ single, Reachable source.fetches keeps single ∧ single.asked = [key] ∧
            single.answered = [(0, reply)] := by
  refine ⟨Vault.source_isFair, ?_⟩
  intro source fair keeps traffic reached ticket reply member
  obtain ⟨key, found, rfl⟩ := (reached.isolated fair).answered ticket reply member
  exact ⟨key, found, rfl, reachable_single source keeps key⟩

/-- A key that makes requests fail shares a window with a good one. -/
theorem reachable_isolated_poison :
    let vault : Vault := ⟨[(['A'], ['1'])], [], some ['P'], none, []⟩
    ∃ traffic, Reachable vault.source.fetches true traffic ∧ vault.source.IsFair ∧
      (0, .ok (.text ['1'])) ∈ traffic.answered ∧
      ∃ single, Reachable vault.source.fetches true single ∧ single.asked = [['A']] ∧
        single.answered = [(0, .ok (.text ['1']))] := by
  intro vault
  have opened : Reachable vault.source.fetches true _ := .step .start (.joined ['A'] rfl)
  have waiting : Reachable vault.source.fetches true _ := .step opened (.joined ['P'] rfl)
  have flying : Reachable vault.source.fetches true _ := .step waiting (.fired Nat.one_pos rfl)
  have reached : Reachable vault.source.fetches true _ :=
    .step flying (.finished [] [] (vault.source.gather [['A'], ['P']]).replies rfl rfl rfl)
  have fair := reachable_isolated.1 vault rfl
  have isAnswered : (0, (vault.source.gather [['A'], ['P']]).replies ['A']) ∈
      Coalescer.answers [(['A'], [0]), (['P'], [1])]
        (vault.source.gather [['A'], ['P']]).replies := List.mem_cons_self
  obtain ⟨key, found, -, single⟩ :=
    reachable_isolated.2 vault.source fair true _ reached 0 _ isAnswered
  cases found
  exact ⟨_, reached, fair, isAnswered, single⟩

end Traffic

end Dotenv
