import DynamicConfig.Proofs.Versions
import DynamicConfig.Proofs.WholeNumbers
/-!
# Histories

The history of an entry up to a version has its texts from the first changes, as many as the version says
(`MemoryStore.values_history`). The epoch right before its oldest revision leaves out all of them and so goes
on with none, however the store is changed meanwhile. A client that walks through a history (`Walk`) thus
sees each text of the entry once (`Walk.visits_every_text_once`).
-/

namespace DynamicConfig

/-- The texts that changes give to an entry, the oldest first. -/
def textsOf (sets : List (String × String)) (key : String) : List String :=
  (sets.filter (·.1 = key)).map Prod.snd

theorem map_value_revisionsFrom (first : Nat) (sets : List (String × String)) (key : String) :
    (revisionsFrom first sets key).map Revision.value = textsOf sets key := by
  induction sets generalizing first with
  | nil => rfl
  | cons change sets ih =>
    rw [← List.singleton_append, revisionsFrom_append, List.map_append, ih]
    by_cases h : change.1 = key <;> simp [revisionsFrom, textsOf, h]

/-- The revisions up to a version are those of the changes up to it. -/
theorem filter_revisionsFrom (version : Nat) (sets : List (String × String)) (key : String) :
    (revisionsFrom 1 sets key).filter (·.version ≤ version) = revisionsFrom 1 (sets.take version) key := by
  have hsplit := revisionsFrom_append 1 (sets.take version) (sets.drop version) key
  rw [List.take_append_drop] at hsplit
  rw [hsplit, List.filter_append, List.filter_eq_self.2, List.filter_eq_nil_iff.2, List.append_nil]
  · intro revision hmem
    have hle := (version_lt_of_mem_revisionsFrom hmem).1
    have hlength : (sets.take version).length = version ∨ sets.drop version = [] := by
      rw [List.length_take, List.drop_eq_nil_iff]
      omega
    rcases hlength with hlength | hnil
    · simp only [decide_eq_true_eq]
      omega
    · rw [hnil] at hmem
      cases hmem
  · intro revision hmem
    have hlt := (version_lt_of_mem_revisionsFrom hmem).2
    have hlength := List.length_take_le version sets
    simp only [decide_eq_true_eq]
    omega

namespace MemoryStore

/-! ## Epochs -/

/-- Digits are an epoch if their number has 64 bits. -/
theorem readEpoch?_digits {epoch : String} (hne : epoch ≠ "") (hd : epoch.toList.all Char.isDigit = true) :
    readEpoch? epoch =
      if Decimal.ofDigits epoch.toList < versionBound then some (Decimal.ofDigits epoch.toList) else none := by
  obtain ⟨c, rest, hchars⟩ : ∃ c rest, epoch.toList = c :: rest :=
    List.exists_cons_of_ne_nil (by simpa using hne)
  have hc : c ≠ '+' := by
    rintro rfl
    rw [hchars] at hd
    cases hd
  have hempty : epoch.isEmpty = false := by simpa using hne
  rw [readEpoch?, hempty, if_neg (by decide), hchars]
  rw [hchars] at hd
  split
  · rename_i rest' heq
    exact absurd (List.cons.inj heq).1 hc
  · rw [hd]
    rfl

theorem readEpoch?_toString {version : Nat} (h : version < versionBound) :
    readEpoch? (toString version) = some version := by
  have hchars : (toString version).toList = Nat.toDigits 10 version := Nat.toList_repr
  have hne : toString version ≠ "" := by
    rw [ne_eq, ← String.toList_eq_nil_iff, hchars]
    exact Nat.toDigits_ne_nil
  rw [readEpoch?_digits hne, hchars, Decimal.ofDigits_toDigits, if_pos h]
  rw [hchars]
  exact Decimal.all_isDigit_toDigits version

/-! ## What a history has -/

variable {sets : List (String × String)} {key : String}

theorem revisionsUpTo_ofEntries (version : Nat) (key : String) (sets : List (String × String)) :
    (ofEntries sets).revisionsUpTo version key = (revisionsFrom 1 (sets.take version) key).reverse := by
  rw [revisionsUpTo, revisionsOf_ofEntries, List.filter_reverse, filter_revisionsFrom]

theorem history_of_readEpoch? {epoch : String} {version : Nat} (h : readEpoch? epoch = some version) :
    (ofEntries sets).history key epoch =
      ⟨epochBefore (revisionsFrom 1 (sets.take version) key).reverse, (textsOf (sets.take version) key).reverse⟩ := by
  rw [history, h]
  dsimp only
  rw [revisionsUpTo_ofEntries, List.map_reverse, map_value_revisionsFrom]

/-- A history in decimal digits has the texts up to that version, the newest first. -/
theorem values_history {epoch : String} (hne : epoch ≠ "") (hd : epoch.toList.all Char.isDigit = true)
    (hlt : Decimal.ofDigits epoch.toList < versionBound) :
    ((ofEntries sets).history key epoch).values =
      (textsOf (sets.take (Decimal.ofDigits epoch.toList)) key).reverse := by
  rw [history_of_readEpoch? ((readEpoch?_digits hne hd).trans (if_pos hlt))]

/-- A number of more than 64 bits is no version, and what is asked with it has no history. -/
theorem history_of_versionBound_le {epoch : String} (hne : epoch ≠ "") (hd : epoch.toList.all Char.isDigit = true)
    (hge : versionBound ≤ Decimal.ofDigits epoch.toList) (store : MemoryStore) (key : String) :
    store.history key epoch = ⟨"", []⟩ := by
  rw [history, (readEpoch?_digits hne hd).trans (if_neg (Nat.not_lt_of_le hge))]

/-- It has none although the versions of all revisions are less. -/
theorem no_history_of_too_great_epoch :
    let store := ofEntries [("a", "1")]
    let epoch := "18446744073709551616"
    epoch.toList.all Char.isDigit = true ∧
    ((store.revisionsOf "a").filter (·.version ≤ Decimal.ofDigits epoch.toList)).map Revision.value = ["1"] ∧
    store.history "a" epoch = ⟨"", []⟩ := by
  decide +kernel

/-- The history up to the present has all texts. -/
theorem history_present (h : sets.length < versionBound) :
    (ofEntries sets).history key "" =
      ⟨epochBefore (revisionsFrom 1 sets key).reverse, (textsOf sets key).reverse⟩ := by
  have hepoch : readEpoch? "" = some (versionBound - 1) := rfl
  rw [history_of_readEpoch? hepoch, List.take_of_length_le (by omega)]

/-- The epoch before the oldest of some revisions is one less than its version, which is no less than 1. -/
theorem epochBefore_reverse_revisionsFrom (sets : List (String × String)) (key : String) :
    revisionsFrom 1 sets key = [] ∧ epochBefore (revisionsFrom 1 sets key).reverse = "" ∨
      ∃ oldest rest before, revisionsFrom 1 sets key = oldest :: rest ∧ oldest.version = before + 1 ∧
        epochBefore (revisionsFrom 1 sets key).reverse = toString before := by
  cases hrevisions : revisionsFrom 1 sets key with
  | nil => exact .inl ⟨rfl, rfl⟩
  | cons oldest rest =>
    have hone : 1 ≤ oldest.version :=
      (version_lt_of_mem_revisionsFrom (hrevisions ▸ List.mem_cons_self)).1
    refine .inr ⟨oldest, rest, oldest.version - 1, rfl, by omega, ?_⟩
    rw [epochBefore, List.getLast?_reverse]
    rfl

/-- After all texts of an entry there are no more of them, whatever changes have been made since. -/
theorem history_before_oldest {oldest : Revision} {rest : List Revision} {before : Nat}
    (hrevisions : revisionsFrom 1 sets key = oldest :: rest) (hversion : oldest.version = before + 1)
    (hbound : sets.length < versionBound) (later : List (String × String)) :
    (ofEntries (sets ++ later)).history key (toString before) = ⟨"", []⟩ := by
  have hle : before + 1 ≤ sets.length := by
    have hlt := (version_lt_of_mem_revisionsFrom (hrevisions ▸ List.mem_cons_self : oldest ∈ _)).2
    omega
  have hnone : revisionsFrom 1 (sets.take before) key = [] := by
    rw [← filter_revisionsFrom, hrevisions, List.filter_eq_nil_iff]
    have hsorted := List.pairwise_cons.1 (hrevisions ▸ pairwise_revisionsFrom 1 sets key)
    intro revision hmem
    rw [decide_eq_true_iff]
    rcases List.mem_cons.1 hmem with rfl | hmem
    · omega
    · have hlt := hsorted.1 revision hmem
      omega
  rw [history_of_readEpoch? (readEpoch?_toString (by omega)), List.take_append_of_le_length (by omega), hnone,
    ← map_value_revisionsFrom 1, hnone]
  rfl

end MemoryStore

/-! ## Walks -/

/-- A client that walks through the history of an entry, from the present to the past, and the store. -/
structure Walk where
  store : MemoryStore
  /-- The answers so far, the first one first. -/
  answers : List History := []

namespace Walk

/-- What happens to a store and its client. -/
inductive Event
  | set (key value : String)
  | ask

/-- The epoch that the client asks about next: the present, then what it was answered last. After the empty
epoch the walk is over. -/
def next? (walk : Walk) : Option String :=
  match walk.answers.getLast? with
  | none => some ""
  | some answer => if answer.epoch.isEmpty then none else some answer.epoch

def step (key : String) (walk : Walk) : Event → Walk
  | .set other value => { walk with store := walk.store.set other value }
  | .ask =>
    match walk.next? with
    | none => walk
    | some epoch => { walk with answers := walk.answers ++ [walk.store.history key epoch] }

/-- A client that has asked nothing yet, of a store after some changes, and what becomes of them. -/
def after (key : String) (sets : List (String × String)) (events : List Event) : Walk :=
  events.foldl (step key) ⟨MemoryStore.ofEntries sets, []⟩

variable {key : String} {sets : List (String × String)} {walk : Walk}

/-- The client was answered all texts of the entry, and perhaps also that there are no more. -/
structure Underway (key : String) (sets : List (String × String)) (walk : Walk) : Prop where
  store : ∃ later, walk.store = MemoryStore.ofEntries (sets ++ later)
  answers : walk.answers = [(MemoryStore.ofEntries sets).history key ""] ∨
    walk.answers = [(MemoryStore.ofEntries sets).history key "", ⟨"", []⟩]

theorem underway_first_ask (key : String) (sets : List (String × String)) :
    Underway key sets (after key sets [.ask]) where
  store := ⟨[], by rw [List.append_nil]; rfl⟩
  answers := .inl rfl

theorem Underway.set (h : Underway key sets walk) (other value : String) :
    Underway key sets (walk.step key (.set other value)) where
  store := by
    obtain ⟨later, hstore⟩ := h.store
    refine ⟨later ++ [(other, value)], ?_⟩
    rw [← List.append_assoc, MemoryStore.ofEntries_append, ← hstore]
    rfl
  answers := h.answers

theorem next?_of_getLast? {answer : History} (h : walk.answers.getLast? = some answer) :
    walk.next? = if answer.epoch.isEmpty then none else some answer.epoch := by
  rw [next?, h]

theorem step_ask_of_over (h : walk.next? = none) : walk.step key .ask = walk := by
  rw [step, h]

/-- Whoever asks again is answered that there are no more, or does not ask as there was no text at all. -/
theorem Underway.ask (h : Underway key sets walk) (hbound : sets.length < MemoryStore.versionBound) :
    Underway key sets (walk.step key .ask) ∧ (walk.step key .ask).next? = none := by
  obtain ⟨later, hstore⟩ := h.store
  rcases h.answers with hanswers | hanswers
  · have hlast : walk.answers.getLast? = some ((MemoryStore.ofEntries sets).history key "") := by rw [hanswers]; rfl
    have hnext := next?_of_getLast? hlast
    rw [MemoryStore.history_present hbound] at hnext
    dsimp only at hnext
    rcases MemoryStore.epochBefore_reverse_revisionsFrom sets key with
      ⟨hrevisions, hepoch⟩ | ⟨oldest, rest, before, hrevisions, hversion, hepoch⟩
    · rw [hepoch] at hnext
      rw [step_ask_of_over hnext]
      exact ⟨h, hnext⟩
    · have hdigits : (toString before).isEmpty = false := by simp
      rw [hepoch, hdigits, if_neg Bool.false_ne_true] at hnext
      have hstep : walk.step key .ask =
          { walk with answers := [(MemoryStore.ofEntries sets).history key "", ⟨"", []⟩] } := by
        rw [step, hnext]
        dsimp only
        rw [hstore, MemoryStore.history_before_oldest hrevisions hversion hbound, hanswers]
        rfl
      rw [hstep]
      exact ⟨⟨⟨later, hstore⟩, .inr rfl⟩, rfl⟩
  · have hnext : walk.next? = none := next?_of_getLast? (congrArg List.getLast? hanswers)
    rw [step_ask_of_over hnext]
    exact ⟨h, hnext⟩

/-- A walk that has begun stays underway, and once the client has asked again it is over. -/
theorem underway_after (key : String) (hbound : sets.length < MemoryStore.versionBound) (events : List Event) :
    Underway key sets (after key sets (.ask :: events)) ∧
      (.ask ∈ events → (after key sets (.ask :: events)).next? = none) := by
  induction events using List.reverseRecOn with
  | nil => exact ⟨underway_first_ask key sets, fun h => by cases h⟩
  | append_singleton events event ih =>
    have hafter : after key sets (.ask :: (events ++ [event])) = (after key sets (.ask :: events)).step key event :=
      List.foldl_append
    rw [hafter]
    cases event with
    | set other value =>
      refine ⟨ih.1.set other value, fun hmem => ih.2 ?_⟩
      simpa using hmem
    | ask =>
      obtain ⟨hunderway, hover⟩ := ih.1.ask hbound
      exact ⟨hunderway, fun _ => hover⟩

/-- A history in decimal digits of 64 bits has the texts of the entry up to that version, which are those of
the first changes, as many as the digits say, the newest first; in digits of a greater number it has none. The
answered epoch is empty if there are no texts. Otherwise it is the number right before the version of the last
text that is answered: versions are no less than 1. A client that walks through the history is over with it when
it asks for the second time, at the latest, and all its answers together have the texts that the entry had when it
asked first, the newest first, whatever is set meanwhile. -/
theorem visits_every_text_once (sets : List (String × String)) (key : String) :
    (∀ epoch : String, epoch ≠ "" → epoch.toList.all Char.isDigit = true →
      Decimal.ofDigits epoch.toList < MemoryStore.versionBound →
      ((MemoryStore.ofEntries sets).history key epoch).values =
        (((MemoryStore.ofEntries sets).revisionsOf key).filter
          (·.version ≤ Decimal.ofDigits epoch.toList)).reverse.map Revision.value ∧
      ((MemoryStore.ofEntries sets).history key epoch).values =
        (textsOf (sets.take (Decimal.ofDigits epoch.toList)) key).reverse) ∧
    (∀ epoch : String, epoch ≠ "" → epoch.toList.all Char.isDigit = true →
      MemoryStore.versionBound ≤ Decimal.ofDigits epoch.toList →
      (MemoryStore.ofEntries sets).history key epoch = ⟨"", []⟩) ∧
    (∀ epoch : String, (MemoryStore.ofEntries sets).history key epoch = ⟨"", []⟩ ∨
      ∃ oldest ∈ (MemoryStore.ofEntries sets).revisionsOf key, ∃ before, oldest.version = before + 1 ∧
        ((MemoryStore.ofEntries sets).history key epoch).epoch = toString before ∧
        ((MemoryStore.ofEntries sets).history key epoch).values.getLast? = some oldest.value) ∧
    (sets.length < MemoryStore.versionBound → ∀ events : List Event,
      (after key sets (.ask :: events)).answers.flatMap History.values = (textsOf sets key).reverse ∧
      (.ask ∈ events → (after key sets (.ask :: events)).next? = none)) := by
  refine ⟨fun epoch hne hd hlt => ⟨?_, MemoryStore.values_history hne hd hlt⟩,
    fun epoch hne hd hge => MemoryStore.history_of_versionBound_le hne hd hge _ key, fun epoch => ?_,
    fun hbound events => ?_⟩
  · rw [MemoryStore.values_history hne hd hlt, MemoryStore.revisionsOf_ofEntries, filter_revisionsFrom,
      List.map_reverse, map_value_revisionsFrom]
  · cases hread : MemoryStore.readEpoch? epoch with
    | none => exact .inl (by rw [MemoryStore.history, hread])
    | some version =>
      rw [MemoryStore.history_of_readEpoch? hread]
      rcases MemoryStore.epochBefore_reverse_revisionsFrom (sets.take version) key with
        ⟨hrevisions, hepoch⟩ | ⟨oldest, rest, before, hrevisions, hversion, hepoch⟩
      · rw [hepoch, ← map_value_revisionsFrom 1, hrevisions]
        exact .inl rfl
      · refine .inr ⟨oldest, ?_, before, hversion, hepoch, ?_⟩
        · rw [MemoryStore.revisionsOf_ofEntries]
          refine List.mem_of_mem_filter (p := (·.version ≤ version)) ?_
          rw [filter_revisionsFrom, hrevisions]
          exact List.mem_cons_self
        · rw [← map_value_revisionsFrom 1, hrevisions, List.getLast?_reverse]
          rfl
  · obtain ⟨hunderway, hover⟩ := underway_after key hbound events
    refine ⟨?_, hover⟩
    rcases hunderway.answers with hanswers | hanswers <;>
      simp [hanswers, MemoryStore.history_present hbound]

/-- An entry that is changed while a client walks through its history, and a question with an epoch that is no version. -/
theorem visits_texts_of_first_question :
    let sets := [("a", "1"), ("b", "2"), ("a", "3")]
    let events := [Event.set "a" "4", .ask, .set "b" "5", .ask]
    (("03" : String) ≠ "" ∧ "03".toList.all Char.isDigit = true ∧
      Decimal.ofDigits "03".toList < MemoryStore.versionBound ∧
      ((MemoryStore.ofEntries sets).history "a" "03").values = ["3", "1"]) ∧
    (("20000000000000000000" : String) ≠ "" ∧ "20000000000000000000".toList.all Char.isDigit = true ∧
      MemoryStore.versionBound ≤ Decimal.ofDigits "20000000000000000000".toList ∧
      (MemoryStore.ofEntries sets).history "a" "20000000000000000000" = ⟨"", []⟩) ∧
    sets.length < MemoryStore.versionBound ∧
    (after "a" sets (.ask :: events)).answers.flatMap History.values = ["3", "1"] ∧
    .ask ∈ events ∧ (after "a" sets (.ask :: events)).next? = none := by
  intro sets events
  obtain ⟨hhistory, hbeyond, -, hwalk⟩ := visits_every_text_once sets "a"
  have hdigits : ("03" : String) ≠ "" ∧ "03".toList.all Char.isDigit = true ∧
      Decimal.ofDigits "03".toList < MemoryStore.versionBound := by decide +kernel
  have hgreat : ("20000000000000000000" : String) ≠ "" ∧ "20000000000000000000".toList.all Char.isDigit = true ∧
      MemoryStore.versionBound ≤ Decimal.ofDigits "20000000000000000000".toList := by decide +kernel
  have hbound : sets.length < MemoryStore.versionBound := by decide
  have hmem : Event.ask ∈ events := by simp [events]
  obtain ⟨htexts, hover⟩ := hwalk hbound events
  refine ⟨⟨hdigits.1, hdigits.2.1, hdigits.2.2, ?_⟩, ⟨hgreat.1, hgreat.2.1, hgreat.2.2, ?_⟩, hbound,
    htexts.trans (by decide), hmem, hover hmem⟩
  · exact (hhistory "03" hdigits.1 hdigits.2.1 hdigits.2.2).2.trans (by decide +kernel)
  · exact hbeyond "20000000000000000000" hgreat.1 hgreat.2.1 hgreat.2.2

end Walk

end DynamicConfig
