import DynamicConfig.Proofs.Slices
/-!
# Nothing of a source text is lost

Each character of a source text is a part of one token, or a blank, or reported as a fault at its place
(`tokenize_lossless`). Tokens stand one after the other and have the text that their locations cover, but for a string
that lacks its quote at the end of the source text: it is all of the rest, with the quote.
-/

namespace DynamicConfig

/-- The character stands at the place in a text that begins at another one. -/
def StandsIn (offset : Nat) (chars : List Char) (place : Nat) (c : Char) : Prop :=
  ∃ (before : String) (after : List Char), chars = before.toList ++ c :: after ∧ place = offset + before.utf8ByteSize

/-- The byte is one of the token's. -/
def Token.Covers (token : Token) (place : Nat) : Prop :=
  token.location.start ≤ place ∧ place < token.location.stop

/-- No token has the byte. -/
def Uncovered (tokens : List Token) (place : Nat) : Prop :=
  ∀ token ∈ tokens, ¬ token.Covers place

/-- The token is the rest of the source text from a quote on, closed by a quote that the source text lacks. A backslash
at the end is escaped first, so as not to escape that quote. -/
def Token.IsClosedForSource (token : Token) (source : String) : Prop :=
  ∃ before rest marks : String, source = before ++ rest ∧ rest.toList.head? = some '"' ∧
    (marks = "\"" ∨ marks = "\\\"") ∧ token = .startingAt before.utf8ByteSize (rest ++ marks)

/-- The fault of a character that begins no token. -/
def invalidAt (place : Nat) : ParseError :=
  ⟨.invalidCharacter, place⟩

/-- The tokens and faults account for all of the source text. -/
structure Lossless (source : String) (tokens : List Token) (faults : List ParseError) : Prop where
  nonempty : ∀ token ∈ tokens, token.location.start < token.location.stop
  ordered : tokens.Pairwise fun a b => a.location.stop ≤ b.location.start
  /-- Only the last token may be closed by a quote that the source text lacks, and that is reported. -/
  faithful : ∀ token ∈ tokens, token.location.slice? source = some token.text ∨
    tokens.getLast? = some token ∧ token.IsClosedForSource source ∧
      ⟨.incompleteString, token.location.start⟩ ∈ faults
  outside : ∀ place c, StandsIn 0 source.toList place c → Uncovered tokens place →
    if Text.isBlank c then invalidAt place ∉ faults else faults.count (invalidAt place) = 1
  reported : ∀ place, invalidAt place ∈ faults →
    Uncovered tokens place ∧ ∃ c, StandsIn 0 source.toList place c ∧ Text.isBlank c = false

namespace StandsIn

variable {offset place : Nat} {c d : Char} {chars rest : List Char} {text : String}

theorem head (offset : Nat) (c : Char) (rest : List Char) : StandsIn offset (c :: rest) offset c :=
  ⟨"", rest, rfl, rfl⟩

theorem after (h : StandsIn (offset + text.utf8ByteSize) rest place c) :
    StandsIn offset (text.toList ++ rest) place c := by
  obtain ⟨before, after, rfl, rfl⟩ := h
  exact ⟨text ++ before, after, by simp, by rw [String.utf8ByteSize_append, Nat.add_assoc]⟩

theorem cons (h : StandsIn (offset + d.utf8Size) rest place c) : StandsIn offset (d :: rest) place c := by
  rw [← String.utf8ByteSize_singleton] at h
  simpa using h.after

theorem le (h : StandsIn offset chars place c) : offset ≤ place := by
  obtain ⟨before, -, -, rfl⟩ := h
  exact Nat.le_add_right _ _

/-- What stands in a text stands in its first part or after it. -/
theorem append_cases (h : StandsIn offset (text.toList ++ rest) place c) :
    place < offset + text.utf8ByteSize ∨ StandsIn (offset + text.utf8ByteSize) rest place c := by
  obtain ⟨before, after, heq, rfl⟩ := h
  rcases List.append_eq_append_iff.1 heq with ⟨mid, hbefore, hrest⟩ | ⟨mid, htext, hrest⟩
  · refine .inr ⟨String.ofList mid, after, by simpa using hrest, ?_⟩
    have : before = text ++ String.ofList mid := String.toList_inj.1 (by simpa using hbefore)
    rw [this, String.utf8ByteSize_append, Nat.add_assoc]
  · cases mid with
    | nil =>
      refine .inr ⟨"", after, by simpa using hrest.symm, ?_⟩
      have : text = before := String.toList_inj.1 (by simpa using htext)
      rw [this]
      rfl
    | cons d mid =>
      refine .inl ?_
      have : text = before ++ String.ofList (d :: mid) := String.toList_inj.1 (by simpa using htext)
      have hpos := d.utf8Size_pos
      rw [this, String.utf8ByteSize_append, String.ofList_cons, String.utf8ByteSize_append,
        String.utf8ByteSize_singleton]
      omega

theorem cons_cases (h : StandsIn offset (d :: rest) place c) :
    place = offset ∧ c = d ∨ StandsIn (offset + d.utf8Size) rest place c := by
  obtain ⟨before, after, heq, rfl⟩ := h
  cases hbefore : before.toList with
  | nil =>
    rw [hbefore] at heq
    obtain rfl : before = "" := String.toList_inj.1 hbefore
    exact .inl ⟨rfl, (List.cons.inj heq).1.symm⟩
  | cons e more =>
    rw [hbefore] at heq
    obtain ⟨rfl, hrest⟩ := List.cons.inj heq
    have : before = String.singleton d ++ String.ofList more := String.toList_inj.1 (by simp [hbefore])
    refine .inr ⟨String.ofList more, after, by simpa using hrest, ?_⟩
    rw [this, String.utf8ByteSize_append, String.utf8ByteSize_singleton, Nat.add_assoc]

end StandsIn

theorem Token.stop_startingAt (offset : Nat) (text : String) :
    (startingAt offset text).location.stop = offset + text.utf8ByteSize := rfl

namespace Pieces

variable {offset : Nat} {chars : List Char} {tokens : List Token} {faults : List ParseError}

/-- Nothing is found before the pieces begin. -/
theorem start_le (h : Pieces offset chars tokens faults) :
    (∀ token ∈ tokens, offset ≤ token.location.start) ∧ ∀ fault ∈ faults, offset ≤ fault.offset := by
  induction h with
  | done => simp
  | blank _ _ ih => exact ⟨fun t ht => Nat.le_of_add_right_le (ih.1 t ht), fun e he => Nat.le_of_add_right_le (ih.2 e he)⟩
  | invalid _ _ ih =>
    refine ⟨fun t ht => Nat.le_of_add_right_le (ih.1 t ht), List.forall_mem_cons.2 ⟨Nat.le_refl _, fun e he => ?_⟩⟩
    exact Nat.le_of_add_right_le (ih.2 e he)
  | token _ _ _ ih =>
    refine ⟨List.forall_mem_cons.2 ⟨Nat.le_refl _, fun t ht => ?_⟩, fun e he => Nat.le_of_add_right_le (ih.2 e he)⟩
    exact Nat.le_of_add_right_le (ih.1 t ht)
  | unclosed => exact ⟨by simp [Token.startingAt], by simp⟩

theorem nonempty (h : Pieces offset chars tokens faults) :
    ∀ token ∈ tokens, token.location.start < token.location.stop := by
  have hsize {text : String} (hne : text ≠ "") (offset : Nat) : offset < offset + text.utf8ByteSize :=
    Nat.lt_add_of_pos_right (Nat.pos_of_ne_zero fun h0 => hne (String.utf8ByteSize_eq_zero_iff.1 h0))
  induction h with
  | done => simp
  | blank _ _ ih | invalid _ _ ih => exact ih
  | token hne _ _ ih => exact List.forall_mem_cons.2 ⟨hsize hne _, ih⟩
  | @unclosed text rest htext offset marks _ =>
    refine List.forall_mem_singleton.2 (hsize (fun he => ?_) offset)
    have := congrArg String.toList he
    simp [htext] at this

/-- Later tokens begin where earlier ones have ended. -/
theorem ordered (h : Pieces offset chars tokens faults) :
    tokens.Pairwise fun a b => a.location.stop ≤ b.location.start := by
  induction h with
  | done => exact .nil
  | blank _ _ ih | invalid _ _ ih => exact ih
  | token _ _ hrest ih => exact List.pairwise_cons.2 ⟨hrest.start_le.1, ih⟩
  | unclosed => exact List.pairwise_singleton _ _

/-- A token has the text at its place, or it is the last one and is closed by a quote of its own. -/
theorem faithful (h : Pieces offset chars tokens faults) (before : String) (hoffset : offset = before.utf8ByteSize)
    {source : String} (hsource : source.toList = before.toList ++ chars) :
    ∀ token ∈ tokens, token.location.slice? source = some token.text ∨
      tokens.getLast? = some token ∧ token.IsClosedForSource source ∧
        ⟨.incompleteString, token.location.start⟩ ∈ faults := by
  induction h generalizing before with
  | done => simp
  | @blank offset c rest tokens faults _ _ ih =>
    refine ih (before.push c) ?_ (by simpa using hsource)
    rw [hoffset, String.utf8ByteSize_push]
  | @invalid offset c rest tokens faults _ _ ih =>
    have hrest := ih (before.push c) (by rw [hoffset, String.utf8ByteSize_push]) (by simpa using hsource)
    exact fun t ht => (hrest t ht).imp_right fun ⟨hlast, hclosed, hfault⟩ => ⟨hlast, hclosed, .tail _ hfault⟩
  | @token offset text rest tokens faults _ _ _ ih =>
    subst hoffset
    refine List.forall_mem_cons.2 ⟨.inl (slice?_of_append hsource), fun t ht => ?_⟩
    have hrest := ih (before ++ text) (String.utf8ByteSize_append).symm (by simpa using hsource) t ht
    refine hrest.imp_right fun ⟨hlast, hclosed⟩ => ⟨?_, hclosed⟩
    rw [List.getLast?_cons, hlast]
    rfl
  | @unclosed text rest htext offset marks hmarks =>
    subst hoffset
    refine List.forall_mem_singleton.2 (.inr ⟨rfl, ?_, List.mem_singleton.2 rfl⟩)
    exact ⟨before, text, marks, String.toList_inj.1 (by simpa using hsource), by rw [htext]; rfl, hmarks, rfl⟩

/-- What no token has is a blank, or reported once. -/
theorem outside (h : Pieces offset chars tokens faults) {place : Nat} {c : Char} (hc : StandsIn offset chars place c)
    (hout : Uncovered tokens place) :
    if Text.isBlank c then invalidAt place ∉ faults else faults.count (invalidAt place) = 1 := by
  induction h with
  | done => obtain ⟨before, after, heq, -⟩ := hc; simp at heq
  | @blank offset d rest tokens faults hd hrest ih =>
    rcases hc.cons_cases with ⟨rfl, rfl⟩ | hc
    · rw [if_pos hd]
      intro hmem
      have hle : place + c.utf8Size ≤ place := hrest.start_le.2 _ hmem
      have := c.utf8Size_pos
      omega
    · exact ih hc hout
  | @invalid offset d rest tokens faults hd hrest ih =>
    rcases hc.cons_cases with ⟨rfl, rfl⟩ | hc
    · have hnone : invalidAt place ∉ faults := by
        intro hmem
        have hle : place + c.utf8Size ≤ place := hrest.start_le.2 _ hmem
        have := c.utf8Size_pos
        omega
      rw [hd, if_neg Bool.false_ne_true]
      exact (List.count_cons_self).trans (by rw [List.count_eq_zero_of_not_mem hnone])
    · have hne : invalidAt offset ≠ invalidAt place := by
        intro heq
        have hplace : offset = place := congrArg ParseError.offset heq
        have := hc.le
        have := d.utf8Size_pos
        omega
      have hih := ih hc hout
      split at hih
      · rw [if_pos ‹_›]
        exact fun hmem => hih ((List.mem_cons.1 hmem).resolve_left (Ne.symm hne))
      · rw [if_neg ‹_›]
        exact (List.count_cons_of_ne hne).trans hih
  | token _ _ _ ih =>
    obtain ⟨hfirst, hlater⟩ := List.forall_mem_cons.1 hout
    rcases hc.append_cases with hlt | hafter
    · exact (hfirst ⟨hc.le, hlt⟩).elim
    · exact ih hafter hlater
  | @unclosed text rest htext offset marks hmarks =>
    rw [← List.append_nil text.toList] at hc
    rcases hc.append_cases with hlt | ⟨before, after, heq, -⟩
    · refine (List.forall_mem_singleton.1 hout ⟨hc.le, ?_⟩).elim
      rw [Token.stop_startingAt, String.utf8ByteSize_append]
      omega
    · simp at heq

/-- What is reported as invalid is a character that no token has, and no blank. -/
theorem reported (h : Pieces offset chars tokens faults) {place : Nat} (hf : invalidAt place ∈ faults) :
    Uncovered tokens place ∧ ∃ c, StandsIn offset chars place c ∧ Text.isBlank c = false := by
  induction h with
  | done => cases hf
  | blank _ _ ih =>
    obtain ⟨hout, c, hc, hblank⟩ := ih hf
    exact ⟨hout, c, hc.cons, hblank⟩
  | @invalid offset d rest tokens faults hd hrest ih =>
    rcases List.mem_cons.1 hf with heq | hf
    · obtain rfl : place = offset := congrArg ParseError.offset heq
      refine ⟨fun t ht hcover => ?_, d, .head place d rest, hd⟩
      have := hrest.start_le.1 t ht
      have := d.utf8Size_pos
      have := hcover.1
      omega
    · obtain ⟨hout, c, hc, hblank⟩ := ih hf
      exact ⟨hout, c, hc.cons, hblank⟩
  | token _ _ hrest ih =>
    obtain ⟨hout, c, hc, hblank⟩ := ih hf
    refine ⟨List.forall_mem_cons.2 ⟨fun hcover => ?_, hout⟩, c, hc.after, hblank⟩
    exact absurd hcover.2 (Nat.not_lt_of_le hc.le)
  | unclosed => simp [invalidAt] at hf

end Pieces

/-- The tokens and faults of a source text account for all of it. -/
theorem tokenize_lossless (source : String) : Lossless source (tokenize source).1 (tokenize source).2 := by
  have h := pieces_tokenize source
  exact ⟨h.nonempty, h.ordered, h.faithful "" rfl rfl, fun _ _ hc hout => h.outside hc hout,
    fun _ hf => h.reported hf⟩

example : tokenize "é # \"b" = ([.startingAt 0 "é", .startingAt 5 "\"b\""], [invalidAt 3, ⟨.incompleteString, 5⟩]) := by
  decide +kernel

end DynamicConfig
