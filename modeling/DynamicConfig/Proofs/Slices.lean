import DynamicConfig.Proofs.Tokens
/-!
# Where tokens stand

The location of a token covers its text in the source text, and a location from one token to a later one
covers both (`LaidOut.slice?_token`, `LaidOut.slice?_span`). No two tokens begin at the same place.
-/

namespace DynamicConfig

/-! ## Parts of a text -/

/-- What is known of all texts is proved from the empty one by putting a character in front. -/
theorem text_induction {motive : String → Prop} (empty : motive "")
    (cons : ∀ c text, motive text → motive (String.singleton c ++ text)) (text : String) : motive text := by
  obtain ⟨chars, rfl⟩ : ∃ chars, text = String.ofList chars := ⟨text.toList, String.ofList_toList.symm⟩
  induction chars with
  | nil => exact empty
  | cons c rest ih =>
    have h := cons c _ ih
    rwa [String.singleton_eq_ofList, ← String.ofList_append] at h

theorem dropBytes?_text (text : String) (rest : List Char) :
    dropBytes? text.utf8ByteSize (text.toList ++ rest) = some rest := by
  induction text using text_induction with
  | empty => simp [dropBytes?]
  | cons c text ih =>
    have hpos := c.utf8Size_pos
    obtain ⟨n, hn⟩ : ∃ n, c.utf8Size + text.utf8ByteSize = n + 1 := ⟨c.utf8Size + text.utf8ByteSize - 1, by omega⟩
    simp only [String.utf8ByteSize_append, String.utf8ByteSize_singleton, String.toList_append,
      String.toList_singleton, List.cons_append, List.nil_append, hn, dropBytes?]
    rw [if_pos (by omega), show n + 1 - c.utf8Size = text.utf8ByteSize by omega]
    exact ih

theorem takeBytes?_text (text : String) (rest : List Char) :
    takeBytes? text.utf8ByteSize (text.toList ++ rest) = some text.toList := by
  induction text using text_induction with
  | empty => simp [takeBytes?]
  | cons c text ih =>
    have hpos := c.utf8Size_pos
    obtain ⟨n, hn⟩ : ∃ n, c.utf8Size + text.utf8ByteSize = n + 1 := ⟨c.utf8Size + text.utf8ByteSize - 1, by omega⟩
    simp only [String.utf8ByteSize_append, String.utf8ByteSize_singleton, String.toList_append,
      String.toList_singleton, List.cons_append, List.nil_append, hn, takeBytes?]
    rw [if_pos (by omega), show n + 1 - c.utf8Size = text.utf8ByteSize by omega, ih]
    rfl

/-- The part of a source text between what is before it and what is after it. -/
theorem slice?_of_append {source before text : String} {after : List Char}
    (h : source.toList = before.toList ++ (text.toList ++ after)) :
    (Location.mk before.utf8ByteSize (before.utf8ByteSize + text.utf8ByteSize)).slice? source = some text := by
  have hguard : (guard (before.utf8ByteSize ≤ before.utf8ByteSize + text.utf8ByteSize) : Option Unit) = some () :=
    if_pos (Nat.le_add_right _ _)
  rw [Location.slice?, hguard, h]
  simp [dropBytes?_text, takeBytes?_text]

/-! ## Tokens -/

namespace LaidOut

variable {offset : Nat} {chars : List Char} {tokens : List Token}

/-- A token stands where its location says, and the later ones are laid out after it. -/
theorem split {first rest : List Token} {token : Token} (h : LaidOut offset chars (first ++ token :: rest)) :
    ∃ (before : String) (after : List Char), chars = before.toList ++ (token.text.toList ++ after) ∧
      token = .startingAt (offset + before.utf8ByteSize) token.text ∧ LaidOut token.location.stop after rest := by
  generalize htokens : first ++ token :: rest = tokens at h
  induction h generalizing first with
  | done => simp at htokens
  | @skip offset c _ _ _ ih =>
    obtain ⟨before, after, rfl, htoken, hrest⟩ := ih htokens
    refine ⟨String.singleton c ++ before, after, by simp, ?_, hrest⟩
    rwa [String.utf8ByteSize_append, String.utf8ByteSize_singleton, ← Nat.add_assoc]
  | @token offset text _ _ hne hp hlaid ih =>
    cases first with
    | nil =>
      cases htokens
      exact ⟨"", _, rfl, rfl, hlaid⟩
    | cons t first =>
      obtain ⟨-, htokens⟩ := List.cons.inj htokens
      obtain ⟨before, after, rfl, htoken, hrest⟩ := ih htokens
      refine ⟨text ++ before, after, by simp, ?_, hrest⟩
      rwa [String.utf8ByteSize_append, ← Nat.add_assoc]

/-- The location of a token covers its text. -/
theorem slice?_token {source : String} (h : LaidOut 0 source.toList tokens) {token : Token} (ht : token ∈ tokens) :
    token.location.slice? source = some token.text := by
  obtain ⟨first, rest, rfl⟩ := List.append_of_mem ht
  obtain ⟨before, after, hsource, htoken, -⟩ := h.split
  have hlocation : token.location =
      ⟨before.utf8ByteSize, before.utf8ByteSize + token.text.utf8ByteSize⟩ := by
    rw [htoken]
    simp [Token.startingAt]
  rw [hlocation]
  exact slice?_of_append hsource

/-- A location from one token to a later one covers both and what is between them. -/
theorem slice?_span {source : String} {before between after : List Token} {first last : Token}
    (h : LaidOut 0 source.toList (before ++ first :: (between ++ last :: after))) :
    ∃ middle : String, (Location.mk first.location.start last.location.stop).slice? source =
      some (first.text ++ middle ++ last.text) := by
  obtain ⟨start, rest, hsource, hfirst, hrest⟩ := h.split
  obtain ⟨middle, tail, rfl, hlast, -⟩ := hrest.split
  have hstart : first.location.start = start.utf8ByteSize := by rw [hfirst]; simp [Token.startingAt]
  have hstop : first.location.stop = start.utf8ByteSize + first.text.utf8ByteSize := by
    rw [hfirst]; simp [Token.startingAt]
  have hend : last.location.stop =
      start.utf8ByteSize + (first.text ++ middle ++ last.text).utf8ByteSize := by
    rw [hlast]
    simp only [Token.startingAt, hstop, String.utf8ByteSize_append]
    omega
  refine ⟨middle, ?_⟩
  rw [hstart, hend]
  exact slice?_of_append (by simpa using hsource)

theorem start_le (h : LaidOut offset chars tokens) : ∀ token ∈ tokens, offset ≤ token.location.start := by
  induction h with
  | done => simp
  | skip _ ih => exact fun token ht => Nat.le_trans (Nat.le_add_right _ _) (ih token ht)
  | token _ _ _ ih =>
    refine List.forall_mem_cons.2 ⟨Nat.le_refl _, fun token ht => ?_⟩
    exact Nat.le_trans (Nat.le_add_right _ _) (ih token ht)

/-- Later tokens begin later. -/
theorem pairwise_start (h : LaidOut offset chars tokens) :
    tokens.Pairwise fun a b => a.location.start < b.location.start := by
  induction h with
  | done => exact .nil
  | skip _ ih => exact ih
  | @token offset text _ _ hne _ h ih =>
    refine List.pairwise_cons.2 ⟨fun token ht => ?_, ih⟩
    have hpos : 0 < text.utf8ByteSize := Nat.pos_of_ne_zero fun h0 => hne (String.utf8ByteSize_eq_zero_iff.1 h0)
    have hle := h.start_le token ht
    simp only [Token.startingAt]
    omega

end LaidOut

end DynamicConfig
