import DynamicConfig.Proofs.Numerals
import DynamicConfig.Proofs.Quoting
import DynamicConfig.Proofs.Tokens
/-!
# Texts that are tokens

A text is read as the same tokens wherever it stands between other tokens, if what comes right after it
cannot go on in its last one (`Scans`). This is so for a blank, and for a symbol, a name, a truth value, a
string and a numeral alone; and for one text after the other, if the second one begins with what may come after
the first (`Scans.append`).
-/

namespace DynamicConfig

namespace Scanner

variable {scanner : Scanner} {first offset : Nat} {seen : String}

/-- The character begins a token, or is a blank. -/
def Admits (c : Char) : Prop :=
  ∀ offset, (start offset c).2 = []

/-- At a character that ends it, a token is handed on, and the scanner goes on as after any token. -/
theorem scan_restart (hfinish : scanner.finish = [.token (.startingAt first seen)]) {rest : List Char}
    (hrest : ∀ c ∈ rest.head?, Admits c ∧ scanner.step offset c = restart (.startingAt first seen) offset c) :
    scanner.scan offset rest = .token (.startingAt first seen) :: between.scan offset rest := by
  cases rest with
  | nil =>
    rw [scan, hfinish]
    rfl
  | cons c rest =>
    obtain ⟨hc, hstep⟩ := hrest c rfl
    have hfound : (start offset c).2 = [] := hc offset
    rw [scan, hstep, restart, scan, step]
    simp [hfound]

theorem push_ofList (chars : List Char) (c : Char) : (String.ofList chars).push c = String.ofList (chars ++ [c]) := by
  apply String.toList_inj.1
  simp

theorem scan_of_step {next : Scanner} {c : Char} {found : List Lexeme}
    (h : scanner.step offset c = (next, found)) (rest : List Char) :
    scanner.scan offset (c :: rest) = found ++ next.scan (offset + c.utf8Size) rest := by
  rw [scan, h]

/-- A scanner that takes each of some characters, one after the other. -/
theorem scan_chars (read : String → Scanner) (seen : String) {chars : List Char}
    (hstep : ∀ c more after, chars = more ++ c :: after →
      ∀ offset, (read (seen ++ String.ofList more)).step offset c = (read (seen ++ String.ofList (more ++ [c])), []))
    (offset : Nat) (rest : List Char) :
    (read seen).scan offset (chars ++ rest) =
      (read (seen ++ String.ofList chars)).scan (offset + (String.ofList chars).utf8ByteSize) rest := by
  induction chars generalizing seen offset with
  | nil => simp
  | cons c chars ih =>
    have hc : (read seen).step offset c = (read (seen.push c), []) := by
      simpa [String.append_singleton] using hstep c [] chars rfl offset
    have hmore (d : Char) (more after : List Char) (h : chars = more ++ d :: after) (offset : Nat) :
        (read (seen.push c ++ String.ofList more)).step offset d =
          (read (seen.push c ++ String.ofList (more ++ [d])), []) := by
      have hd := hstep d (c :: more) after (by rw [h]; rfl) offset
      rwa [append_ofList_cons, List.cons_append, append_ofList_cons] at hd
    rw [List.cons_append, scan_of_step hc, List.nil_append, ih (seen.push c) hmore, append_ofList_cons, String.ofList_cons,
      String.utf8ByteSize_append, String.utf8ByteSize_singleton, Nat.add_assoc]

end Scanner

open Scanner (Admits)

/-! ## Texts and what may come after them -/

/-- Wherever the text begins, and whatever comes after it, as long as this begins with one of some characters,
the text is read as tokens with a property. -/
def Scans (text : String) (mayFollow : Char → Prop) (P : List Token → Prop) : Prop :=
  ∀ offset rest, (∀ c ∈ rest.head?, mayFollow c) → ∃ tokens,
    Scanner.between.scan offset (text.toList ++ rest) =
      tokens.map Lexeme.token ++ Scanner.between.scan (offset + text.utf8ByteSize) rest ∧ P tokens

/-- The text begins, and with a character that may come after any symbol. -/
def Opens (text : String) : Prop :=
  ∃ c rest, text.toList = c :: rest ∧ Admits c ∧ c ≠ '='

/-- The tokens are one with the text. -/
def IsToken (text : String) (tokens : List Token) : Prop :=
  ∃ offset, tokens = [.startingAt offset text]

theorem Opens.append {text : String} (h : Opens text) (more : String) : Opens (text ++ more) := by
  obtain ⟨c, rest, htext, hc, hne⟩ := h
  exact ⟨c, rest ++ more.toList, by rw [String.toList_append, htext]; rfl, hc, hne⟩

namespace Scans

variable {text first second : String} {mayFollow between : Char → Prop} {P Q R : List Token → Prop}

theorem imp {after : Char → Prop} (h : Scans text mayFollow P) (hafter : ∀ c, after c → mayFollow c)
    (hP : ∀ tokens, P tokens → Q tokens) : Scans text after Q := by
  intro offset rest hrest
  obtain ⟨tokens, hscan, htokens⟩ := h offset rest fun c hc => hafter c (hrest c hc)
  exact ⟨tokens, hscan, hP tokens htokens⟩

/-- One text after the other. -/
theorem append (h1 : Scans first between P) (h2 : Scans second mayFollow Q)
    (hbetween : ∃ c rest, second.toList = c :: rest ∧ between c) (hR : ∀ xs ys, P xs → Q ys → R (xs ++ ys)) :
    Scans (first ++ second) mayFollow R := by
  intro offset rest hrest
  obtain ⟨c, more, hsecond, hc⟩ := hbetween
  obtain ⟨xs, hxs, hP⟩ := h1 offset (second.toList ++ rest) (by simpa [hsecond] using hc)
  obtain ⟨ys, hys, hQ⟩ := h2 (offset + first.utf8ByteSize) rest hrest
  refine ⟨xs ++ ys, ?_, hR xs ys hP hQ⟩
  rw [String.toList_append, List.append_assoc, hxs, hys, List.map_append, List.append_assoc,
    String.utf8ByteSize_append, Nat.add_assoc]

/-- A whole source text. -/
theorem lexemes (h : Scans text mayFollow P) : ∃ tokens, lexemes text = tokens.map Lexeme.token ∧ P tokens := by
  obtain ⟨tokens, hscan, hP⟩ := h 0 [] (by simp)
  refine ⟨tokens, ?_, hP⟩
  rw [List.append_nil] at hscan
  rw [DynamicConfig.lexemes, hscan]
  simp [Scanner.scan, Scanner.finish]

/-! ## Single tokens -/

theorem blank : Scans " " (fun _ => True) (· = []) :=
  fun _ _ _ => ⟨[], rfl, rfl⟩

theorem string (text : String) : Scans (Text.Quoted.encode text) (fun _ => True) (IsToken (Text.Quoted.encode text)) :=
  fun offset rest _ => ⟨[_], Scanner.scan_encode text offset rest, offset, rfl⟩

/-- A text whose first character begins a token, whose other ones go on in it, and that ends before each of some
characters. -/
theorem token {c : Char} {chars : List Char} (htext : text.toList = c :: chars)
    (read : Nat → String → Scanner) (hstart : ∀ offset, Scanner.start offset c = (read offset (String.singleton c), []))
    (hstep : ∀ d more after, chars = more ++ d :: after → ∀ first offset,
      (read first (String.ofList (c :: more))).step offset d = (read first (String.ofList (c :: (more ++ [d]))), []))
    (hfinish : ∀ first, (read first text).finish = [.token (.startingAt first text)])
    (hend : ∀ d, mayFollow d → Admits d ∧ ∀ first offset,
      (read first text).step offset d = Scanner.restart (.startingAt first text) offset d) :
    Scans text mayFollow (IsToken text) := by
  intro offset rest hrest
  have hchars : String.ofList (c :: chars) = text := by rw [← htext, String.ofList_toList]
  have hsize : c.utf8Size + (String.ofList chars).utf8ByteSize = text.utf8ByteSize := by
    rw [← hchars, String.ofList_cons, String.utf8ByteSize_append, String.utf8ByteSize_singleton]
  have hsingle (more : List Char) : String.singleton c ++ String.ofList more = String.ofList (c :: more) :=
    String.ofList_cons.symm
  refine ⟨[.startingAt offset text], ?_, offset, rfl⟩
  have hfirst : Scanner.between.step offset c = (read offset (String.singleton c), []) := hstart offset
  rw [htext, List.cons_append, Scanner.scan_of_step hfirst, List.nil_append,
    Scanner.scan_chars (read offset) (String.singleton c), hsingle, hchars, Nat.add_assoc, hsize,
    Scanner.scan_restart (hfinish offset)]
  · rfl
  · intro d hd
    obtain ⟨hadmits, hstop⟩ := hend d (hrest d hd)
    exact ⟨hadmits, hstop _ _⟩
  · intro d more after h place
    rw [hsingle, hsingle]
    exact hstep d more after h offset place

end Scans

/-- A word begins a name, and goes on in it. -/
theorem Text.exists_of_isWord {text : String} (h : isWord text = true) :
    ∃ c chars, text.toList = c :: chars ∧
      (∀ offset, Scanner.start offset c = (.name offset (String.singleton c), [])) ∧
      ∀ d ∈ chars, Scanner.endsName d = false := by
  unfold isWord at h
  split at h
  · cases h
  · rename_i c chars htext
    simp only [Bool.and_eq_true, Bool.not_eq_true', bne_iff_ne] at h
    obtain ⟨⟨⟨⟨⟨hblank, hq⟩, hd⟩, hb⟩, hl⟩, hall⟩ := h
    refine ⟨c, chars, htext, fun offset => by simp [Scanner.start, hblank, hq, hd, hb, hl], fun d hmem => ?_⟩
    simpa using List.all_eq_true.1 hall d hmem

/-! ## Symbols -/

/-- A symbol of more than one character ends in `=`. -/
theorem Symbol.ofText?_push {text : String} (hne : text ≠ "") {c : Char} (hc : c ≠ '=') :
    ofText? (text.push c) = none := by
  rw [Option.eq_none_iff_forall_ne_some]
  intro symbol hs
  have htext := congrArg String.toList (text_of_ofText? hs)
  rw [String.toList_push] at htext
  have hnil : text.toList ≠ [] := fun h => hne (String.toList_eq_nil_iff.1 h)
  obtain ⟨d, more, hmore⟩ := List.exists_cons_of_ne_nil hnil
  rw [hmore] at htext
  have hlast := congrArg List.getLast? htext
  rw [List.getLast?_append] at hlast
  cases symbol
  case opening b | closing b => cases b <;> cases more <;> simp [Symbol.text] at htext
  all_goals first
    | (cases more <;> simp [Symbol.text] at htext; done)
    | (simp [Symbol.text] at hlast; exact hc hlast.symm)

namespace Scanner

variable {c : Char}

theorem start_symbol (hblank : Text.isBlank c = false) (hq : c ≠ '"') (hd : c.isDigit = false)
    (hb : Symbol.begins c = true) (offset : Nat) : start offset c = (symbol offset (String.singleton c), []) := by
  simp [start, hblank, hq, hd, hb]

theorem start_number (hd : c.isDigit = true) (offset : Nat) :
    start offset c = (number offset (String.singleton c), []) := by
  have hrange : 48 ≤ c.toNat ∧ c.toNat ≤ 57 := Char.isDigit_iff_toNat.1 hd
  have hblank : Text.isBlank c = false := by
    simp [Text.isBlank, Text.within, Text.blankRanges]
    omega
  have hq : c ≠ '"' := by rintro rfl; cases hd
  simp [start, hblank, hq, hd]

end Scanner

/-- A symbol is one character, or one and `=` after it. -/
theorem Symbol.exists_chars (s : Symbol) :
    ∃ c chars, s.text.toList = c :: chars ∧ (∀ offset, Scanner.start offset c = (.symbol offset (String.singleton c), [])) ∧
      c ≠ '"' ∧ chars.length ≤ 1 := by
  cases s
  case opening b | closing b =>
    cases b <;> exact ⟨_, [], rfl, Scanner.start_symbol (by decide) (by decide) (by decide) (by decide), by decide, by decide⟩
  all_goals
    exact ⟨_, _, rfl, Scanner.start_symbol (by decide) (by decide) (by decide) (by decide), by decide, by decide⟩

/-- A symbol that stands alone. -/
theorem Scans.symbol (s : Symbol) : Scans s.text (fun c => Admits c ∧ c ≠ '=') (IsToken s.text) := by
  obtain ⟨c, chars, htext, hstart, -, hlength⟩ := s.exists_chars
  have hne : s.text ≠ "" := by
    intro h
    rw [h] at htext
    cases htext
  refine .token htext Scanner.symbol hstart ?_ (fun _ => rfl) ?_
  · intro d more after hchars first offset
    -- There is no third character.
    obtain ⟨rfl, rfl⟩ : more = [] ∧ after = [] := by
      rw [hchars, List.length_append, List.length_cons] at hlength
      exact ⟨List.length_eq_zero_iff.1 (by omega), List.length_eq_zero_iff.1 (by omega)⟩
    have hsym : String.ofList (c :: ([] ++ [d])) = s.text := by rw [← hchars, ← htext, String.ofList_toList]
    simp only [Scanner.step, Scanner.push_ofList, List.cons_append, hsym, Symbol.ofText?_text, Option.isSome_some,
      if_true]
  · rintro d ⟨hadmits, hd⟩
    refine ⟨hadmits, fun first offset => ?_⟩
    simp [Scanner.step, Symbol.ofText?_push hne hd]

/-- A text that begins as no symbol does is none. -/
theorem Symbol.ofText?_of_start {text : String} {c : Char} {chars : List Char} (htext : text.toList = c :: chars)
    (h : (Scanner.start 0 c).1 ≠ .symbol 0 (String.singleton c)) : ofText? text = none := by
  rw [Option.eq_none_iff_forall_ne_some]
  intro s hs
  obtain ⟨d, _, hsym, hstart, -⟩ := s.exists_chars
  rw [text_of_ofText? hs, htext] at hsym
  obtain ⟨rfl, -⟩ := List.cons.inj hsym
  exact h (by rw [hstart])

theorem Symbol.opens {s : Symbol} (h : s.text.toList.head? ≠ some '=') : Opens s.text := by
  obtain ⟨c, chars, htext, hstart, -⟩ := s.exists_chars
  rw [htext] at h
  exact ⟨c, chars, htext, fun offset => by rw [hstart], by simpa using h⟩

/-! ## Strings -/

theorem opens_encode (text : String) : Opens (Text.Quoted.encode text) := by
  refine ⟨'"', _, Text.Quoted.toList_encode text, fun offset => ?_, by decide⟩
  simp [Scanner.start, show Text.isBlank '"' = false by decide]

/-! ## Words -/

/-- A word ends where a character that ends it comes. -/
theorem Scans.word {text : String} (h : Text.isWord text = true) :
    Scans text (fun c => Admits c ∧ Scanner.endsName c = true) (IsToken text) := by
  obtain ⟨c, chars, htext, hstart, hchars⟩ := Text.exists_of_isWord h
  refine .token htext Scanner.name hstart ?_ (fun _ => rfl) ?_
  · intro d more after heq first offset
    have hd : Scanner.endsName d = false := hchars d (by rw [heq]; simp)
    simp only [Scanner.step, hd, Bool.false_eq_true, if_false, Scanner.push_ofList, List.cons_append]
  · rintro d ⟨hadmits, hd⟩
    exact ⟨hadmits, fun first offset => by simp [Scanner.step, hd]⟩

theorem opens_word {text : String} (h : Text.isWord text = true) : Opens text := by
  obtain ⟨c, chars, htext, hstart, -⟩ := Text.exists_of_isWord h
  refine ⟨c, chars, htext, fun offset => by rw [hstart], ?_⟩
  rintro rfl
  cases hstart 0

/-! ## Numbers -/

/-- A numeral ends where a character comes that is no digit, unless it is its first point. -/
theorem Scans.numeral {text : String} (h : Decimal.IsNumeral text.toList) :
    Scans text (fun c => Admits c ∧ c.isDigit = false ∧ (c = '.' → '.' ∈ text.toList)) (IsToken text) := by
  obtain ⟨c, chars, htext, hc⟩ := h.exists_digit
  refine .token htext Scanner.number (Scanner.start_number hc) ?_ (fun _ => rfl) ?_
  · intro d more after heq first offset
    have hwhole : Decimal.IsNumeral (c :: (more ++ [d]) ++ after) := by simpa [htext, heq] using h
    have hleft : Decimal.IsNumeral (c :: (more ++ [d])) := hwhole.left (by simp)
    have hliteral : Decimal.isLiteral (String.ofList (c :: (more ++ [d]))) = true := by
      simpa only [Decimal.isLiteral, String.toList_ofList] using hleft.isSome_read?
    simp only [Scanner.step, Scanner.push_ofList, List.cons_append, hliteral, if_true]
  · rintro d ⟨hadmits, hdigit, hpoint⟩
    have hliteral : Decimal.isLiteral (text.push d) = false := by
      simp [Decimal.isLiteral, String.toList_push, h.read?_concat hdigit hpoint]
    exact ⟨hadmits, fun first offset => by simp [Scanner.step, hliteral]⟩

theorem opens_numeral {text : String} (h : Decimal.IsNumeral text.toList) : Opens text := by
  obtain ⟨c, chars, htext, hc⟩ := h.exists_digit
  refine ⟨c, chars, htext, fun offset => by rw [Scanner.start_number hc], ?_⟩
  rintro rfl
  cases hc

/-! ## What the tokens are -/

section IsToken

variable {text : String} {tokens : List Token}

theorem IsToken.symbol {s : Symbol} (h : IsToken s.text tokens) : ∃ token, tokens = [token] ∧ token.symbol? = some s := by
  obtain ⟨offset, rfl⟩ := h
  exact ⟨_, rfl, Symbol.ofText?_text s⟩

theorem IsToken.string (h : IsToken (Text.Quoted.encode text) tokens) :
    ∃ token, tokens = [token] ∧ token.leaf? = some (.string text) := by
  obtain ⟨offset, rfl⟩ := h
  exact ⟨_, rfl, Token.leaf?_encode text offset⟩

theorem IsToken.word (hw : Text.isWord text = true) {l : Leaf} (hl : Leaf.ofText? text = some l)
    (h : IsToken text tokens) : ∃ token, tokens = [token] ∧ token.leaf? = some l := by
  obtain ⟨offset, rfl⟩ := h
  obtain ⟨c, chars, htext, hstart, -⟩ := Text.exists_of_isWord hw
  have hsym : Symbol.ofText? text = none := Symbol.ofText?_of_start htext (by simp [hstart])
  exact ⟨_, rfl, Token.leaf?_eq_some_iff.2 ⟨hsym, hl⟩⟩

theorem IsToken.name (hn : Text.isName text = true) (h : IsToken text tokens) :
    ∃ token, tokens = [token] ∧ token.leaf? = some (.name text) := by
  simp only [Text.isName, Bool.and_eq_true, Bool.not_eq_true'] at hn
  obtain ⟨⟨hw, ht⟩, hf⟩ := hn
  exact h.word hw (by rw [Leaf.ofText?_word hw, ht, hf]; rfl)

theorem IsToken.bool {b : Bool} (h : IsToken (if b then "true" else "false") tokens) :
    ∃ token, tokens = [token] ∧ token.leaf? = some (.bool b) := by
  cases b <;> exact h.word (by decide) (by rfl)

theorem IsToken.number {value : Float} (hr : (Decimal.Literal.read? text.toList).map Decimal.Literal.value = some value)
    (hn : Decimal.IsNumeral text.toList) (h : IsToken text tokens) :
    ∃ token, tokens = [token] ∧ token.leaf? = some (.number value) := by
  obtain ⟨offset, rfl⟩ := h
  obtain ⟨c, chars, htext, hc⟩ := hn.exists_digit
  have hsym : Symbol.ofText? text = none :=
    Symbol.ofText?_of_start htext (by simp [Scanner.start_number hc])
  refine ⟨_, rfl, Token.leaf?_eq_some_iff.2 ⟨hsym, ?_⟩⟩
  rw [Option.map_eq_some_iff] at hr
  obtain ⟨n, hn, rfl⟩ := hr
  rw [htext] at hn
  rw [Token.startingAt, Leaf.ofText?_digit htext hc, hn]
  rfl

end IsToken

section After

variable {text : String} {between : Char → Prop} {P : List Token → Prop}

/-- A blank after a text gives no token, and anything may follow it. -/
theorem Scans.blankAfter (h : Scans text between P) (hb : between ' ') : Scans (text ++ " ") (fun _ => True) P :=
  h.append .blank ⟨' ', [], rfl, hb⟩ fun xs ys hx hy => by simpa [hy] using hx

/-- A symbol after a text. -/
theorem Scans.symbolAfter (h : Scans text between P) (s : Symbol)
    (hs : ∃ c rest, s.text.toList = c :: rest ∧ between c) :
    Scans (text ++ s.text) (fun c => Admits c ∧ c ≠ '=')
      (fun tokens => ∃ xs token, tokens = xs ++ [token] ∧ P xs ∧ token.symbol? = some s) := by
  refine h.append (.symbol s) hs fun xs ys hx hy => ?_
  obtain ⟨token, rfl, ht⟩ := hy.symbol
  exact ⟨xs, token, rfl, hx, ht⟩

end After

/-- A name ends where a character that ends it comes. -/
theorem Scans.name {text : String} (h : Text.isName text = true) :
    Scans text (fun c => Admits c ∧ Scanner.endsName c = true)
      (fun tokens => ∃ token, tokens = [token] ∧ token.leaf? = some (.name text)) :=
  (Scans.word (Text.isWord_of_isName h)).imp (fun _ hc => hc) fun _ ht => ht.name h

end DynamicConfig
