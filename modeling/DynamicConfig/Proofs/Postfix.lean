import DynamicConfig.Proofs.Brackets
import DynamicConfig.Proofs.Erasure
import DynamicConfig.Proofs.Joining
/-!
# Fields and calls as they are written

A chain is a term with fields and calls after it, in any order (`Chain`). Each of its parts ends before whatever may come
next: no bracket, dot or blank goes on in what stands before it (`Terminated`, `Continues`). So the tokens of a chain are
those of its parts, one after the other, and it has a lexical fault exactly if one of them has (`Joins.texts_append`,
`Joins.faults_append_iff`).
-/

namespace DynamicConfig

open Scanner (reached)

/-! ## Chains as they are written -/

/-- A text in quotes. -/
def quotedText (body : List Char) : String :=
  ("\"" ++ String.ofList body).push '"'

/-- Any number of blanks. -/
structure Blanks where
  text : String
  blank : ∀ c ∈ text.toList, Text.isBlank c = true

/-- What may stand between brackets, with faults or without: it does not end inside a string, and its own brackets are
balanced. -/
structure Enclosed where
  text : String
  outside : (reached text).isQuoted = false
  balanced : Balanced (tokenize text).1

/-- A name, a string, or anything between brackets. -/
inductive Primary
  | name (text : String) (h : Text.isName text = true)
  | string (body : List Char) {chars : List Char} (h : Text.Quoted.Spells body chars)
  | group (bracket : Bracket) (inner : Enclosed)

/-- A field or a call of what stands before it. -/
inductive Link
  | field (before after : Blanks) (key : Primary)
  | call (before : Blanks) (args : Enclosed)

/-- Fields and calls in a row. -/
structure Chain where
  target : Primary
  links : List Link

/-- The text between brackets. -/
def Bracket.around (bracket : Bracket) (text : String) : String :=
  (Symbol.opening bracket).text ++ text ++ (Symbol.closing bracket).text

/-- The way the primary is written. -/
def Primary.text : Primary → String
  | name text _ => text
  | string body _ => quotedText body
  | group bracket inner => bracket.around inner.text

/-- The way the link is written. -/
def Link.text : Link → String
  | field before after key => before.text ++ (Symbol.dot.text ++ (after.text ++ key.text))
  | call before args => before.text ++ Bracket.round.around args.text

/-- The chain without brackets of its own. -/
def Chain.text (chain : Chain) : String :=
  chain.links.foldl (fun text link => text ++ link.text) chain.target.text

/-- The chain with brackets around all that comes before a link, unless this is the first one. -/
def Chain.bracketed (chain : Chain) : String :=
  match chain.links with
  | [] => chain.target.text
  | link :: links => links.foldl (fun text link => Bracket.round.around text ++ link.text) (chain.target.text ++ link.text)

/-! ## Texts that a term may end with -/

/-- Whatever ends a name ends the last token of the text. -/
def Terminated (text : String) : Prop :=
  ∀ c, Scanner.endsName c = true → (reached text).ends c = true

variable {first second text : String}

theorem Terminated.outside (h : Terminated text) : (reached text).isQuoted = false := by
  have hblank : (reached text).ends ' ' = true := h ' ' (by decide)
  cases hr : reached text with
  | quoted => rw [hr] at hblank; cases hblank
  | _ => rfl

theorem Terminated.joins (h : Terminated first) (hs : ∀ c ∈ second.toList.head?, Scanner.endsName c = true) :
    Joins first second :=
  ⟨h.outside, fun c hc => h c (hs c hc)⟩

theorem Joins.terminated (h : Joins first second) (hne : second ≠ "") (hs : Terminated second) : Terminated (first ++ second) := by
  intro c hc
  rw [h.reached_append hne, Scanner.ends_shift]
  exact hs c hc

theorem Joins.texts_append (h : Joins first second) : texts (first ++ second) = texts first ++ texts second := by
  simp [texts, h.tokenize_append, Token.shift, Function.comp_def]

theorem Joins.faults_append_iff (h : Joins first second) :
    (tokenize (first ++ second)).2 = [] ↔ (tokenize first).2 = [] ∧ (tokenize second).2 = [] := by
  simp [h.tokenize_append]

/-! ### Single tokens -/

namespace Scanner

variable {start : Nat} {seen : String}

theorem after_word {chars : List Char} (h : ∀ c ∈ chars, endsName c = false) (offset : Nat) :
    (name start seen).after offset chars = name start (seen ++ String.ofList chars) := by
  induction chars generalizing seen offset with
  | nil => simp [after]
  | cons c chars ih =>
    obtain ⟨hc, hrest⟩ := List.forall_mem_cons.1 h
    rw [append_ofList_cons, ← ih hrest, after, step, hc]
    rfl

theorem after_spells {chars text : List Char} (h : Text.Quoted.Spells chars text) (offset : Nat) :
    (quoted start seen false).after offset chars = quoted start (seen ++ String.ofList chars) false := by
  induction h generalizing seen offset with
  | nil => simp [after]
  | @plain c _ _ hc _ ih =>
    obtain ⟨hq, hb⟩ := not_or.1 hc
    have hstep : (quoted start seen false).step offset c = (quoted start (seen.push c) false, []) := by simp [step, hq, hb]
    rw [append_ofList_cons, after, hstep]
    exact ih _
  | escaped c _ ih =>
    have hfirst : (quoted start seen false).step offset '\\' = (quoted start (seen.push '\\') true, []) := by simp [step]
    have hsecond (place : Nat) : (quoted start (seen.push '\\') true).step place c =
        (quoted start ((seen.push '\\').push c) false, []) := by simp [step]
    rw [append_ofList_cons, append_ofList_cons, after, hfirst, after, hsecond]
    exact ih _

end Scanner

theorem tokenize_of_scans {mayFollow : Char → Prop} (h : Scans text mayFollow (IsToken text)) :
    texts text = [text] ∧ (tokenize text).2 = [] := by
  obtain ⟨_, hlexemes, place, rfl⟩ := h.lexemes
  rw [texts, tokenize, hlexemes]
  exact ⟨rfl, rfl⟩

/-- A symbol that no character goes on in. -/
def Symbol.standsAlone (s : Symbol) : Bool :=
  s.isBracket || s == .dot

theorem Scanner.ends_of_standsAlone {s : Symbol} (hs : s.standsAlone = true) (c : Char) :
    (reached s.text).ends c = true := by
  have hreached : reached s.text = .symbol 0 s.text ∧ Symbol.ofText? (s.text.push '=') = none := by
    cases s with
    | opening bracket | closing bracket => cases bracket <;> decide +kernel
    | dot => decide +kernel
    | _ => cases hs
  rw [hreached.1, ends, Option.isNone_iff_eq_none]
  by_cases hc : c = '='
  · exact hc ▸ hreached.2
  · refine Symbol.ofText?_push (fun h => ?_) hc
    have hsome := Symbol.ofText?_text s
    rw [h] at hsome
    cases hsome

/-- Anything may come right after a bracket or a dot. -/
theorem joins_of_standsAlone {s : Symbol} (hs : s.standsAlone = true) (text : String) : Joins s.text text :=
  have hclosed : Terminated s.text := fun c _ => Scanner.ends_of_standsAlone hs c
  ⟨hclosed.outside, fun c _ => Scanner.ends_of_standsAlone hs c⟩

theorem terminated_name (h : Text.isName text = true) : Terminated text := by
  obtain ⟨c, chars, htext, hstart, hchars⟩ := Text.exists_of_isWord (Text.isWord_of_isName h)
  have hreached : reached text = .name 0 (String.singleton c ++ String.ofList chars) := by
    have hfirst : Scanner.between.step 0 c = (.name 0 (String.singleton c), []) := hstart 0
    rw [reached, htext, Scanner.after, hfirst]
    exact Scanner.after_word hchars _
  intro d hd
  rw [hreached]
  exact hd

theorem toList_quotedText (body : List Char) : (quotedText body).toList = '"' :: (body ++ ['"']) := by
  simp [quotedText]

section Quoted

variable {body chars : List Char} (h : Text.Quoted.Spells body chars)
include h

theorem terminated_quotedText : Terminated (quotedText body) := by
  have hreached : reached (quotedText body) = .between := by
    rw [reached, toList_quotedText, Scanner.after, Scanner.after_append]
    show ((Scanner.quoted 0 "\"" false).after _ body).after _ ['"'] = _
    rw [Scanner.after_spells h]
    rfl
  intro c _
  rw [hreached]
  rfl

theorem tokenize_quotedText : texts (quotedText body) = [quotedText body] ∧ (tokenize (quotedText body)).2 = [] := by
  have hscan : lexemes (quotedText body) = [.token (.startingAt 0 (quotedText body))] := by
    rw [lexemes, toList_quotedText]
    show (Scanner.quoted 0 "\"" false).scan (0 + "\"".utf8ByteSize) (body ++ ['"']) = _
    rw [Scanner.scan_spells h, Scanner.scan_quote]
    rfl
  rw [texts, tokenize, hscan]
  exact ⟨rfl, rfl⟩

end Quoted

/-! ### Brackets -/

namespace Scanner

variable {scanner : Scanner} {offset start : Nat} {seen : String}

theorem At.exists_after (h : scanner.At offset start seen) (chars : List Char) :
    ∃ offset' start' seen', (scanner.after offset chars).At offset' start' seen' := by
  induction chars generalizing scanner offset start seen with
  | nil => exact ⟨offset, start, seen, h⟩
  | cons c rest ih =>
    have hmove := move_step h c
    rw [after]
    generalize scanner.step offset c = result at hmove
    obtain ⟨next, found⟩ := result
    have hbegins (hb : Begins offset c next found) :
        ∃ offset' start' seen', (next.after (offset + c.utf8Size) rest).At offset' start' seen' := by
      cases hb with
      | blank | invalid => exact ih (.between _)
      | token hn => exact ih hn
    cases hmove with
    | begin _ hb => exact hbegins hb
    | more hn => exact ih hn
    | close _ => exact ih (.between _)
    | handOn _ hb => 
      cases hb with
      | blank | invalid => exact ih (.between _)
      | token hn => exact ih hn

/-- Outside of strings a closing bracket ends any token. -/
theorem At.ends_closing (h : scanner.At offset start seen) (hs : scanner.isQuoted = false) {bracket : Bracket} {c : Char}
    (hc : c ∈ (Symbol.closing bracket).text.toList.head?) : scanner.ends c = true := by
  have hbracket : Decimal.Literal.mayHold c = false ∧ c ≠ '=' ∧ endsName c = true := by
    cases bracket <;> (cases hc; decide)
  cases h with
  | between => rfl
  | quoted => cases hs
  | number => rw [ends, Decimal.isLiteral_push hbracket.1]; rfl
  | symbol _ hsymbol => rw [ends, Symbol.ofText?_push (ne_empty_of_ofText? hsymbol) hbracket.2.1]; rfl
  | name => exact hbracket.2.2

end Scanner

theorem Bracket.around_ne_empty (bracket : Bracket) : bracket.around text ≠ "" := by
  intro h
  have hlist := congrArg String.toList h
  cases bracket <;> simp [around, Symbol.text] at hlist

section Around

variable (bracket : Bracket) (h : (reached text).isQuoted = false)
include h

theorem Bracket.joins_around :
    Joins ((Symbol.opening bracket).text ++ text) (Symbol.closing bracket).text := by
  have hopen : Joins (Symbol.opening bracket).text text := joins_of_standsAlone rfl text
  obtain ⟨_, _, _, hat⟩ := (Scanner.At.between 0).exists_after text.toList
  refine ⟨hopen.outside_append h, fun c hc => ?_⟩
  exact hopen.ends_append (Scanner.ends_of_standsAlone rfl c) (hat.ends_closing h hc)

theorem Bracket.terminated_around : Terminated (bracket.around text) := by
  refine (bracket.joins_around h).terminated ?_ fun c _ => Scanner.ends_of_standsAlone rfl c
  cases bracket <;> decide

theorem Bracket.texts_around :
    texts (bracket.around text) = (Symbol.opening bracket).text :: (texts text ++ [(Symbol.closing bracket).text]) := by
  have hopen : Joins (Symbol.opening bracket).text text := joins_of_standsAlone rfl text
  rw [around, (bracket.joins_around h).texts_append, hopen.texts_append, (tokenize_of_scans (.symbol _)).1,
    (tokenize_of_scans (.symbol _)).1]
  rfl

theorem Bracket.faults_around_iff : (tokenize (bracket.around text)).2 = [] ↔ (tokenize text).2 = [] := by
  have hopen : Joins (Symbol.opening bracket).text text := joins_of_standsAlone rfl text
  rw [around, (bracket.joins_around h).faults_append_iff, hopen.faults_append_iff, (tokenize_of_scans (.symbol _)).2,
    (tokenize_of_scans (.symbol _)).2]
  simp

end Around

/-! ### Blanks -/

theorem Scanner.after_blanks {chars : List Char} (h : ∀ c ∈ chars, Text.isBlank c = true) (offset : Nat) :
    between.after offset chars = between ∧ between.scan offset chars = [] := by
  induction chars generalizing offset with
  | nil => exact ⟨rfl, rfl⟩
  | cons c rest ih =>
    obtain ⟨hc, hrest⟩ := List.forall_mem_cons.1 h
    have hstep : between.step offset c = (between, []) := if_pos hc
    rw [after, scan, hstep]
    exact ih hrest _

/-- The text goes on after another one: it begins with what ends the last token of that. -/
structure Continues (text : String) : Prop where
  nonempty : text ≠ ""
  begins : ∀ c ∈ text.toList.head?, Scanner.endsName c = true
  terminated : Terminated text

theorem append_ne_empty (hne : second ≠ "") : first ++ second ≠ "" := by
  intro h
  have hlist := congrArg String.toList h
  rw [String.toList_append] at hlist
  exact hne (String.toList_eq_nil_iff.1 (List.append_eq_nil_iff.1 hlist).2)

/-- A bracket or a dot ends any name before it. -/
theorem Symbol.begins_of_standsAlone {s : Symbol} (hs : s.standsAlone = true) (text : String) :
    ∀ c ∈ (s.text ++ text).toList.head?, Scanner.endsName c = true := by
  intro c hc
  rw [String.toList_append] at hc
  cases s with
  | opening bracket | closing bracket => cases bracket <;> (cases hc; decide)
  | dot => cases hc; decide
  | _ => cases hs

namespace Blanks

variable (blanks : Blanks)

theorem reached_eq : reached blanks.text = .between :=
  (Scanner.after_blanks blanks.blank 0).1

theorem joins (text : String) : Joins blanks.text text :=
  ⟨by rw [blanks.reached_eq]; rfl, fun c _ => by rw [blanks.reached_eq]; rfl⟩

/-- Blanks before a text have no tokens. -/
theorem texts_append (text : String) : texts (blanks.text ++ text) = texts text := by
  rw [(blanks.joins text).texts_append, texts, tokenize, lexemes, (Scanner.after_blanks blanks.blank 0).2]
  rfl

theorem terminated_append (hne : text ≠ "") (h : Terminated text) : Terminated (blanks.text ++ text) :=
  (blanks.joins text).terminated hne h

theorem continues_append (h : Continues text) : Continues (blanks.text ++ text) := by
  refine ⟨append_ne_empty h.nonempty, fun c hc => ?_, blanks.terminated_append h.nonempty h.terminated⟩
  rw [String.toList_append] at hc
  cases hchars : blanks.text.toList with
  | nil =>
    rw [hchars] at hc
    exact h.begins c hc
  | cons d rest =>
    have hd : Text.isBlank d = true := blanks.blank d (by simp [hchars])
    rw [hchars] at hc
    cases hc
    simp [Scanner.endsName, hd]

end Blanks

end DynamicConfig
