import DynamicConfig.Proofs.Course
import DynamicConfig.Proofs.Heights
/-!
# What is cut off

The limit on heights cuts off exactly what is too high (`cuts_exactly_what_is_too_high`): the height that is kept with a
term is that of the term at all times, and a term is cut off, which is reported once, exactly if the tree that is read
without a limit is higher than the limit.
-/

namespace DynamicConfig

variable {limit : Option Nat} {stop : Nat}

/-! ## Without a limit nothing is cut off -/

theorem RawTree.isWhole_ofToken (token : Token) : (RawTree.ofToken token).1.IsWhole := by
  unfold RawTree.ofToken
  split <;> trivial

theorem Frame.inherited_isWhole : Frame.Inherited none (·.1.IsWhole) where
  missing _ := trivial
  cutOff _ _ h := by cases h
  ofToken := RawTree.isWhole_ofToken
  binary _ _ _ _ hleft hright _ := ⟨hleft, hright⟩
  apply _ _ _ hcallee hargs _ := ⟨hcallee, hargs⟩
  group _ _ _ hinner _ := hinner

theorem RawTree.isWhole_ofSource_none (source : String) : (RawTree.ofSource none source).1.IsWhole :=
  (Reading.all_run Frame.inherited_isWhole (Reading.all_initial _)).elim fun _ h => h

/-- A tree is not cut exactly if it is low enough without the limit. -/
theorem RawTree.isWhole_ofSource_iff {n : Nat} (hn : 0 < n) (source : String) :
    (RawTree.ofSource (some n) source).1.IsWhole ↔ (RawTree.ofSource none source).1.height ≤ n := by
  constructor
  · intro h
    rw [← RawTree.ofSource_of_isWhole h]
    exact RawTree.height_ofSource_le hn source
  · intro h
    rw [RawTree.ofSource_of_height_le h]
    exact RawTree.isWhole_ofSource_none source

/-! ## What is kept on the way -/

/-- What a frame becomes while operators take their operands, which may be missing. -/
inductive Frame.Becomes (limit : Option Nat) (f : Frame) : Frame → Prop
  | same : Becomes limit f f
  | miss {g : Frame} (h : Becomes limit f g) (offset : Nat) : Becomes limit f (g.miss offset)
  | reduce {g : Frame} (h : Becomes limit f g) (op : PendingOp) : Becomes limit f (g.reduce limit op)

theorem Frame.Becomes.all {P : RawTree × Nat → Prop} (hP : Frame.Inherited limit P) {f g : Frame}
    (h : f.Becomes limit g) (hf : f.All P) : g.All P := by
  induction h with
  | same => exact hf
  | miss _ offset ih => exact Frame.all_miss hP ih offset
  | reduce _ op ih => exact Frame.all_reduce hP ih op

namespace Reading

/-- The frames of a reading, the innermost first. -/
def frames (r : Reading) : List Frame :=
  r.current :: r.opened.map OpenBracket.around

/-- The readings that there are while tokens are read, and while what is open then is closed where the source text
ends. -/
inductive Stage (limit : Option Nat) (stop : Nat) (tokens : List Token) : Reading → Prop
  | passed {first later : List Token} {r : Reading} (htokens : tokens = first ++ later) (h : Passes limit {} first r) :
    Stage limit stop tokens r
  | closed {r : Reading} {innermost : OpenBracket} {outer : List OpenBracket} (h : Stage limit stop tokens r)
    (ho : r.opened = innermost :: outer) :
    Stage limit stop tokens (r.closeBracket limit innermost outer stop ⟨innermost.start, stop⟩)

variable {r next last : Reading} {tokens : List Token}

theorem Stage.all {P : RawTree × Nat → Prop} (hP : Frame.Inherited limit P) (h : Stage limit stop tokens r) :
    r.All P := by
  induction h with
  | passed _ h => exact h.all hP (all_initial P)
  | closed _ ho ih => exact all_closeBracket hP ih ho _ _

theorem All.frames {P : RawTree × Nat → Prop} (h : r.All P) : ∀ f ∈ r.frames, f.All P :=
  List.forall_mem_cons.2 ⟨h.1, List.forall_mem_map.2 h.2⟩

/-! ## What is cut off on the way -/

theorem Passes.uncut (h : Passes limit r tokens next) (hu : next.Uncut) : Passes none r tokens next ∧ r.Uncut := by
  induction h with
  | nil r => exact ⟨.nil r, hu⟩
  | cons hstep _ ih =>
    obtain ⟨hrest, hbetween⟩ := ih hu
    obtain ⟨hstep, hr⟩ := hstep.uncut hbetween
    exact ⟨.cons hstep hrest, hr⟩

theorem Passes.allWhole (h : Passes limit r tokens next) (hs : r.InStep) (hw : next.AllWhole) :
    r.AllWhole ∧ (r.Uncut → next.Uncut) := by
  induction h with
  | nil => exact ⟨hw, id⟩
  | cons hstep _ ih =>
    obtain ⟨hbetween, hnext⟩ := ih (hstep.inStep hs) hw
    obtain ⟨hr, hcut⟩ := hstep.allWhole hs hbetween
    exact ⟨hr, hnext ∘ hcut⟩

/-- No place is kept where a term was cut off exactly if nothing is cut off from the tree. -/
theorem Passes.cutAt_eq_none_iff (h : Passes limit {} tokens last) :
    (last.finish limit stop).2 = none ↔ (last.finish limit stop).1.IsWhole := by
  constructor
  · intro hnone
    obtain ⟨heq, hu⟩ := finish_uncut hnone
    have hall := (h.uncut hu).1.all Frame.inherited_isWhole (all_initial _)
    rw [heq]
    exact (all_finish Frame.inherited_isWhole hall).elim fun _ hwhole => hwhole
  · intro hwhole
    obtain ⟨hw, hcut⟩ := finish_isWhole (h.inStep inStep_initial) hwhole
    exact hcut ((h.allWhole inStep_initial hw).2 uncut_initial)

end Reading

/-! ## Faults -/

/-- Whether the fault is that of a term nested too deep. -/
def ParseError.isTooDeep (e : ParseError) : Bool :=
  e.kind = .tooDeep

theorem ParseError.isStructural_of_isTooDeep {e : ParseError} (h : e.isTooDeep) : e.isStructural := by
  simp_all [isTooDeep, isStructural]

/-- At the end the first term that was cut off is found wrong. -/
theorem Reading.countP_isTooDeep_endFaults (limit : Option Nat) (r : Reading) (stop : Nat) :
    (r.endFaults limit stop).countP ParseError.isTooDeep = if (r.finish limit stop).2 = none then 0 else 1 := by
  have hopened : (r.opened.map fun o => ParseError.mk .incompleteBraces o.start).countP ParseError.isTooDeep = 0 :=
    List.countP_eq_zero.2 (List.forall_mem_map.2 fun _ _ => by simp [ParseError.isTooDeep])
  rw [endFaults, List.countP_append, hopened, Nat.zero_add]
  cases (r.finish limit stop).2 <;> rfl

/-- A source text whose brackets pair has a fault of nesting, and only one, exactly if it is too high without the
limit. -/
theorem RawTree.countP_isTooDeep_ofSource {n : Nat} (hn : 0 < n) {source : String}
    (hpairs : ∀ e ∈ (RawTree.ofSource (some n) source).2, e.kind ≠ .mismatchedBraces) :
    (RawTree.ofSource (some n) source).2.countP ParseError.isTooDeep =
      if n < (RawTree.ofSource none source).1.height then 1 else 0 := by
  have hwhole := RawTree.isWhole_ofSource_iff hn source
  have hending := Reading.ending_ofSource (some n) source
  generalize RawTree.ofSource (some n) source = result at hpairs hwhole hending
  cases hending with
  | @complete last between hpasses hbetween =>
    have hnone : between.countP ParseError.isTooDeep = 0 :=
      List.countP_eq_zero.2 fun e he htooDeep =>
        (hbetween e he).not_isStructural (ParseError.isStructural_of_isTooDeep htooDeep)
    -- The place kept where a term was cut off, the tree and its height without the limit all say the same.
    rw [List.countP_append, hnone, Nat.zero_add, Reading.countP_isTooDeep_endFaults]
    simp only [hpasses.cutAt_eq_none_iff, hwhole, ← Nat.not_lt, ite_not]
  | stopped htokens hpasses hbetween hs ho =>
    exact absurd rfl (hpairs _ (List.mem_append_right _ (List.mem_singleton_self _)))

/-- No fault of nesting is found after the raw tree. -/
theorem countP_isTooDeep_of_parse {source : String} {parsed : Parsed} (h : parse source = .ok parsed) :
    parsed.errors.countP ParseError.isTooDeep =
      (RawTree.ofSource (some Frame.maxHeight) source).2.countP ParseError.isTooDeep := by
  obtain ⟨more, herrors, hmore⟩ := exists_faults_of_parse h
  have hnone : more.countP ParseError.isTooDeep = 0 :=
    List.countP_eq_zero.2 fun e he htooDeep =>
      (hmore e he).not_isStructural (ParseError.isStructural_of_isTooDeep htooDeep)
  rw [herrors, List.countP_append, hnone, Nat.add_zero]

theorem toList_pushn (s : String) (c : Char) (n : Nat) : (s.pushn c n).toList = s.toList ++ List.replicate n c := by
  rw [String.pushn]
  induction n with
  | zero => simp [Nat.repeat]
  | succ n ih => rw [Nat.repeat, String.toList_push, ih, List.append_assoc, List.replicate_succ']

/-- Where all brackets pair, the limit cuts off exactly what is too high: the height kept with a term is always that of
the term, the tree is not higher than the limit, and a term is cut off, which is found wrong once, exactly if the tree
is higher without the limit. -/
theorem cuts_exactly_what_is_too_high (source : String)
    (hpairs : ∀ e ∈ (RawTree.ofSource (some Frame.maxHeight) source).2, e.kind ≠ .mismatchedBraces) :
    (∀ r, Reading.Stage (some Frame.maxHeight) source.utf8ByteSize (tokenize source).1 r → ∀ f ∈ r.frames,
        ∀ g, f.Becomes (some Frame.maxHeight) g → ∀ term ∈ g.terms, term.2 = term.1.height) ∧
      (RawTree.ofSource (some Frame.maxHeight) source).1.height ≤ Frame.maxHeight ∧
      (RawTree.ofSource (some Frame.maxHeight) source).2.countP ParseError.isTooDeep =
        (if Frame.maxHeight < (RawTree.ofSource none source).1.height then 1 else 0) ∧
      (∀ parsed, parse source = .ok parsed → parsed.errors.countP ParseError.isTooDeep =
        (if Frame.maxHeight < (RawTree.ofSource none source).1.height then 1 else 0)) ∧
      (Frame.maxHeight < (RawTree.ofSource none source).1.height ↔
        ¬ (RawTree.ofSource (some Frame.maxHeight) source).1.IsWhole) := by
  have hpos : 0 < Frame.maxHeight := by decide
  have hcount := RawTree.countP_isTooDeep_ofSource hpos hpairs
  refine ⟨fun r hr f hf g hg term hterm => ?_, RawTree.height_ofSource_le hpos source, hcount,
    fun parsed hparse => (countP_isTooDeep_of_parse hparse).trans hcount, ?_⟩
  · have hfits := Frame.inherited_fits (show Frame.exceeds (some Frame.maxHeight) 1 = false from rfl)
    exact (hg.all hfits ((hr.all hfits).frames f hf) term hterm).1
  · rw [RawTree.isWhole_ofSource_iff hpos, Nat.not_le]

/-- Each operator of 256 that stand in front of a name is one level more than the name. -/
theorem long_negation_is_cut :
    (∀ e ∈ (RawTree.ofSource (some Frame.maxHeight) ("".pushn '!' 256 ++ "a")).2, e.kind ≠ .mismatchedBraces) ∧
      (RawTree.ofSource (some Frame.maxHeight) ("".pushn '!' 256 ++ "a")).2.countP ParseError.isTooDeep = 1 ∧
      ¬ (RawTree.ofSource (some Frame.maxHeight) ("".pushn '!' 256 ++ "a")).1.IsWhole := by
  -- The characters are written out, since to decode so long a text is most of the work of reading it.
  have hchars : ("".pushn '!' 256 ++ "a").toList = List.replicate 256 '!' ++ ['a'] := by
    rw [String.toList_append, toList_pushn, String.toList_empty, List.nil_append, show "a".toList = ['a'] from rfl]
  have hsize : ("".pushn '!' 256 ++ "a").utf8ByteSize = 257 := by decide +kernel
  have hread (limit : Option Nat) : RawTree.ofSource limit ("".pushn '!' 256 ++ "a") =
      Reading.run limit 257 {} (Scanner.between.scan 0 (List.replicate 256 '!' ++ ['a'])) := by
    rw [RawTree.ofSource, lexemes, hchars, hsize]
  have hpairs : ∀ e ∈ (RawTree.ofSource (some Frame.maxHeight) ("".pushn '!' 256 ++ "a")).2,
      e.kind ≠ .mismatchedBraces := by
    rw [hread]
    decide +kernel
  have hhigh : Frame.maxHeight < (RawTree.ofSource none ("".pushn '!' 256 ++ "a")).1.height := by
    rw [hread]
    decide +kernel
  obtain ⟨-, -, hcount, -, hcut⟩ := cuts_exactly_what_is_too_high _ hpairs
  exact ⟨hpairs, hcount.trans (if_pos hhigh), hcut.1 hhigh⟩

end DynamicConfig
