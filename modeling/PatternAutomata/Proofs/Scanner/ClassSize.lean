import PatternAutomata.Proofs.CharClass.Size
import PatternAutomata.Proofs.Scanner.Locality

/-!
# The limit for classes

A class in brackets or a shorthand is refused exactly if its size is over the limit. The size is the
number of the characters that the class stands for, and the surrogates that one of its ranges goes
over are counted too. A class that is not refused offers each of its characters by itself.
-/
namespace PatternAutomata

open CharClass (Apart surrogatesWithin)

/-- The characters that a class stands for: its members, and where case is ignored everything that
agrees with one of them up to case. -/
def Config.covers (config : Config) (s : CharClass) : Set Char :=
  {c | ∃ m, s.contains m = true ∧
    (m = c ∨ config.caseInsensitive = true ∧ agreeUpToCase m c = true)}

/-- The class that is expanded: folded if case is ignored. -/
def Config.expanded (config : Config) (s : CharClass) : CharClass :=
  if config.caseInsensitive then s.foldCase else s

section
variable {config : Config} {s : CharClass} {c : Char}

theorem agreeUpToCase_refl (c : Char) : agreeUpToCase c c = true := agreeUpToCase_iff.mpr rfl

theorem Config.contains_expanded :
    (config.expanded s).contains c = true ↔ c ∈ config.covers s := by
  cases hfold : config.caseInsensitive with
  | false => simp [expanded, covers, hfold]
  | true =>
    simp only [expanded, covers, hfold, if_true, CharClass.contains_foldCase, Set.mem_ofPred_eq,
      true_and]
    refine exists_congr fun m => and_congr_right fun _ => ⟨.inr, ?_⟩
    rintro (rfl | h)
    · exact agreeUpToCase_refl m
    · exact h

theorem Config.covers_ofRanges (config : Config) (rs : List CharRange) :
    config.covers (.ofRanges rs) = config.covers ⟨rs⟩ := by
  simp only [covers, CharClass.contains_ofRanges]

theorem Config.covers_eq_of_cased (hfold : config.caseInsensitive = false) :
    config.covers s = {c | s.contains c = true} := by
  simp [covers, hfold]

theorem Config.apart_expanded (config : Config) (h : Apart s.ranges) :
    Apart (config.expanded s).ranges := by
  unfold expanded
  split
  · exact CharClass.apart_ofRanges _
  · exact h

theorem Config.size_expanded (config : Config) (h : Apart s.ranges) :
    (config.expanded s).size = (config.covers s).ncard + surrogatesWithin s.ranges := by
  have hapart := config.apart_expanded h
  have hwithin : surrogatesWithin (config.expanded s).ranges = surrogatesWithin s.ranges := by
    unfold expanded
    split
    · simp only [surrogatesWithin, CharClass.bridges_foldCase]
    · rfl
  have hcovers : {c | (config.expanded s).contains c = true} = config.covers s :=
    Set.ext fun c => config.contains_expanded
  rw [CharClass.size_eq_length hapart, ← CharClass.ncard_contains hapart, hwithin, hcovers]

end

namespace Scanner
variable {origin : Nat} {s : CharClass} {rs : List CharRange} {negated : Bool}

/-- What comes of a class: the refusal of what is too large, or a term that offers each character of
the class by itself. -/
theorem termOfClass_law (config : Config) (h : Apart s.ranges) (origin : Nat) (negated : Bool) :
    config.classLimit < (config.covers s).ncard + surrogatesWithin s.ranges ∧
        termOfClass config origin s negated = .error ⟨origin, .classTooLarge config.classLimit⟩ ∨
      (config.covers s).ncard + surrogatesWithin s.ranges ≤ config.classLimit ∧
        ∃ texts : Texts, termOfClass config origin s negated = .ok (.choice texts negated) ∧
          ∀ text, text ∈ texts ↔ ∃ c ∈ config.covers s, [c] = text := by
  have hterm : termOfClass config origin s negated =
      if config.classLimit < (config.expanded s).size
      then .error ⟨origin, .classTooLarge config.classLimit⟩
      else .ok (.choice
        (Std.ExtTreeSet.ofList ((config.expanded s).chars.map fun c => [c])) negated) := rfl
  rw [hterm, config.size_expanded h]
  split
  · next hlt => exact .inl ⟨hlt, rfl⟩
  · next hle =>
    refine .inr ⟨Nat.le_of_not_lt hle, _, rfl, fun text => ?_⟩
    simp only [Std.ExtTreeSet.mem_ofList, List.contains_iff_mem, List.mem_map, CharClass.mem_chars,
      Config.contains_expanded]

/-- The shorthands are for digits, the characters of words, and blanks. -/
theorem isShorthand_of_readEscape {cur after : Cursor} {members : CharClass}
    (h : readEscape origin cur = (.ok (.shorthand members negated), after)) :
    members.IsShorthand := by
  unfold readEscape at h
  split at h
  · cases h
  · dsimp only at h
    split at h
    case h_7 | h_8 =>
      obtain ⟨_, -, hv⟩ := of_map_eq_ok (Prod.mk.inj h).1
      cases hv
    case h_15 => split at h <;> cases h
    all_goals
      cases h <;> simp [CharClass.IsShorthand]

/-- Whether the scanner stands before a class in brackets or a shorthand that is written as it
should be, and which ranges it has and whether it is negated. -/
inductive ClassAhead (s : Scanner) : List CharRange → Bool → Prop
  | bracketed {text : List Char} {ranges : List CharRange} {after : Cursor}
    (hr : s.cursor.rest = '[' :: text)
    (hitems : readItems s.config.encoding s.cursor.offset []
      (openClass (s.cursor.past '[' text)).2 = (.ok ranges, after)) (hne : ranges ≠ []) :
    ClassAhead s ranges (openClass (s.cursor.past '[' text)).1
  | shorthand {text : List Char} {members : CharClass} {negated : Bool} {after : Cursor}
    (hr : s.cursor.rest = '\\' :: text)
    (hescape : readEscape s.cursor.offset (s.cursor.past '\\' text) =
      (.ok (.shorthand members negated), after)) :
    ClassAhead s members.ranges negated

/-- A token is read from the canonical class of the ranges. -/
theorem ClassAhead.exists_class {s : Scanner} (h : s.ClassAhead rs negated) :
    ∃ members : CharClass, Apart members.ranges ∧
      s.config.covers members = s.config.covers ⟨rs⟩ ∧
      surrogatesWithin members.ranges = surrogatesWithin rs ∧
      s.next.1 = (termOfClass s.config s.cursor.offset members negated).map fun term =>
        ⟨.letters, some term, s.cursor.offset⟩ := by
  cases h with
  | bracketed hr hitems hne =>
    obtain ⟨r, rs, rfl⟩ := List.exists_cons_of_ne_nil hne
    refine ⟨.ofRanges (r :: rs), CharClass.apart_ofRanges _, s.config.covers_ofRanges _, ?_, ?_⟩
    · simp only [surrogatesWithin, CharClass.bridges_ofRanges]
    · rw [next_bracket hr]
      simp only [readBy, readClass, hitems]
  | @shorthand _ members _ _ hr hescape =>
    refine ⟨members, (isShorthand_of_readEscape hescape).apart, rfl, rfl, ?_⟩
    rw [next_backslash hr]
    simp only [readBy, readEscaped, hescape]

/-- A class is refused exactly if its characters, and the surrogates that one of its ranges goes
over, are more than the limit. Otherwise its token offers each of its characters by itself. -/
theorem next_class_law {s : Scanner} (h : s.ClassAhead rs negated) :
    (s.next.1 = .error ⟨s.cursor.offset, .classTooLarge s.config.classLimit⟩ ↔
      s.config.classLimit < (s.config.covers ⟨rs⟩).ncard + surrogatesWithin rs) ∧
    ((s.config.covers ⟨rs⟩).ncard + surrogatesWithin rs ≤ s.config.classLimit →
      ∃ texts : Texts,
        s.next.1 = .ok ⟨.letters, some (.choice texts negated), s.cursor.offset⟩ ∧
        ∀ text, text ∈ texts ↔ ∃ c ∈ s.config.covers ⟨rs⟩, [c] = text) := by
  obtain ⟨members, hapart, hcovers, hwithin, hnext⟩ := h.exists_class
  have hlaw := termOfClass_law s.config hapart s.cursor.offset negated
  rw [hcovers, hwithin] at hlaw
  rw [hnext]
  obtain ⟨hlt, hterm⟩ | ⟨hle, texts, hterm, htexts⟩ := hlaw
  · rw [hterm]
    exact ⟨iff_of_true rfl hlt, fun hle => absurd hlt (Nat.not_lt.mpr hle)⟩
  · rw [hterm]
    exact ⟨iff_of_false nofun (Nat.not_lt.mpr hle), fun _ => ⟨texts, rfl, htexts⟩⟩

/-- The ten digits, of which as many are allowed. -/
theorem next_class_law_digits : ∃ texts : Texts,
    let s := ofText { classLimit := 10 } "\\d"
    s.ClassAhead CharClass.digit.ranges false ∧
      s.next.1 = .ok ⟨.letters, some (.choice texts false), 0⟩ ∧
      ∀ text, text ∈ texts ↔ ∃ c ∈ s.config.covers .digit, [c] = text := by
  have hahead : (ofText { classLimit := 10 } "\\d").ClassAhead CharClass.digit.ranges false :=
    .shorthand rfl rfl
  have hcount : (Config.covers { classLimit := 10 } .digit).ncard = 10 := by
    rw [Config.covers_eq_of_cased rfl, CharClass.ncard_contains (by decide)]
    decide
  obtain ⟨texts, hnext, htexts⟩ := (next_class_law hahead).2 (Nat.le_of_eq hcount)
  exact ⟨texts, hahead, hnext, htexts⟩

/-- The two characters on either side of the surrogates are too many where two are allowed. -/
theorem classTooLarge_despite_count :
    let s := ofText { classLimit := 2 } "[\\u\x7bD7FF\x7d-\\u\x7bE000\x7d]"
    s.ClassAhead [⟨'\ud7ff', '\ue000'⟩] false ∧
      (s.config.covers ⟨[⟨'\ud7ff', '\ue000'⟩]⟩).ncard = s.config.classLimit ∧
      s.next.1 = .error ⟨0, .classTooLarge 2⟩ := by
  have hr : (ofText { classLimit := 2 } "[\\u\x7bD7FF\x7d-\\u\x7bE000\x7d]").cursor.rest =
      '[' :: "\\u\x7bD7FF\x7d-\\u\x7bE000\x7d]".toList := rfl
  have hitems : readItems .utf8 0 [] ⟨"\\u\x7bD7FF\x7d-\\u\x7bE000\x7d]".toList, 1⟩ =
      (.ok [⟨'\ud7ff', '\ue000'⟩], ⟨[], 19⟩) := by decide +kernel
  have hahead := ClassAhead.bracketed hr hitems (List.cons_ne_nil _ _)
  refine ⟨hahead, ?_, by decide +kernel⟩
  change (Config.covers { classLimit := 2 } _).ncard = 2
  rw [Config.covers_eq_of_cased rfl, CharClass.ncard_contains (by decide)]
  decide +kernel

end Scanner

end PatternAutomata
