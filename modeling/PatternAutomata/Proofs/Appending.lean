import PatternAutomata.Proofs.Parser.Checked

/-!
# What is put behind an automaton

Sequences of byte ranges, texts and single characters are put behind an automaton as they stand. The
result matches a text of the automaton and one of theirs behind it, as it does when an automaton of
its own is built for them first and concatenated then.
-/
namespace PatternAutomata

namespace Automaton
variable {a : Automaton} {e : Encoding} {texts : Texts} {text : List Char}

/-! ## Sequences of ranges -/

theorem fits_iff_getElem? {ranges : List (UInt8 × UInt8)} {w : List UInt8} :
    Fits ranges w ↔ ranges.length = w.length ∧
      ∀ (i : Nat) lo hi c, ranges[i]? = some (lo, hi) → w[i]? = some c → lo ≤ c ∧ c ≤ hi := by
  rw [Fits, List.forall₂_iff_get]
  refine and_congr_right fun _ => ?_
  simp only [Label.reads_bytes, List.get_eq_getElem, List.getElem?_eq_some_iff]
  constructor
  · rintro h i lo hi c ⟨hr, hrange⟩ ⟨hw, rfl⟩
    simpa [hrange] using h i hr hw
  · intro h i hr hw
    exact h i _ _ _ ⟨hr, rfl⟩ ⟨hw, rfl⟩

/-- A choice between sequences matches behind an automaton what one of the sequences describes byte
by byte. No text takes its bytes from two of them. -/
theorem appendChoice_law (h : a.WellFormed) (sequences : List (List (UInt8 × UInt8))) :
    (choice? sequences).bind a.concat? = some (a.appendChoice sequences) ∧
      ∀ b w z, (a.appendChoice sequences).meaning b w z ↔ ∃ u s, w = u ++ s ∧
        (∃ ranges ∈ sequences, ranges.length = s.length ∧
          ∀ (i : Nat) lo hi c, ranges[i]? = some (lo, hi) → s[i]? = some c → lo ≤ c ∧ c ≤ hi) ∧
        a.meaning b u (z && s.isEmpty) := by
  constructor
  · rw [choice?_eq, Option.bind_some, concat?_eq h, appendChoice]
  · intro b w z
    rw [meaning_appendChoice h]
    simp only [fits_iff_getElem?]
    exact exists_congr fun u => exists_congr fun s => and_congr_right fun _ => and_comm

/-- Two sequences with a common beginning, an empty one and one that no byte fits. -/
def crossedRanges : List (List (UInt8 × UInt8)) :=
  [[(1, 5), (7, 7)], [(3, 9), (0, 255), (4, 4)], [], [(2, 1)]]

theorem appendChoice_crossedRanges : anchoredLoop.WellFormed ∧
    (choice? crossedRanges).bind anchoredLoop.concat? =
      some (anchoredLoop.appendChoice crossedRanges) ∧
    ∀ b w z, (anchoredLoop.appendChoice crossedRanges).meaning b w z ↔ ∃ u s, w = u ++ s ∧
      (∃ ranges ∈ crossedRanges, ranges.length = s.length ∧
        ∀ (i : Nat) lo hi c, ranges[i]? = some (lo, hi) → s[i]? = some c → lo ≤ c ∧ c ≤ hi) ∧
      anchoredLoop.meaning b u (z && s.isEmpty) := by
  have h : anchoredLoop.WellFormed := by decide
  exact ⟨h, appendChoice_law h crossedRanges⟩

/-! ## Texts -/

/-- A text that cannot be written adds no bytes to those of the others. -/
theorem encode_insert_of_none (h : e.encodeAll? text = none) :
    Texts.encode (texts.insert text) e = texts.encode e := by
  refine Std.ExtTreeSet.ext_mem fun w => ?_
  simp only [Texts.mem_encode, Std.ExtTreeSet.mem_insert, Std.LawfulEqCmp.compare_eq_iff_eq]
  constructor
  · rintro ⟨other, rfl | hmem, henc⟩
    · rw [h] at henc
      cases henc
    · exact ⟨other, hmem, henc⟩
  · rintro ⟨other, hmem, henc⟩
    exact ⟨other, .inr hmem, henc⟩

/-- When no text can be written, nothing is left of what stands before them. -/
theorem appendTexts_eq_nothing (h : ∀ text ∈ texts, e.encodeAll? text = none) :
    a.appendTexts texts e = nothing := by
  have hempty : texts.encode e = ∅ := by
    refine Std.ExtTreeSet.ext_mem fun w => iff_of_false (fun hw => ?_) Std.ExtTreeSet.not_mem_empty
    obtain ⟨text, htext, henc⟩ := Texts.mem_encode.mp hw
    rw [h text htext] at henc
    cases henc
  simp [appendTexts, hempty]

/-- Texts behind an automaton match what splits into a text of the automaton and the bytes of one of
them, character by character. A text with a character that has no bytes takes no part at all, and
where all texts are such nothing is matched any more. -/
theorem appendTexts_law (h : a.WellFormed) (texts : Texts) (e : Encoding) :
    a.joinTexts? texts e = some (a.appendTexts texts e) ∧
      (∀ b w z, (a.appendTexts texts e).meaning b w z ↔ ∃ u s, w = u ++ s ∧
        (∃ text ∈ texts, ∃ pieces, s = pieces.flatten ∧
          List.Forall₂ (fun c piece => e.encode? c = some piece) text pieces) ∧
        a.meaning b u (z && s.isEmpty)) ∧
      (∀ text, (∃ c ∈ text, e.encode? c = none) →
        a.appendTexts (texts.insert text) e = a.appendTexts texts e) ∧
      ((∀ text ∈ texts, ∃ c ∈ text, e.encode? c = none) →
        a.appendTexts texts e = nothing ∧ ∀ b w z, ¬ (a.appendTexts texts e).meaning b w z) := by
  refine ⟨joinTexts?_eq h texts e, ?_, ?_, ?_⟩
  · intro b w z
    rw [meaning_appendTexts h]
    refine exists_congr fun u => exists_congr fun s => and_congr_right fun _ => ?_
    rw [and_comm, Term.meaning, Meaning.strings]
    simp only [Encoding.encodeAll?_eq_some_iff, and_comm]
  · intro text hnone
    simp only [appendTexts, encode_insert_of_none (Encoding.encodeAll?_eq_none_iff.mpr hnone)]
  · intro hnone
    have hnothing : a.appendTexts texts e = nothing :=
      appendTexts_eq_nothing fun text htext =>
        Encoding.encodeAll?_eq_none_iff.mpr (hnone text htext)
    simp [hnothing, Meaning.nothing]

/-- One text that ASCII cannot write in full, one that it can, and the empty one. -/
def partlyAscii : Texts := Std.ExtTreeSet.ofList [['a', 'é'], ['b'], []]

theorem appendTexts_partlyAscii : anchoredLoop.WellFormed ∧
    anchoredLoop.joinTexts? partlyAscii .ascii =
      some (anchoredLoop.appendTexts partlyAscii .ascii) ∧
    (∀ b w z, (anchoredLoop.appendTexts partlyAscii .ascii).meaning b w z ↔ ∃ u s, w = u ++ s ∧
      (∃ text ∈ partlyAscii, ∃ pieces, s = pieces.flatten ∧
        List.Forall₂ (fun c piece => Encoding.ascii.encode? c = some piece) text pieces) ∧
      anchoredLoop.meaning b u (z && s.isEmpty)) ∧
    (∃ c ∈ ['b', 'é'], Encoding.ascii.encode? c = none) ∧
    anchoredLoop.appendTexts (partlyAscii.insert ['b', 'é']) .ascii =
      anchoredLoop.appendTexts partlyAscii .ascii ∧
    (∀ text ∈ ({['b', 'é']} : Texts), ∃ c ∈ text, Encoding.ascii.encode? c = none) ∧
    anchoredLoop.appendTexts {['b', 'é']} .ascii = nothing ∧
    ∀ b w z, ¬ (anchoredLoop.appendTexts {['b', 'é']} .ascii).meaning b w z := by
  have h : anchoredLoop.WellFormed := by decide
  have hnone : ∃ c ∈ ['b', 'é'], Encoding.ascii.encode? c = none := ⟨'é', by decide, by decide⟩
  have hall : ∀ text ∈ ({['b', 'é']} : Texts), ∃ c ∈ text, Encoding.ascii.encode? c = none := by
    intro text htext
    obtain rfl : ['b', 'é'] = text := by simpa using htext
    exact hnone
  obtain ⟨hrun, hmeaning, hdropped, -⟩ := appendTexts_law h partlyAscii .ascii
  exact ⟨h, hrun, hmeaning, hnone, hdropped _ hnone, hall,
    (appendTexts_law h {['b', 'é']} .ascii).2.2.2 hall⟩

end Automaton

/-! ## Directly or by way of an automaton -/

/-- Whether a term is put behind an automaton without one of its own being built. -/
def Term.Direct : Term → Prop
  | .choice _ false | .dot => True
  | _ => False

namespace Operand
open Automaton (anchoredLoop nothing meaning_concat)
variable {a : Automaton} {t : Term}

/-- Texts and single characters that are put behind an automaton directly match there what they
match when their own automaton is concatenated. Nothing that stands before or behind both tells one
from the other, although the first one may have lost all that was there. -/
theorem appendTo_direct (h : a.WellFormed) (e : Encoding) (ht : t.Direct) :
    ∃ direct piece, (Operand.term t).appendTo a e = .ok direct ∧
      (Operand.term t).toAutomaton e = .ok piece ∧ direct.WellFormed ∧
      ∀ b w z, (direct.meaning b w z ↔ (a.concat piece).meaning b w z) ∧
        (∀ c, (direct.concat c).meaning b w z ↔ ((a.concat piece).concat c).meaning b w z) ∧
        ∀ c : Automaton, c.WellFormed →
          ((c.concat direct).meaning b w z ↔ (c.concat (a.concat piece)).meaning b w z) := by
  have hmatching : (Operand.term t).Matching := by
    cases t with
    | choice texts negated => trivial
    | dot => trivial
    | anchor m => exact ht.elim
    | count least most => exact ht.elim
  obtain ⟨direct, hdirect, hw, hmeaning⟩ := appendTo_spec h hmatching e
  obtain ⟨piece, hpiece, hw', hmeaning'⟩ := toAutomaton_spec hmatching e
  have hsame : direct.meaning = (a.concat piece).meaning := by
    rw [hmeaning, meaning_concat h, hmeaning']
  refine ⟨direct, piece, hdirect, hpiece, hw, ?_⟩
  intro b w z
  refine ⟨by rw [hsame], ?_, ?_⟩
  · intro c
    rw [meaning_concat hw, meaning_concat (h.concat hw'), hsame]
  · intro c hc
    rw [meaning_concat hc, meaning_concat hc, hsame]

theorem appendTo_direct_unwritable : anchoredLoop.WellFormed ∧ (Term.literal ['é']).Direct ∧
    (Operand.term (.literal ['é'])).appendTo anchoredLoop .ascii = .ok nothing ∧
    ∃ piece, (Operand.term (.literal ['é'])).toAutomaton .ascii = .ok piece ∧
      anchoredLoop.concat piece ≠ nothing ∧
      ∀ b w z, (nothing.meaning b w z ↔ (anchoredLoop.concat piece).meaning b w z) ∧
        (∀ c, (nothing.concat c).meaning b w z ↔
          ((anchoredLoop.concat piece).concat c).meaning b w z) ∧
        ∀ c : Automaton, c.WellFormed → ((c.concat nothing).meaning b w z ↔
          (c.concat (anchoredLoop.concat piece)).meaning b w z) := by
  have h : anchoredLoop.WellFormed := by decide
  have hlost : (Operand.term (.literal ['é'])).appendTo anchoredLoop .ascii = .ok nothing := by
    decide +kernel
  obtain ⟨direct, piece, hdirect, hpiece, -, hsame⟩ :=
    appendTo_direct h .ascii (t := .literal ['é']) trivial
  obtain rfl : direct = nothing := Except.ok.inj (hdirect.symm.trans hlost)
  refine ⟨h, trivial, hlost, piece, hpiece, fun heq => ?_, hsame⟩
  have hsize := congrArg Automaton.size heq
  rw [Automaton.size_concat] at hsize
  have hthree : anchoredLoop.size = 3 := rfl
  have hone : nothing.size = 1 := rfl
  omega

end Operand

end PatternAutomata
