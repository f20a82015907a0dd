import PatternAutomata.Parser.Operand
import PatternAutomata.Proofs.Automaton.Boolean
import PatternAutomata.Proofs.Encoding

/-!
# The meaning of terms

What a lexical unit matches, said in terms of characters, and the automata that stand for it.
-/
namespace PatternAutomata
open Automaton (meaning_emptyText wellFormed_emptyText)

/-- What a lexical unit matches. Texts that the encoding cannot write match nothing. -/
def Term.meaning (e : Encoding) : Term → Meaning
  | .choice texts false => .strings fun w => ∃ text ∈ texts, e.encodeAll? text = some w
  | .choice texts true => .strings fun w => ∃ c, e.encode? c = some w ∧ [c] ∉ texts
  | .dot => .strings fun w => ∃ c, e.encode? c = some w
  | .anchor m => .anchor m
  | .count _ _ => .nothing

/-- Whether a lexical unit stands for a part of a pattern. A count does not. -/
def Term.Matching : Term → Prop
  | .count _ _ => False
  | _ => True

theorem Texts.mem_encode {texts : Texts} {e : Encoding} {w : List UInt8} :
    w ∈ texts.encode e ↔ ∃ text ∈ texts, e.encodeAll? text = some w := by
  simp [encode]

namespace Automaton
variable {a : Automaton} {texts : Texts} {e : Encoding}

theorem meaning_appendTexts (h : a.WellFormed) (texts : Texts) (e : Encoding) :
    (a.appendTexts texts e).meaning = a.meaning.seq ((Term.choice texts false).meaning e) := by
  have hstrings : (Term.choice texts false).meaning e = .strings (· ∈ texts.encode e) := by
    unfold Term.meaning
    simp only [Texts.mem_encode]
  rw [hstrings]
  unfold appendTexts
  dsimp only
  split
  · next hempty =>
    rw [meaning_nothing, Std.ExtTreeSet.isEmpty_iff.mp hempty]
    have hnothing : Meaning.strings (· ∈ (∅ : ByteStrings)) = .nothing := by
      apply Meaning.ext
      simp [Meaning.strings, Meaning.nothing]
    rw [hnothing, Meaning.seq_nothing]
  · exact meaning_appendTrie h _

theorem WellFormed.appendTexts (h : a.WellFormed) (texts : Texts) (e : Encoding) :
    (a.appendTexts texts e).WellFormed := by
  unfold Automaton.appendTexts
  dsimp only
  split
  · exact wellFormed_nothing
  · exact h.appendTrie _

theorem meaning_appendCharacter (h : a.WellFormed) (e : Encoding) :
    (a.appendCharacter e).meaning = a.meaning.seq (Term.dot.meaning e) := by
  unfold appendCharacter Term.meaning
  rw [meaning_appendChoice h]
  simp only [Encoding.fits_characterRanges]

theorem WellFormed.appendCharacter (h : a.WellFormed) (e : Encoding) :
    (a.appendCharacter e).WellFormed := h.appendChoice _

theorem wellFormed_nonCharacters (e : Encoding) : (nonCharacters e).WellFormed :=
  (wellFormed_emptyText.appendCharacter e).complement

theorem meaning_nonCharacters (e : Encoding) :
    (nonCharacters e).meaning = .strings fun w => ¬ ∃ c, e.encode? c = some w := by
  unfold nonCharacters
  rw [meaning_complement (wellFormed_emptyText.appendCharacter e),
    meaning_appendCharacter wellFormed_emptyText, meaning_emptyText, Meaning.empty_seq]
  rfl

/-- What is no text and nothing but a character is a character that is none of the texts. Its bytes
are those of no other text, so no text of several characters gets in the way. -/
theorem meaning_characterExcept (texts : Texts) (e : Encoding) :
    (characterExcept texts e).meaning = (Term.choice texts true).meaning e := by
  have htexts := wellFormed_emptyText.appendTexts texts e
  have hunion := htexts.union (wellFormed_nonCharacters e)
  unfold characterExcept
  rw [meaning_prune hunion.complement, meaning_complement hunion, meaning_union htexts,
    meaning_appendTexts wellFormed_emptyText, meaning_nonCharacters, meaning_emptyText,
    Meaning.empty_seq]
  refine congrArg Meaning.strings (funext fun w => propext ?_)
  change ¬ ((∃ text ∈ texts, e.encodeAll? text = some w) ∨ ¬ ∃ c, e.encode? c = some w) ↔ _
  rw [not_or, not_not]
  constructor
  · rintro ⟨hnone, c, hc⟩
    refine ⟨c, hc, fun hmem => hnone ⟨[c], hmem, ?_⟩⟩
    exact Encoding.encodeAll?_cons_eq_some.mpr ⟨w, [], hc, rfl, List.append_nil w⟩
  · rintro ⟨c, hc, hmem⟩
    refine ⟨?_, c, hc⟩
    rintro ⟨text, htext, henc⟩
    obtain rfl := Encoding.eq_singleton_of_encodeAll? hc henc
    exact hmem htext

theorem wellFormed_characterExcept (texts : Texts) (e : Encoding) :
    (characterExcept texts e).WellFormed := .prune _

end Automaton

theorem Term.toAutomaton?_spec {t : Term} (h : t.Matching) (e : Encoding) :
    ∃ a, t.toAutomaton? e = some a ∧ a.WellFormed ∧ a.meaning = t.meaning e := by
  match t with
  | .choice texts false =>
    refine ⟨_, rfl, wellFormed_emptyText.appendTexts texts e, ?_⟩
    rw [Automaton.meaning_appendTexts wellFormed_emptyText, meaning_emptyText, Meaning.empty_seq]
  | .choice texts true =>
    exact ⟨_, rfl, Automaton.wellFormed_characterExcept texts e,
      Automaton.meaning_characterExcept texts e⟩
  | .dot =>
    refine ⟨_, rfl, wellFormed_emptyText.appendCharacter e, ?_⟩
    rw [Automaton.meaning_appendCharacter wellFormed_emptyText, meaning_emptyText,
      Meaning.empty_seq]
  | .anchor m =>
    refine ⟨_, rfl, wellFormed_emptyText.appendAnchor m, ?_⟩
    rw [Automaton.meaning_appendAnchor wellFormed_emptyText, meaning_emptyText, Meaning.empty_seq]
    rfl

namespace Operand

/-- What an operand matches. -/
def meaning (e : Encoding) : Operand → Meaning
  | .term t => t.meaning e
  | .automaton a => a.meaning

/-- Whether an operand stands for a part of a pattern. -/
def Matching : Operand → Prop
  | .term t => t.Matching
  | .automaton a => a.WellFormed

theorem toAutomaton_spec {v : Operand} (h : v.Matching) (e : Encoding) :
    ∃ a, v.toAutomaton e = .ok a ∧ a.WellFormed ∧ a.meaning = v.meaning e := by
  cases v with
  | automaton a => exact ⟨a, rfl, h, rfl⟩
  | term t =>
    obtain ⟨a, ha, hw, hm⟩ := Term.toAutomaton?_spec h e
    exact ⟨a, by simp [toAutomaton, ha], hw, hm⟩

/-- All three ways to put an item behind an automaton come to the same. -/
theorem appendTo_spec {a : Automaton} {v : Operand} (ha : a.WellFormed) (h : v.Matching)
    (e : Encoding) :
    ∃ b, v.appendTo a e = .ok b ∧ b.WellFormed ∧ b.meaning = a.meaning.seq (v.meaning e) := by
  unfold appendTo
  split
  · exact ⟨_, rfl, ha.appendTexts _ e, Automaton.meaning_appendTexts ha _ e⟩
  · exact ⟨_, rfl, ha.appendCharacter e, Automaton.meaning_appendCharacter ha e⟩
  · obtain ⟨b, hb, hw, hm⟩ := toAutomaton_spec h e
    rw [hb, ← hm]
    exact ⟨_, rfl, ha.concat hw, Automaton.meaning_concat ha⟩

end Operand

end PatternAutomata
