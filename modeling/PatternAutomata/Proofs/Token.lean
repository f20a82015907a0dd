import PatternAutomata.Pattern.Token
import PatternAutomata.Proofs.Term

/-!
# Tokens and their terms

What a token has to bring along for the parser to work, and what the tokens of a pattern text bring
along.
-/
namespace PatternAutomata

/-- Whether a bound allows `k` repetitions. -/
def Bound.Allows : Bound → Nat → Prop
  | .finite n, k => k ≤ n
  | .infinity, _ => True

namespace Token

/-- Whether a token has a term wherever its kind asks for one. -/
def Meaningful (t : Token) : Prop :=
  match t.terminal with
  | .letters | .dot | .caret | .dollar => ∃ term, t.term = some term ∧ term.Matching
  | .count => ∃ least most, t.term = some (.count least most)
  | _ => True

/-- Whether a token has a term like those that are read from a text. -/
def Lexical (t : Token) : Prop :=
  match t.terminal with
  | .letters => ∃ texts negated, t.term = some (.choice texts negated)
  | .dot => t.term = some .dot
  | .caret => t.term = some (.anchor .textStart)
  | .dollar => t.term = some (.anchor .textEnd)
  | .count => ∃ least most, t.term = some (.count least most) ∧ most.Allows least
  | _ => True

theorem Lexical.meaningful {t : Token} (h : t.Lexical) : t.Meaningful := by
  obtain ⟨terminal, term, offset⟩ := t
  cases terminal with
  | letters =>
    obtain ⟨texts, negated, hterm⟩ := h
    exact ⟨_, hterm, trivial⟩
  | dot | caret | dollar => exact ⟨_, h, trivial⟩
  | count =>
    obtain ⟨least, most, hterm, -⟩ := h
    exact ⟨least, most, hterm⟩
  | openParen | closeParen | pipe | amp | bang | eof => trivial

end Token

end PatternAutomata
