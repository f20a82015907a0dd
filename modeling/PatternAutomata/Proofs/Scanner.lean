import PatternAutomata.Proofs.Token
import PatternAutomata.Scanner.Basic

/-!
# The tokens of a text

Every token that is read from a text has the term that its kind asks for, and the bounds of its
counts are in order.
-/
namespace PatternAutomata

theorem checkBounds_allows {origin limit least : Nat} {most : Bound} {b : Nat × Bound}
    (h : checkBounds origin limit least most = .ok b) : b.2.Allows b.1 := by
  cases most with
  | infinity =>
    simp only [checkBounds] at h
    split at h
    · cases h
    · obtain rfl := Except.ok.inj h
      trivial
  | finite n =>
    simp only [checkBounds] at h
    split at h
    · cases h
    · split at h
      · cases h
      · next hle =>
        obtain rfl := Except.ok.inj h
        exact Nat.not_lt.mp hle

theorem of_map_eq_ok {α β : Type} {x : Except LexError α} {f : α → β} {b : β}
    (h : x.map f = .ok b) : ∃ v, x = .ok v ∧ f v = b := by
  cases x with
  | error err => cases h
  | ok v => exact ⟨v, rfl, Except.ok.inj h⟩

theorem of_map_eq_error {α β : Type} {x : Except LexError α} {f : α → β} {err : LexError}
    (h : x.map f = .error err) : x = .error err := by
  cases x with
  | error e => exact congrArg Except.error (Except.error.inj h)
  | ok v => cases h

namespace Scanner
variable {config : Config} {origin : Nat} {cur : Cursor} {term : Term}

/-- Nothing is read behind the end. -/
theorem next_of_rest_nil {s : Scanner} (h : s.cursor.rest = []) :
    s.next = (.ok ⟨.eof, none, s.cursor.offset⟩, s) := by
  unfold next
  rw [h]

theorem termOfLetter_eq (config : Config) (c : Char) :
    ∃ texts, termOfLetter config c = .choice texts false := by
  unfold termOfLetter
  split <;> exact ⟨_, rfl⟩

theorem of_termOfClass {members : CharClass} {negated : Bool}
    (h : termOfClass config origin members negated = .ok term) :
    ∃ texts negated, term = .choice texts negated := by
  unfold termOfClass at h
  dsimp only at h
  generalize (if config.caseInsensitive then members.foldCase else members) = members at h
  split at h
  · cases h
  · exact ⟨_, _, (Except.ok.inj h).symm⟩

theorem of_readClass (h : (readClass config origin cur).1 = .ok term) :
    ∃ texts negated, term = .choice texts negated := by
  unfold readClass at h
  dsimp only at h
  split at h
  · cases h
  · cases h
  · exact of_termOfClass h

theorem of_readLiteral (h : (readLiteral origin cur).1 = .ok term) :
    ∃ texts negated, term = .choice texts negated := by
  obtain ⟨text, -, rfl⟩ := of_map_eq_ok h
  exact ⟨_, _, rfl⟩

theorem of_readEscaped (h : (readEscaped config origin cur).1 = .ok term) :
    ∃ texts negated, term = .choice texts negated := by
  unfold readEscaped at h
  split at h
  · cases h
  · next c _ _ =>
    obtain ⟨texts, htexts⟩ := termOfLetter_eq config c
    exact ⟨texts, false, (Except.ok.inj h).symm.trans htexts⟩
  · exact of_termOfClass h

theorem of_readCount (h : (readCount config origin cur).1 = .ok term) :
    ∃ least most, term = .count least most ∧ most.Allows least := by
  unfold readCount at h
  split at h
  · cases h
  · next least most _ _ =>
    obtain ⟨b, hbounds, rfl⟩ := of_map_eq_ok h
    exact ⟨_, _, rfl, checkBounds_allows hbounds⟩

/-- Every token of a text has a term that suits its kind. -/
theorem lexical_next {s : Scanner} {t : Token} (h : s.next.1 = .ok t) : t.Lexical := by
  unfold next at h
  dsimp only at h
  split at h
  · obtain rfl := Except.ok.inj h
    trivial
  · split at h
    case h_4 =>
      split at h
      · cases h
      · obtain rfl := Except.ok.inj h
        trivial
    case h_9 | h_10 | h_11 =>
      obtain rfl := Except.ok.inj h
      exact ⟨_, _, rfl, by simp [Bound.Allows]⟩
    case h_12 =>
      obtain ⟨term, hterm, rfl⟩ := of_map_eq_ok h
      obtain ⟨least, most, rfl, hallows⟩ := of_readCount hterm
      exact ⟨least, most, rfl, hallows⟩
    case h_13 =>
      obtain ⟨term, hterm, rfl⟩ := of_map_eq_ok h
      obtain ⟨texts, negated, rfl⟩ := of_readClass hterm
      exact ⟨texts, negated, rfl⟩
    case h_14 =>
      obtain ⟨term, hterm, rfl⟩ := of_map_eq_ok h
      obtain ⟨texts, negated, rfl⟩ := of_readLiteral hterm
      exact ⟨texts, negated, rfl⟩
    case h_15 =>
      obtain ⟨term, hterm, rfl⟩ := of_map_eq_ok h
      obtain ⟨texts, negated, rfl⟩ := of_readEscaped hterm
      exact ⟨texts, negated, rfl⟩
    case h_16 =>
      obtain rfl := Except.ok.inj h
      exact ⟨_, false, congrArg some (termOfLetter_eq s.config _).choose_spec⟩
    all_goals
      obtain rfl := Except.ok.inj h
      trivial

end Scanner

end PatternAutomata
