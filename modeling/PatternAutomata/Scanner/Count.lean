import PatternAutomata.Automaton.Repetition
import PatternAutomata.Scanner.Cursor

/-!
# Counts in braces

The bounds of a repetition: one number, or two around a comma, of which one may be missing.
-/
namespace PatternAutomata

/-- The value of decimal digits. -/
def decimalValue (digits : List Char) : Nat :=
  digits.foldl (fun n c => n * 10 + (c.toNat - 48)) 0

/-- The decimal digits that come next, as a number if there are any. A number beyond every count is
blamed on `origin`. -/
def readNumber (origin : Nat) (cur : Cursor) : Read (Option Nat) :=
  let digits := cur.rest.takeWhile Char.isDigit
  let after : Cursor := ⟨cur.rest.dropWhile Char.isDigit, cur.offset + utf8Length digits⟩
  if digits.isEmpty then (.ok none, after)
  else if Automaton.countCeiling < decimalValue digits then (.error ⟨origin, .invalidCount⟩, after)
  else (.ok (some (decimalValue digits)), after)

/-- The bounds after the opening brace, up to and including the closing one. A failure stops behind
the first character that cannot go on, except where only the closing brace is missing. -/
def readBounds (origin : Nat) (cur : Cursor) : Read (Nat × Bound) :=
  match readNumber origin cur with
  | (.error err, after) => (.error err, after)
  | (.ok least, after) =>
    match after.rest with
    | [] => (.error ⟨origin, .invalidCount⟩, after)
    | '\x7d' :: rest =>
      let closed := after.past '\x7d' rest
      match least with
      | some n => (.ok (n, .finite n), closed)
      | none => (.error ⟨origin, .invalidCount⟩, closed)
    | ',' :: rest =>
      match readNumber origin (after.past ',' rest) with
      | (.error err, after) => (.error err, after)
      | (.ok most, after) =>
        match after.rest with
        | '\x7d' :: rest =>
          let closed := after.past '\x7d' rest
          match least, most with
          | none, none => (.error ⟨origin, .invalidCount⟩, closed)
          | some m, none => (.ok (m, .infinity), closed)
          | least, some n => (.ok (least.getD 0, .finite n), closed)
        | _ => (.error ⟨origin, .invalidCount⟩, after)
    | c :: rest => (.error ⟨origin, .invalidCount⟩, after.past c rest)

/-- Refuse bounds beyond the limit first, and bounds that are out of order then. -/
def checkBounds (origin limit least : Nat) (most : Bound) : Except LexError (Nat × Bound) :=
  match most with
  | .infinity =>
    if limit < least then .error ⟨origin, .repetitionTooLarge limit⟩ else .ok (least, .infinity)
  | .finite n =>
    if limit < max n least then .error ⟨origin, .repetitionTooLarge limit⟩
    else if n < least then .error ⟨origin, .countOutOfOrder least n⟩
    else .ok (least, .finite n)

theorem reaches_readNumber (origin : Nat) (cur : Cursor) :
    ∃ taken, cur.Reaches taken (readNumber origin cur).2 := by
  refine ⟨cur.rest.takeWhile Char.isDigit, ?_⟩
  unfold readNumber
  dsimp only
  split
  · exact ⟨List.takeWhile_append_dropWhile.symm, rfl⟩
  · split <;> exact ⟨List.takeWhile_append_dropWhile.symm, rfl⟩

theorem reaches_readBounds (origin : Nat) (cur : Cursor) :
    ∃ taken, cur.Reaches taken (readBounds origin cur).2 := by
  obtain ⟨taken, h⟩ := reaches_readNumber origin cur
  unfold readBounds
  split
  · next hr => rw [hr] at h; exact ⟨_, h⟩
  · next least after hr =>
    rw [hr] at h
    split
    · exact ⟨_, h⟩
    · next rest hrest =>
      have h' := h.trans (Cursor.reaches_past hrest)
      dsimp only
      split <;> exact ⟨_, h'⟩
    · next rest hrest =>
      have h' := h.trans (Cursor.reaches_past hrest)
      obtain ⟨taken₂, h₂⟩ := reaches_readNumber origin (after.past ',' rest)
      split
      · next hn => rw [hn] at h₂; exact ⟨_, h'.trans h₂⟩
      · next most after₂ hn =>
        rw [hn] at h₂
        split
        · next hclose =>
          have h₃ := (h'.trans h₂).trans (Cursor.reaches_past hclose)
          dsimp only
          split <;> exact ⟨_, h₃⟩
        · exact ⟨_, h'.trans h₂⟩
    · next hrest => exact ⟨_, h.trans (Cursor.reaches_past hrest)⟩

end PatternAutomata
