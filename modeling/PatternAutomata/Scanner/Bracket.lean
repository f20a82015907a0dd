import PatternAutomata.Encoding
import PatternAutomata.Scanner.Escape

/-!
# Classes in brackets

The items between brackets: single characters, ranges and shorthands. The class is their union.
-/
namespace PatternAutomata

/-- One character or escape. An end of the text is blamed on `origin`, a bad escape on itself. -/
def readMember (origin : Nat) (cur : Cursor) : Read Escape :=
  match cur.rest with
  | [] => (.error ⟨origin, .unterminatedClass⟩, cur)
  | '\\' :: rest => readEscape cur.offset (cur.past '\\' rest)
  | c :: rest => (.ok (.char c), cur.past c rest)

/-- The rest of a class item that begins with `lo` at offset `item`: nothing, or a hyphen and the
other end of a range. A hyphen before the closing bracket is an item of its own. -/
def readRangeEnd (origin item : Nat) (lo : Char) (cur : Cursor) : Read CharRange :=
  match cur.rest with
  | '-' :: c :: rest =>
    if c = ']' then (.ok ⟨lo, lo⟩, cur)
    else
      match readMember origin (cur.past '-' (c :: rest)) with
      | (.error e, after) => (.error e, after)
      | (.ok (.shorthand _ _), after) => (.error ⟨item, .invalidClassRange⟩, after)
      | (.ok (.char hi), after) =>
        if hi < lo then (.error ⟨item, .invalidClassRange⟩, after) else (.ok ⟨lo, hi⟩, after)
  | _ => (.ok ⟨lo, lo⟩, cur)

/-- The ranges that a shorthand contributes: all other characters stay within the encoding. -/
def shorthandRanges (e : Encoding) (members : CharClass) (negated : Bool) : List CharRange :=
  if negated then (members.complement.upTo e.lastChar).ranges else members.ranges

/-- One item of a class, as ranges. -/
def readItem (e : Encoding) (origin : Nat) (cur : Cursor) : Read (List CharRange) :=
  match readMember origin cur with
  | (.error err, after) => (.error err, after)
  | (.ok (.shorthand members negated), after) => (.ok (shorthandRanges e members negated), after)
  | (.ok (.char lo), after) =>
    let read := readRangeEnd origin cur.offset lo after
    (read.1.map fun r => [r], read.2)

theorem reaches_readMember (origin : Nat) (cur : Cursor) :
    ∃ taken, cur.Reaches taken (readMember origin cur).2 ∧ (cur.rest ≠ [] → taken ≠ []) := by
  obtain ⟨rest, offset⟩ := cur
  unfold readMember
  dsimp only
  split
  · exact ⟨_, .refl _, by simp⟩
  · next rest =>
    obtain ⟨taken, h⟩ := reaches_readEscape offset (Cursor.past ⟨'\\' :: rest, offset⟩ '\\' rest)
    exact ⟨_, (Cursor.reaches_past rfl).trans h, by simp⟩
  · exact ⟨_, Cursor.reaches_past rfl, by simp⟩

theorem reaches_readRangeEnd (origin item : Nat) (lo : Char) (cur : Cursor) :
    ∃ taken, cur.Reaches taken (readRangeEnd origin item lo cur).2 := by
  obtain ⟨rest, offset⟩ := cur
  unfold readRangeEnd
  dsimp only
  split
  · next c rest =>
    split
    · exact ⟨_, .refl _⟩
    · obtain ⟨taken, h, -⟩ :=
        reaches_readMember origin (Cursor.past ⟨'-' :: c :: rest, offset⟩ '-' (c :: rest))
      have h' := (Cursor.reaches_past rfl).trans h
      split
      · next hr => rw [hr] at h'; exact ⟨_, h'⟩
      · next hr => rw [hr] at h'; exact ⟨_, h'⟩
      · next hr => rw [hr] at h'; split <;> exact ⟨_, h'⟩
  · exact ⟨_, .refl _⟩

theorem reaches_readItem (e : Encoding) (origin : Nat) (cur : Cursor) :
    ∃ taken, cur.Reaches taken (readItem e origin cur).2 ∧ (cur.rest ≠ [] → taken ≠ []) := by
  obtain ⟨taken, h, hne⟩ := reaches_readMember origin cur
  unfold readItem
  split
  · next hr => rw [hr] at h; exact ⟨_, h, hne⟩
  · next hr => rw [hr] at h; exact ⟨_, h, hne⟩
  · next lo after hr =>
    rw [hr] at h
    obtain ⟨taken', h'⟩ := reaches_readRangeEnd origin cur.offset lo after
    exact ⟨_, h.trans h', fun hc => by simp [hne hc]⟩

/-- The items up to the closing bracket, as ranges before those read so far. -/
def readItems (e : Encoding) (origin : Nat) (ranges : List CharRange) (cur : Cursor) :
    Read (List CharRange) :=
  match _hr : cur.rest with
  | [] => (.error ⟨origin, .unterminatedClass⟩, cur)
  | ']' :: rest => (.ok ranges, cur.past ']' rest)
  | _ :: _ =>
    match _hi : readItem e origin cur with
    | (.error err, after) => (.error err, after)
    | (.ok item, after) => readItems e origin (item ++ ranges) after
termination_by cur.rest.length
decreasing_by
  obtain ⟨taken, h, hne⟩ := reaches_readItem e origin cur
  have hl := h.length
  have := List.length_pos_iff.mpr (hne (by simp [_hr]))
  rw [_hi] at hl
  dsimp only at hl
  omega

theorem reaches_readItems (e : Encoding) (origin : Nat) (ranges : List CharRange) (cur : Cursor) :
    ∃ taken, cur.Reaches taken (readItems e origin ranges cur).2 := by
  fun_induction readItems e origin ranges cur with
  | case1 => exact ⟨_, .refl _⟩
  | case2 ranges cur rest hr =>
    obtain ⟨_, offset⟩ := cur
    subst hr
    exact ⟨_, Cursor.reaches_past rfl⟩
  | case3 ranges cur c rest hr hc err after hi =>
    obtain ⟨taken, h, -⟩ := reaches_readItem e origin cur
    rw [hi] at h
    exact ⟨_, h⟩
  | case4 ranges cur c rest hr hc item after hi ih =>
    obtain ⟨taken, h, -⟩ := reaches_readItem e origin cur
    rw [hi] at h
    obtain ⟨taken', h'⟩ := ih
    exact ⟨_, h.trans h'⟩

end PatternAutomata
