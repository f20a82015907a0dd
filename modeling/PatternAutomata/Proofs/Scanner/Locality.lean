import PatternAutomata.Proofs.Scanner

/-!
# Reading is local

No reader looks beyond what it takes. So a reader that succeeds does the same wherever its text
stands and whatever follows, and a reader that fails does the same wherever its text stands, as long
as nothing follows that it could go on with.
-/
namespace PatternAutomata

/-- The same failure, `n` bytes later. -/
def LexError.moved (n : Nat) (e : LexError) : LexError := { e with offset := e.offset + n }

/-- The same token, `n` bytes later. -/
def Token.moved (n : Nat) (t : Token) : Token := { t with offset := t.offset + n }

/-- The same place, `n` bytes later and with `more` behind the text. -/
def Cursor.moved (n : Nat) (more : List Char) (cur : Cursor) : Cursor :=
  ⟨cur.rest ++ more, cur.offset + n⟩

/-- The same outcome, `n` bytes later and with `more` behind the text. -/
def Read.moved {α : Type} (n : Nat) (more : List Char) (read : Read α) : Read α :=
  (read.1.mapError (·.moved n), read.2.moved n more)

/-- Whether more text behind can make no difference: there is none, or reading has succeeded. -/
def Read.Settled {α : Type} (more : List Char) (read : Read α) : Prop :=
  more = [] ∨ ∃ v after, read = (.ok v, after)

section
variable {α : Type} {n : Nat} {more : List Char} {origin : Nat} {cur : Cursor}

theorem Cursor.moved_past (cur : Cursor) (c : Char) (rest : List Char) :
    (cur.past c rest).moved n more = (cur.moved n more).past c (rest ++ more) := by
  simp only [moved, past, Nat.add_right_comm]

theorem Cursor.rest_moved {c : Char} {rest : List Char} (h : cur.rest = c :: rest) :
    (cur.moved n more).rest = c :: (rest ++ more) := by
  rw [moved, h]
  rfl

@[simp] theorem Read.moved_ok (v : α) (after : Cursor) :
    Read.moved n more (.ok v, after) = (.ok v, after.moved n more) := rfl

@[simp] theorem Read.moved_error (e : LexError) (after : Cursor) :
    Read.moved n more ((.error e, after) : Read α) =
      (.error (e.moved n), after.moved n more) := rfl

@[simp] theorem LexError.moved_mk (origin : Nat) (cause : LexCause) :
    LexError.moved n ⟨origin, cause⟩ = ⟨origin + n, cause⟩ := rfl

@[simp] theorem Read.settled_ok (v : α) (after : Cursor) :
    Read.Settled more ((.ok v, after) : Read α) := .inr ⟨v, after, rfl⟩

@[simp] theorem Read.settled_error_iff {e : LexError} {after : Cursor} :
    Read.Settled more ((.error e, after) : Read α) ↔ more = [] := by
  simp [Settled]

@[simp] theorem Read.settled_map_iff {β : Type} (f : α → β) (read : Read α) :
    Read.Settled more ((read.1.map f, read.2) : Read β) ↔ read.Settled more := by
  obtain ⟨_ | v, after⟩ := read
  · simp [Except.map]
  · simp [Except.map]

@[simp] theorem Read.moved_map {β : Type} (f : α → β) (read : Read α) :
    Read.moved n more ((read.1.map f, read.2) : Read β) =
      ((read.moved n more).1.map f, (read.moved n more).2) := by
  obtain ⟨_ | v, after⟩ := read <;> rfl

theorem Read.Settled.of_error {β : Type} {read : Read β} {e : LexError} {after after' : Cursor}
    (h : Read.Settled more ((.error e, after) : Read α)) (_ : read = (.error e, after')) :
    read.Settled more := .inl (Read.settled_error_iff.mp h)

theorem Read.settled_of_ok {read : Read α} {v : α} {after : Cursor} (h : read = (.ok v, after)) :
    read.Settled more := .inr ⟨v, after, h⟩

theorem readHexPair_moved (h : Read.Settled more (readHexPair origin cur)) :
    readHexPair (origin + n) (cur.moved n more) = (readHexPair origin cur).moved n more := by
  revert h
  fun_cases readHexPair origin cur <;> intro h <;>
    simp_all +zetaDelta [readHexPair, Cursor.moved, Cursor.past, Nat.add_right_comm]

theorem readHexBraced_moved {value : Nat} {started : Bool} {text : List Char} {offset : Nat}
    (h : Read.Settled more (readHexBraced origin value started text offset)) :
    readHexBraced (origin + n) value started (text ++ more) (offset + n) =
      (readHexBraced origin value started text offset).moved n more := by
  induction text generalizing value started offset with
  | nil =>
    obtain rfl := Read.settled_error_iff.mp h
    rfl
  | cons c rest ih =>
    simp only [readHexBraced, List.cons_append] at h ⊢
    rw [Nat.add_right_comm offset n]
    split
    · next hclose =>
      rw [if_pos hclose] at h
      cases hscalar : scalar? value with
      | none => simp_all [Cursor.moved]
      | some c => simp [Cursor.moved]
    · next hclose =>
      rw [if_neg hclose] at h
      cases hdigit : hexDigit? c with
      | none => simp_all [Cursor.moved]
      | some digit =>
        simp only [hdigit] at h ⊢
        split
        · next hlarge =>
          rw [if_pos hlarge] at h
          simp_all [Cursor.moved]
        · next hlarge =>
          rw [if_neg hlarge] at h
          exact ih h

theorem readCodepoint_moved (h : Read.Settled more (readCodepoint origin cur)) :
    readCodepoint (origin + n) (cur.moved n more) = (readCodepoint origin cur).moved n more := by
  revert h
  fun_cases readCodepoint origin cur <;> intro h
  · next rest hr =>
    have := readHexBraced_moved (n := n) h
    simp_all [readCodepoint, Cursor.moved, Cursor.past, Nat.add_right_comm]
  · simp_all [readCodepoint, Cursor.moved]

theorem readEscape_moved (h : Read.Settled more (readEscape origin cur)) :
    readEscape (origin + n) (cur.moved n more) = (readEscape origin cur).moved n more := by
  revert h
  fun_cases readEscape origin cur <;> intro h
  case case8 rest hr after read =>
    have := readHexPair_moved (n := n) ((Read.settled_map_iff _ _).mp h)
    simp_all +zetaDelta [readEscape, Cursor.moved, Cursor.past, Nat.add_right_comm]
  case case9 rest hr after read =>
    have := readCodepoint_moved (n := n) ((Read.settled_map_iff _ _).mp h)
    simp_all +zetaDelta [readEscape, Cursor.moved, Cursor.past, Nat.add_right_comm]
  all_goals simp_all +zetaDelta [readEscape, Cursor.moved, Cursor.past, Nat.add_right_comm]

/-! ## Classes -/

theorem readMember_moved (h : Read.Settled more (readMember origin cur)) :
    readMember (origin + n) (cur.moved n more) = (readMember origin cur).moved n more := by
  revert h
  fun_cases readMember origin cur <;> intro h
  case case2 rest hr =>
    have := readEscape_moved (n := n) h
    simp_all [readMember, Cursor.moved, Cursor.past, Nat.add_right_comm]
  all_goals simp_all [readMember, Cursor.moved, Cursor.past, Nat.add_right_comm]

theorem readMember_moved_of_ok (n : Nat) (more : List Char) {m : Escape} {after : Cursor}
    (hm : readMember origin cur = (.ok m, after)) :
    readMember (origin + n) (cur.moved n more) = (.ok m, after.moved n more) := by
  rw [readMember_moved (Read.settled_of_ok hm), hm, Read.moved_ok]

/-- Whether a hyphen and the other end of a range come next. -/
def RangeNext (text : List Char) : Prop := ∃ c rest, text = '-' :: c :: rest ∧ c ≠ ']'

theorem not_rangeNext_of_head {text : List Char} (h : text.head? ≠ some '-') :
    ¬ RangeNext text := by
  rintro ⟨c, rest, rfl, -⟩
  exact h rfl

theorem readRangeEnd_alone {item : Nat} {lo : Char} (h : ¬ RangeNext cur.rest) :
    readRangeEnd origin item lo cur = (.ok ⟨lo, lo⟩, cur) := by
  unfold readRangeEnd
  split
  · next c rest hr =>
    by_cases hc : c = ']'
    · rw [if_pos hc]
    · exact absurd ⟨c, rest, hr, hc⟩ h
  · rfl

/-- Behind the first end of a range one looks at two characters, and takes none of them if there is
no other end. -/
theorem readRangeEnd_moved {item : Nat} {lo : Char}
    (h : Read.Settled more (readRangeEnd origin item lo cur))
    (hrest : more = [] ∨ cur.rest ≠ [] ∧ cur.rest ≠ ['-']) :
    readRangeEnd (origin + n) (item + n) lo (cur.moved n more) =
      (readRangeEnd origin item lo cur).moved n more := by
  revert h
  fun_cases readRangeEnd origin item lo cur <;> intro h
  case case1 => simp_all [readRangeEnd, Cursor.moved]
  case case2 c rest hr hc err after hm =>
    have := readMember_moved (n := n) (h.of_error hm)
    simp_all [readRangeEnd, Cursor.moved, Cursor.past, Nat.add_right_comm]
  case case3 _ _ hm | case4 _ _ hm _ | case5 _ _ hm _ =>
    have := readMember_moved_of_ok n more hm
    simp_all [readRangeEnd, Cursor.moved, Cursor.past, Nat.add_right_comm]
  case case6 hnone =>
    obtain ⟨_ | ⟨c, _ | ⟨d, rest⟩⟩, offset⟩ := cur
    · simp_all [readRangeEnd, Cursor.moved]
    · rcases hrest with rfl | ⟨-, hne⟩
      · simp [readRangeEnd, Cursor.moved]
      · simp_all [readRangeEnd, Cursor.moved]
    · simp_all [readRangeEnd, Cursor.moved]

/-- What an item leaves of the text tells whether more text could have made a difference. -/
theorem readItem_moved {e : Encoding}
    (h : more = [] ∨ ∃ item after, readItem e origin cur = (.ok item, after) ∧
      after.rest ≠ [] ∧ after.rest ≠ ['-']) :
    readItem e (origin + n) (cur.moved n more) = (readItem e origin cur).moved n more := by
  have hsettled : (readItem e origin cur).Settled more :=
    h.imp_right fun ⟨item, after, hi, _⟩ => ⟨item, after, hi⟩
  unfold readItem at h hsettled ⊢
  rcases hm : readMember origin cur with ⟨err | ⟨lo⟩ | ⟨members, negated⟩, after⟩
  · simp only [hm] at hsettled
    simp only [readMember_moved (hsettled.of_error hm), hm, Read.moved_error]
  · simp only [hm, Read.settled_map_iff] at h hsettled
    have hrest : more = [] ∨ after.rest ≠ [] ∧ after.rest ≠ ['-'] := by
      refine h.imp_right ?_
      rintro ⟨item, after', hi, hne, hne'⟩
      constructor
      · intro hr
        rw [readRangeEnd_alone (by simp [RangeNext, hr])] at hi
        exact hne ((Prod.mk.inj hi).2 ▸ hr)
      · intro hr
        rw [readRangeEnd_alone (by simp [RangeNext, hr])] at hi
        exact hne' ((Prod.mk.inj hi).2 ▸ hr)
    simp only [readMember_moved_of_ok n more hm, Read.moved_map]
    rw [← readRangeEnd_moved hsettled hrest]
    rfl
  · simp only [readMember_moved_of_ok n more hm, Read.moved_ok]

section
variable {e : Encoding} {ranges : List CharRange}

theorem readItems_nil (hr : cur.rest = []) :
    readItems e origin ranges cur = (.error ⟨origin, .unterminatedClass⟩, cur) := by
  rw [readItems]
  split <;> simp_all

theorem readItems_close {rest : List Char} (hr : cur.rest = ']' :: rest) :
    readItems e origin ranges cur = (.ok ranges, cur.past ']' rest) := by
  rw [readItems]
  split <;> simp_all

theorem readItems_item {c : Char} {rest : List Char} (hr : cur.rest = c :: rest) (hc : c ≠ ']') :
    readItems e origin ranges cur =
      match readItem e origin cur with
      | (.error err, after) => (.error err, after)
      | (.ok item, after) => readItems e origin (item ++ ranges) after := by
  rw [readItems]
  split
  · simp_all
  · next hr' => exact absurd (List.cons.inj (hr.symm.trans hr')).1 hc
  · rcases readItem e origin cur with ⟨_ | item, after⟩ <;> rfl

theorem rest_of_readItems {rs : List CharRange} {after : Cursor}
    (h : readItems e origin ranges cur = (.ok rs, after)) : cur.rest ≠ [] ∧ cur.rest ≠ ['-'] := by
  constructor
  · intro hr
    simp [readItems_nil hr] at h
  · intro hr
    have hitem : readItem e origin cur = (.ok [⟨'-', '-'⟩], cur.past '-' []) := by
      simp [readItem, readMember, hr, readRangeEnd, Cursor.past, Except.map]
    rw [readItems_item hr (by decide), hitem] at h
    simp only at h
    rw [readItems_nil rfl] at h
    cases h

theorem readItems_moved (h : Read.Settled more (readItems e origin ranges cur)) :
    readItems e (origin + n) ranges (cur.moved n more) =
      (readItems e origin ranges cur).moved n more := by
  fun_induction readItems e origin ranges cur with
  | case1 ranges cur hr =>
    obtain rfl := Read.settled_error_iff.mp h
    rw [readItems_nil (by simp [Cursor.moved, hr])]
    rfl
  | case2 ranges cur rest hr =>
    rw [readItems_close (Cursor.rest_moved hr), Read.moved_ok, Cursor.moved_past]
  | case3 ranges cur c rest hc hr err after hi =>
    obtain rfl := Read.settled_error_iff.mp h
    rw [readItems_item (Cursor.rest_moved hr) hc, readItem_moved (.inl rfl), hi]
    rfl
  | case4 ranges cur c rest hc hr item after hi ih =>
    have hitem : more = [] ∨ ∃ item after, readItem e origin cur = (.ok item, after) ∧
        after.rest ≠ [] ∧ after.rest ≠ ['-'] := by
      refine h.imp_right ?_
      rintro ⟨rs, after', hrs⟩
      exact ⟨item, after, hi, rest_of_readItems hrs⟩
    rw [readItems_item (Cursor.rest_moved hr) hc, readItem_moved hitem, hi]
    exact ih h

end

/-! ## Quoted texts -/

section
variable {text : List Char}

theorem readQuoted_nil (hr : cur.rest = []) :
    readQuoted origin text cur = (.error ⟨origin, .unterminatedString⟩, cur) := by
  rw [readQuoted]
  split <;> simp_all

theorem readQuoted_close {rest : List Char} (hr : cur.rest = '"' :: rest) :
    readQuoted origin text cur = (.ok text.reverse, cur.past '"' rest) := by
  rw [readQuoted]
  split <;> simp_all

theorem readQuoted_escape {rest : List Char} (hr : cur.rest = '\\' :: rest) :
    readQuoted origin text cur =
      match readEscape cur.offset (cur.past '\\' rest) with
      | (.error err, after) => (.error err, after)
      | (.ok (.shorthand _ _), after) =>
        (.error ⟨cur.offset, .invalidEscape (rest.headD '\\')⟩, after)
      | (.ok (.char c), after) => readQuoted origin (c :: text) after := by
  rw [readQuoted]
  split
  · simp_all
  · simp_all
  · next rest' hr' =>
    obtain rfl := (List.cons.inj (hr.symm.trans hr')).2
    rcases readEscape cur.offset (cur.past '\\' rest) with ⟨_ | _ | _, after⟩ <;> rfl
  · simp_all

theorem readQuoted_char {c : Char} {rest : List Char} (hr : cur.rest = c :: rest) (hc : c ≠ '"')
    (hc' : c ≠ '\\') :
    readQuoted origin text cur = readQuoted origin (c :: text) (cur.past c rest) := by
  rw [readQuoted]
  split
  · simp_all
  · next hr' => exact absurd (List.cons.inj (hr.symm.trans hr')).1 hc
  · next hr' => exact absurd (List.cons.inj (hr.symm.trans hr')).1 hc'
  · next hr' =>
    obtain ⟨rfl, rfl⟩ := List.cons.inj (hr.symm.trans hr')
    rfl

theorem readQuoted_moved (h : Read.Settled more (readQuoted origin text cur)) :
    readQuoted (origin + n) text (cur.moved n more) =
      (readQuoted origin text cur).moved n more := by
  fun_induction readQuoted origin text cur with
  | case1 text cur hr =>
    obtain rfl := Read.settled_error_iff.mp h
    rw [readQuoted_nil (by simp [Cursor.moved, hr])]
    rfl
  | case2 text cur rest hr =>
    rw [readQuoted_close (Cursor.rest_moved hr), Read.moved_ok, Cursor.moved_past]
  | case3 text cur rest hr err after he =>
    obtain rfl := Read.settled_error_iff.mp h
    rw [readQuoted_escape (Cursor.rest_moved hr), ← Cursor.moved_past]
    rw [show (cur.moved n []).offset = cur.offset + n from rfl, readEscape_moved (.inl rfl), he]
    rfl
  | case4 text cur rest hr members negated after he =>
    obtain rfl := Read.settled_error_iff.mp h
    rw [readQuoted_escape (Cursor.rest_moved hr), ← Cursor.moved_past, List.append_nil]
    rw [show (cur.moved n []).offset = cur.offset + n from rfl, readEscape_moved (.inl rfl), he]
    rfl
  | case5 text cur rest hr c after he ih =>
    rw [readQuoted_escape (Cursor.rest_moved hr), ← Cursor.moved_past]
    rw [show (cur.moved n more).offset = cur.offset + n from rfl,
      readEscape_moved (Read.settled_of_ok he), he]
    exact ih h
  | case6 text cur c rest hc hc' hr ih =>
    rw [readQuoted_char (Cursor.rest_moved hr) hc hc', ← Cursor.moved_past]
    exact ih h

end

/-! ## Counts -/

theorem rest_readNumber (origin : Nat) (cur : Cursor) :
    (readNumber origin cur).2.rest = cur.rest.dropWhile Char.isDigit := by
  unfold readNumber
  dsimp only
  split
  · rfl
  · split <;> rfl

/-- A number goes on as long as there are digits, so something has to stand behind it. -/
theorem readNumber_moved (h : more = [] ∨ (readNumber origin cur).2.rest ≠ []) :
    readNumber (origin + n) (cur.moved n more) = (readNumber origin cur).moved n more := by
  rw [rest_readNumber] at h
  have hdrop : (cur.rest ++ more).dropWhile Char.isDigit =
      cur.rest.dropWhile Char.isDigit ++ more := by
    rcases h with rfl | h
    · simp
    · rw [List.dropWhile_append, if_neg (by simpa using h)]
  have htake : (cur.rest ++ more).takeWhile Char.isDigit = cur.rest.takeWhile Char.isDigit := by
    have hsplit := List.takeWhile_append_dropWhile (p := Char.isDigit) (l := cur.rest ++ more)
    rw [hdrop, ← List.append_assoc, List.append_cancel_right_eq] at hsplit
    exact List.append_cancel_right
      (hsplit.trans (List.takeWhile_append_dropWhile (p := Char.isDigit) (l := cur.rest)).symm)
  unfold readNumber
  simp only [Cursor.moved, hdrop, htake, Nat.add_right_comm cur.offset n]
  split
  · rfl
  · split <;> rfl

theorem readNumber_moved_of_eq (n : Nat) {number : Except LexError (Option Nat)} {after : Cursor}
    (hn : readNumber origin cur = (number, after)) (h : more = [] ∨ after.rest ≠ []) :
    readNumber (origin + n) (cur.moved n more) = Read.moved n more (number, after) := by
  rw [← hn]
  apply readNumber_moved
  rwa [hn]

theorem readBounds_moved (h : Read.Settled more (readBounds origin cur)) :
    readBounds (origin + n) (cur.moved n more) = (readBounds origin cur).moved n more := by
  have hbehind {c : Char} {rest : List Char} {after : Cursor} (hr : after.rest = c :: rest) :
      more = [] ∨ after.rest ≠ [] := .inr (by simp [hr])
  revert h
  fun_cases readBounds origin cur <;> intro h
  case case1 err after hn =>
    have h₁ := readNumber_moved_of_eq n hn (.inl (Read.settled_error_iff.mp h))
    simp_all [readBounds]
  case case2 after hn hr =>
    have h₁ := readNumber_moved_of_eq n hn (.inl (Read.settled_error_iff.mp h))
    simp_all [readBounds, Cursor.moved]
  -- The first number ends the count, and something stands behind it.
  case case3 hr _ _ hn | case4 hr _ hn =>
    have h₁ := readNumber_moved_of_eq n hn (hbehind hr)
    simp_all +zetaDelta [readBounds, Cursor.moved, Cursor.past, Nat.add_right_comm]
  case case10 hn _ _ _ _ hr =>
    have h₁ := readNumber_moved_of_eq n hn (hbehind hr)
    simp_all [readBounds, Cursor.moved, Cursor.past, Nat.add_right_comm]
  -- There is a second number, and nothing that it could go on with.
  case case5 hn _ hr _ _ hn₂ | case9 hn _ hr _ _ hn₂ _ =>
    have h₁ := readNumber_moved_of_eq n hn (hbehind hr)
    have h₂ := readNumber_moved_of_eq n hn₂ (.inl (Read.settled_error_iff.mp h))
    simp_all [readBounds, Cursor.moved, Cursor.past, Nat.add_right_comm]
  case case6 hr _ _ hr₂ _ hn hn₂ | case7 hr _ _ hr₂ _ _ hn hn₂ | case8 hr _ _ hr₂ _ _ _ hn hn₂ =>
    have h₁ := readNumber_moved_of_eq n hn (hbehind hr)
    have h₂ := readNumber_moved_of_eq n hn₂ (hbehind hr₂)
    simp_all +zetaDelta [readBounds, Cursor.moved, Cursor.past, Nat.add_right_comm]

/-! ## Tokens -/

namespace Scanner
variable {config : Config}

theorem termOfClass_moved (members : CharClass) (negated : Bool) :
    termOfClass config (origin + n) members negated =
      (termOfClass config origin members negated).mapError (·.moved n) := by
  unfold termOfClass
  dsimp only
  generalize (if config.caseInsensitive then members.foldCase else members) = members
  split <;> rfl

theorem openClass_moved (h : more = [] ∨ cur.rest ≠ []) :
    openClass (cur.moved n more) = ((openClass cur).1, (openClass cur).2.moved n more) := by
  obtain ⟨_ | ⟨c, rest⟩, offset⟩ := cur
  · obtain rfl : more = [] := by simpa using h
    rfl
  · by_cases hc : c = '^'
    · simp [openClass, hc, Cursor.moved, Cursor.past, Nat.add_right_comm]
    · simp [openClass, hc, Cursor.moved]

theorem readClass_moved (h : Read.Settled more (readClass config origin cur)) :
    readClass config (origin + n) (cur.moved n more) =
      (readClass config origin cur).moved n more := by
  have hopen : more = [] ∨ cur.rest ≠ [] := by
    by_cases hr : cur.rest = []
    · have hopened : openClass cur = (false, cur) := by simp [openClass, hr]
      simp only [readClass, hopened, readItems_nil hr, Read.settled_error_iff] at h
      exact .inl h
    · exact .inr hr
  unfold readClass at h ⊢
  simp only [openClass_moved hopen]
  rcases hitems : readItems config.encoding origin [] (openClass cur).2 with ⟨err | ranges, after⟩
  · simp only [hitems] at h
    simp only [readItems_moved (h.of_error hitems), hitems, Read.moved_error]
  · simp only [readItems_moved (Read.settled_of_ok hitems), hitems, Read.moved_ok]
    cases ranges with
    | nil => rfl
    | cons r rs => simp only [termOfClass_moved, Read.moved]

theorem readLiteral_moved (h : Read.Settled more (readLiteral origin cur)) :
    readLiteral (origin + n) (cur.moved n more) = (readLiteral origin cur).moved n more := by
  unfold readLiteral at h ⊢
  dsimp only at h ⊢
  rw [readQuoted_moved ((Read.settled_map_iff _ _).mp h), Read.moved_map]

theorem readEscaped_moved (h : Read.Settled more (readEscaped config origin cur)) :
    readEscaped config (origin + n) (cur.moved n more) =
      (readEscaped config origin cur).moved n more := by
  unfold readEscaped at h ⊢
  rcases he : readEscape origin cur with ⟨err | ⟨c⟩ | ⟨members, negated⟩, after⟩
  · simp only [he] at h
    simp only [readEscape_moved (h.of_error he), he, Read.moved_error]
  · simp only [readEscape_moved (Read.settled_of_ok he), he, Read.moved_ok]
  · simp only [readEscape_moved (Read.settled_of_ok he), he, Read.moved_ok]
    simp only [termOfClass_moved, Read.moved]

theorem checkBounds_moved (limit least : Nat) (most : Bound) :
    checkBounds (origin + n) limit least most =
      (checkBounds origin limit least most).mapError (·.moved n) := by
  cases most with
  | infinity =>
    simp only [checkBounds]
    split <;> rfl
  | finite n =>
    simp only [checkBounds]
    split
    · rfl
    · split <;> rfl

theorem readCount_moved (h : Read.Settled more (readCount config origin cur)) :
    readCount config (origin + n) (cur.moved n more) =
      (readCount config origin cur).moved n more := by
  unfold readCount at h ⊢
  rcases hb : readBounds origin cur with ⟨err | ⟨least, most⟩, after⟩
  · simp only [hb] at h
    simp only [readBounds_moved (h.of_error hb), hb, Read.moved_error]
  · simp only [readBounds_moved (Read.settled_of_ok hb), hb, Read.moved_ok, checkBounds_moved]
    cases checkBounds origin config.repetitionLimit least most <;> rfl

/-- The same scanner, `n` bytes later and with `more` behind the text. -/
def moved (n : Nat) (more : List Char) (s : Scanner) : Scanner :=
  { s with cursor := s.cursor.moved n more }

/-- What becomes of a token or a failure, `n` bytes later. -/
def movedToken (n : Nat) : Except LexError Token → Except LexError Token
  | .ok t => .ok (t.moved n)
  | .error e => .error (e.moved n)

/-- The outcome of a token that `reader` reads behind its first character. -/
def readBy (reader : Config → Nat → Cursor → Read Term) (terminal : Terminal) (c : Char)
    (rest : List Char) (s : Scanner) : Except LexError Token × Scanner :=
  let read := reader s.config s.cursor.offset (s.cursor.past c rest)
  (read.1.map fun term => ⟨terminal, some term, s.cursor.offset⟩, { s with cursor := read.2 })

section
variable {s : Scanner} {rest : List Char}

theorem next_brace (hr : s.cursor.rest = '\x7b' :: rest) :
    s.next = s.readBy readCount .count '\x7b' rest := by simp [next, readBy, hr]

theorem next_bracket (hr : s.cursor.rest = '[' :: rest) :
    s.next = s.readBy readClass .letters '[' rest := by simp [next, readBy, hr]

theorem next_quote (hr : s.cursor.rest = '"' :: rest) :
    s.next = s.readBy (fun _ => readLiteral) .letters '"' rest := by simp [next, readBy, hr]

theorem next_backslash (hr : s.cursor.rest = '\\' :: rest) :
    s.next = s.readBy readEscaped .letters '\\' rest := by simp [next, readBy, hr]

theorem readBy_moved {reader : Config → Nat → Cursor → Read Term}
    (hreader : ∀ {config origin cur}, (reader config origin cur).Settled more →
      reader config (origin + n) (cur.moved n more) = (reader config origin cur).moved n more)
    {terminal : Terminal} {c : Char}
    (h : more = [] ∨ ∃ t s', s.readBy reader terminal c rest = (.ok t, s') ∧ t.terminal ≠ .eof) :
    (s.moved n more).readBy reader terminal c (rest ++ more) =
      (movedToken n (s.readBy reader terminal c rest).1,
        (s.readBy reader terminal c rest).2.moved n more) := by
  have hsettled : (reader s.config s.cursor.offset (s.cursor.past c rest)).Settled more := by
    refine h.imp_right ?_
    rintro ⟨t, s', heq, -⟩
    obtain ⟨v, hv, -⟩ := of_map_eq_ok (Prod.mk.inj heq).1
    exact ⟨v, _, Prod.ext hv rfl⟩
  have hread := hreader hsettled
  rw [Cursor.moved_past] at hread
  simp only [readBy]
  rw [show (s.moved n more).cursor = s.cursor.moved n more from rfl,
    show (s.moved n more).config = s.config from rfl,
    show (s.cursor.moved n more).offset = s.cursor.offset + n from rfl, hread]
  rcases reader s.config s.cursor.offset (s.cursor.past c rest) with ⟨_ | term, after⟩ <;> rfl

end

/-- Reading a token is local. Only the end of the text changes when more text follows. -/
theorem next_moved {s : Scanner}
    (h : more = [] ∨ ∃ t s', s.next = (.ok t, s') ∧ t.terminal ≠ .eof) :
    (s.moved n more).next = (movedToken n s.next.1, s.next.2.moved n more) := by
  have hnext := h
  revert hnext
  fun_cases next s <;> intro hnext
  case case1 hr =>
    have hmore : more = [] := by simpa using hnext
    simp +zetaDelta [next, moved, Cursor.moved, movedToken, Token.moved, hr, hmore]
  case case14 rest _ hr _ =>
    rw [next_brace hr] at h
    rw [next_brace (Cursor.rest_moved hr)]
    exact readBy_moved readCount_moved h
  case case15 rest _ hr _ =>
    rw [next_bracket hr] at h
    rw [next_bracket (Cursor.rest_moved hr)]
    exact readBy_moved readClass_moved h
  case case16 rest _ hr _ =>
    rw [next_quote hr] at h
    rw [next_quote (Cursor.rest_moved hr)]
    exact readBy_moved readLiteral_moved h
  case case17 rest _ hr _ =>
    rw [next_backslash hr] at h
    rw [next_backslash (Cursor.rest_moved hr)]
    exact readBy_moved readEscaped_moved h
  all_goals
    simp_all +zetaDelta [next, moved, Cursor.moved, movedToken, Token.moved, Cursor.past,
      Nat.add_right_comm]

/-! ## Other depths and limits -/

theorem config_next (s : Scanner) : s.next.2.config = s.config := by
  fun_cases next s <;> rfl

theorem next_withAtoms (s : Scanner) (atoms : Nat) :
    next { s with atoms := atoms } = (s.next.1, { s.next.2 with atoms := atoms }) := by
  fun_cases next s <;> simp_all +zetaDelta [next]

/-- The limit of the number of states is not for the scanner. -/
theorem next_withSizeLimit (s : Scanner) (limit : Nat) :
    next { s with config := { s.config with sizeLimit := limit } } =
      (s.next.1, { s.next.2 with config := { s.next.2.config with sizeLimit := limit } }) := by
  fun_cases next s <;>
    simp_all +zetaDelta [next, readCount, readClass, readEscaped, termOfClass, termOfLetter]

theorem next_openParen {s : Scanner} {rest : List Char} (hr : s.cursor.rest = '(' :: rest) :
    s.next = if s.config.nestLimit < s.depth + 1 then
      (.error ⟨s.cursor.offset, .nestLimitExceeded s.config.nestLimit⟩,
        { s with cursor := s.cursor.past '(' rest, depth := s.depth + 1 })
    else (.ok ⟨.openParen, none, s.cursor.offset⟩,
      { s with cursor := s.cursor.past '(' rest, depth := s.depth + 1 }) := by
  simp [next, hr]

/-- Where no parenthesis opens, the number of those that are open makes no difference. -/
theorem next_withDepth {s : Scanner} (hr : ∀ rest, s.cursor.rest ≠ '(' :: rest)
    (depth atoms : Nat) :
    next { s with depth := depth, atoms := atoms } = (s.next.1, { s.next.2 with
      depth := if s.cursor.rest.head? = some ')' then depth - 1 else depth
      atoms := atoms }) := by
  fun_cases next s <;> simp_all +zetaDelta [next]

/-- Two scanners at the same place read the same token, if each reads one. -/
theorem next_unique {s z s' z' : Scanner} {t u : Token} (hconfig : z.config = s.config)
    (hcursor : z.cursor = s.cursor) (hs : s.next = (.ok t, s')) (hz : z.next = (.ok u, z')) :
    u = t ∧ z'.cursor = s'.cursor := by
  obtain ⟨_, _, depth, atoms⟩ := z
  dsimp only at hconfig hcursor
  subst hconfig hcursor
  by_cases hopen : ∃ rest, s.cursor.rest = '(' :: rest
  · obtain ⟨rest, hr⟩ := hopen
    rw [next_openParen hr] at hs
    rw [next_openParen (s := ⟨s.config, s.cursor, depth, atoms⟩) hr] at hz
    split at hs
    · cases hs
    · split at hz
      · cases hz
      · cases hs
        cases hz
        exact ⟨rfl, rfl⟩
  · have hr : ∀ rest, s.cursor.rest ≠ '(' :: rest := fun rest hr => hopen ⟨rest, hr⟩
    rw [next_withDepth hr depth atoms, hs] at hz
    cases hz
    exact ⟨rfl, rfl⟩

/-- Where the text of a scanner stands in another text, the same token is read, if one is read. -/
theorem next_elsewhere {s z s' z' : Scanner} {t u : Token} (hconfig : z.config = s.config)
    (hcursor : z.cursor = s.cursor.moved n more) (hs : s.next = (.ok t, s'))
    (ht : more = [] ∨ t.terminal ≠ .eof) (hz : z.next = (.ok u, z')) :
    u = t.moved n ∧ z'.cursor = s'.cursor.moved n more := by
  have hmoved : (s.moved n more).next = (.ok (t.moved n), s'.moved n more) := by
    rw [next_moved (ht.imp_right fun ht => ⟨t, s', hs, ht⟩), hs]
    rfl
  exact next_unique (s := s.moved n more) hconfig hcursor hmoved hz

end Scanner

end

end PatternAutomata
