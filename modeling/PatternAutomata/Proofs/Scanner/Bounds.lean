import PatternAutomata.Proofs.Scanner.Locality

/-!
# Counts in braces

Which texts are read as a count, and what is wrong with all others. Bounds are one number, or two
around a comma, of which one may be missing. A text that does not begin with bounds, or that names a
number of more than 32 bits, is no count at all. Bounds over the limit are refused next, and bounds
out of order last.
-/
namespace PatternAutomata

/-! ## How bounds are written -/

/-- Decimal digits, one at least, that spell `n`. There may be zeros in front. -/
structure Numeral (digits : List Char) (n : Nat) : Prop where
  ne_nil : digits ≠ []
  isDigit : ∀ c ∈ digits, c.isDigit = true
  value : Nat.ofDigitChars 10 digits 0 = n

/-- The bounds of a count as they are written behind the opening brace, the closing one included. A
lower bound that is missing is zero. -/
inductive CountBody : List Char → Nat → Bound → Prop
  | exactly {digits : List Char} {n : Nat} (h : Numeral digits n) :
    CountBody (digits ++ ['\x7d']) n (.finite n)
  | atLeast {digits : List Char} {n : Nat} (h : Numeral digits n) :
    CountBody (digits ++ [',', '\x7d']) n .infinity
  | atMost {digits : List Char} {n : Nat} (h : Numeral digits n) :
    CountBody (',' :: (digits ++ ['\x7d'])) 0 (.finite n)
  | between {ls ms : List Char} {least most : Nat} (hl : Numeral ls least)
    (hm : Numeral ms most) : CountBody (ls ++ ',' :: (ms ++ ['\x7d'])) least (.finite most)

/-- Whether no bound is larger than `limit`. -/
def Bound.UpTo (limit least : Nat) (most : Bound) : Prop :=
  least ≤ limit ∧ ∀ n, most = .finite n → n ≤ limit

theorem numeral_toDigits (n : Nat) : Numeral (Nat.toDigits 10 n) n where
  ne_nil := Nat.toDigits_ne_nil
  isDigit _ hc := Nat.isDigit_of_mem_toDigits (by omega) (by omega) hc
  value := Nat.ofDigitChars_ten_toDigits

/-! ## One number -/

/-- Whether digits are a number that a count can have, or are missing. -/
inductive Figure : List Char → Option Nat → Prop
  | absent : Figure [] none
  | present {digits : List Char} {n : Nat} (h : Numeral digits n)
    (hle : n ≤ Automaton.countCeiling) : Figure digits (some n)

section
variable {origin : Nat} {cur after : Cursor} {digits rest : List Char} {number : Option Nat}
  {least : Nat} {most : Bound}

theorem decimalValue_eq (digits : List Char) :
    decimalValue digits = Nat.ofDigitChars 10 digits 0 := by
  simp only [Nat.ofDigitChars_eq_foldl, decimalValue, Nat.mul_comm, Char.reduceToNat]

theorem Figure.isDigit (h : Figure digits number) : ∀ c ∈ digits, c.isDigit = true := by
  cases h with
  | absent => simp
  | present h => exact h.isDigit

/-- A number is read as long as there are digits. -/
theorem readNumber_of_figure (origin : Nat) (h : Figure digits number)
    (hreach : cur.Reaches digits after) (hbehind : ∀ c ∈ after.rest.head?, c.isDigit = false) :
    readNumber origin cur = (.ok number, after) := by
  have hrest : after.rest.takeWhile Char.isDigit = [] ∧
      after.rest.dropWhile Char.isDigit = after.rest := by
    cases hr : after.rest with
    | nil => simp
    | cons c rest =>
      have hc : c.isDigit = false := hbehind c (by simp [hr])
      simp [hc]
  have htake : cur.rest.takeWhile Char.isDigit = digits := by
    rw [hreach.1, List.takeWhile_append_of_pos h.isDigit, hrest.1, List.append_nil]
  have hdrop : cur.rest.dropWhile Char.isDigit = after.rest := by
    rw [hreach.1, List.dropWhile_append_of_pos h.isDigit, hrest.2]
  simp only [readNumber, htake, hdrop, ← hreach.2]
  cases h with
  | absent => simp
  | present h hle =>
    rw [decimalValue_eq, h.value, if_neg (by simp [h.ne_nil]), if_neg (by omega)]

/-- What is read as a number. -/
theorem figure_of_readNumber (h : readNumber origin cur = (.ok number, after)) :
    ∃ digits, Figure digits number ∧ cur.Reaches digits after := by
  have hreach : cur.Reaches (cur.rest.takeWhile Char.isDigit) ⟨cur.rest.dropWhile Char.isDigit,
      cur.offset + utf8Length (cur.rest.takeWhile Char.isDigit)⟩ :=
    ⟨List.takeWhile_append_dropWhile.symm, rfl⟩
  have hdigits : ∀ c ∈ cur.rest.takeWhile Char.isDigit, c.isDigit = true := by
    intro c hc
    exact List.all_eq_true.mp List.all_takeWhile c hc
  simp only [readNumber] at h
  by_cases hempty : cur.rest.takeWhile Char.isDigit = []
  · simp only [hempty, List.isEmpty_nil, if_true] at h hreach
    cases h
    exact ⟨[], .absent, hreach⟩
  · rw [if_neg (by simpa using hempty)] at h
    by_cases hle : decimalValue (cur.rest.takeWhile Char.isDigit) ≤ Automaton.countCeiling
    · rw [if_neg (Nat.not_lt.mpr hle)] at h
      cases h
      exact ⟨_, .present ⟨hempty, hdigits, (decimalValue_eq _).symm⟩ hle, hreach⟩
    · rw [if_pos (Nat.lt_of_not_le hle)] at h
      cases h

theorem error_of_readNumber {err : LexError} (h : readNumber origin cur = (.error err, after)) :
    err = ⟨origin, .invalidCount⟩ := by
  revert h
  fun_cases readNumber origin cur <;> intro h
  all_goals cases (Prod.mk.inj h).1
  rfl

/-! ## Two bounds -/

/-- Where no bounds are read there is no count. -/
theorem error_of_readBounds {err : LexError} (h : readBounds origin cur = (.error err, after)) :
    err = ⟨origin, .invalidCount⟩ := by
  revert h
  fun_cases readBounds origin cur <;> intro h
  case case1 hn | case5 hn =>
    cases h
    exact error_of_readNumber hn
  all_goals
    cases (Prod.mk.inj h).1
    try rfl

section
variable {least? most? : Option Nat} {mid mid₂ : Cursor}

theorem readBounds_close {n : Nat} (hn : readNumber origin cur = (.ok (some n), mid))
    (hclose : mid.Reaches ['\x7d'] after) :
    readBounds origin cur = (.ok (n, .finite n), after) := by
  obtain ⟨hr, hafter⟩ := hclose.of_singleton
  simp only [readBounds, hn, hr, hafter]

theorem readBounds_comma (hl : readNumber origin cur = (.ok least?, mid))
    (hcomma : mid.Reaches [','] mid₂) {mid₃ : Cursor}
    (hm : readNumber origin mid₂ = (.ok most?, mid₃)) (hclose : mid₃.Reaches ['\x7d'] after) :
    readBounds origin cur =
      (match least?, most? with
        | none, none => .error ⟨origin, .invalidCount⟩
        | some least, none => .ok (least, .infinity)
        | least, some most => .ok (least.getD 0, .finite most), after) := by
  obtain ⟨hr, hmid⟩ := hcomma.of_singleton
  obtain ⟨hr₂, hafter⟩ := hclose.of_singleton
  simp only [readBounds, hl, hr, hmid, hm, hr₂, hafter]
  cases least? <;> cases most? <;> rfl

/-- Bounds that are written are read, if no number is too large. -/
theorem readBounds_of_body {body : List Char} (hbody : CountBody body least most)
    (hle : most.UpTo Automaton.countCeiling least) (hreach : cur.Reaches body after) :
    readBounds origin cur = (.ok (least, most), after) := by
  have behind {x : Char} {c d : Cursor} (h : c.Reaches [x] d) (hx : x.isDigit = false) :
      ∀ y ∈ c.rest.head?, y.isDigit = false := by
    simp [h.of_singleton.1, hx]
  cases hbody with
  | exactly h =>
    obtain ⟨mid, hdigits, hclose⟩ := hreach.of_append
    have hread := readNumber_of_figure origin (.present h hle.1) hdigits (behind hclose rfl)
    exact readBounds_close hread hclose
  | atLeast h =>
    obtain ⟨mid, hdigits, hcomma⟩ := hreach.of_append
    obtain ⟨mid₂, hcomma, hclose⟩ := hcomma.of_append (s := [','])
    have hread := readNumber_of_figure origin (.present h hle.1) hdigits (behind hcomma rfl)
    have hnone := readNumber_of_figure origin .absent (.refl mid₂) (behind hclose rfl)
    exact readBounds_comma hread hcomma hnone hclose
  | atMost h =>
    obtain ⟨mid, hcomma, hdigits⟩ := hreach.of_append (s := [','])
    obtain ⟨mid₂, hdigits, hclose⟩ := hdigits.of_append
    have hnone := readNumber_of_figure origin .absent (.refl cur) (behind hcomma rfl)
    have hread := readNumber_of_figure origin (.present h (hle.2 _ rfl)) hdigits (behind hclose rfl)
    exact readBounds_comma hnone hcomma hread hclose
  | between hl hm =>
    obtain ⟨mid, hleast, hcomma⟩ := hreach.of_append
    obtain ⟨mid₂, hcomma, hmost⟩ := hcomma.of_append (s := [','])
    obtain ⟨mid₃, hmost, hclose⟩ := hmost.of_append
    have hread := readNumber_of_figure origin (.present hl hle.1) hleast (behind hcomma rfl)
    have hread₂ := readNumber_of_figure origin (.present hm (hle.2 _ rfl)) hmost (behind hclose rfl)
    exact readBounds_comma hread hcomma hread₂ hclose

theorem body_of_readBounds (h : readBounds origin cur = (.ok (least, most), after)) :
    ∃ body, CountBody body least most ∧ most.UpTo Automaton.countCeiling least ∧
      cur.Reaches body after := by
  revert h
  fun_cases readBounds origin cur <;> intro h
  case case3 hr _ _ hn =>
    obtain ⟨hbounds, rfl⟩ := Prod.mk.inj h
    cases hbounds
    obtain ⟨_, hfigure, hreach⟩ := figure_of_readNumber hn
    cases hfigure with
    | present hnumeral hle =>
      exact ⟨_, .exactly hnumeral, ⟨hle, by simp [hle]⟩, hreach.trans (Cursor.reaches_past hr)⟩
  case case7 hr _ _ hr₂ _ _ hn hn₂ =>
    obtain ⟨hbounds, rfl⟩ := Prod.mk.inj h
    cases hbounds
    obtain ⟨_, hfigure, hreach⟩ := figure_of_readNumber hn
    obtain ⟨_, hnone, hreach₂⟩ := figure_of_readNumber hn₂
    have hall := ((hreach.trans (Cursor.reaches_past hr)).trans hreach₂).trans
      (Cursor.reaches_past hr₂)
    cases hnone
    cases hfigure with
    | present hnumeral hle =>
      refine ⟨_, .atLeast hnumeral, ⟨hle, by simp⟩, ?_⟩
      simpa using hall
  case case8 hr _ _ hr₂ _ _ _ hn hn₂ =>
    obtain ⟨hbounds, rfl⟩ := Prod.mk.inj h
    cases hbounds
    obtain ⟨_, hfigure, hreach⟩ := figure_of_readNumber hn
    obtain ⟨_, hfigure₂, hreach₂⟩ := figure_of_readNumber hn₂
    have hall := ((hreach.trans (Cursor.reaches_past hr)).trans hreach₂).trans
      (Cursor.reaches_past hr₂)
    cases hfigure₂ with
    | present hmost hle₂ =>
      cases hfigure with
      | absent => exact ⟨_, .atMost hmost, ⟨Nat.zero_le _, by simp [hle₂]⟩, by simpa using hall⟩
      | present hleast hle =>
        exact ⟨_, .between hleast hmost, ⟨hle, by simp [hle₂]⟩, by simpa using hall⟩
  all_goals cases (Prod.mk.inj h).1

end

/-- The limit is tested before the order of the bounds. -/
theorem checkBounds_cases (origin limit least : Nat) (most : Bound) :
    ¬ most.UpTo limit least ∧
        checkBounds origin limit least most = .error ⟨origin, .repetitionTooLarge limit⟩ ∨
      most.UpTo limit least ∧ most.Allows least ∧
        checkBounds origin limit least most = .ok (least, most) ∨
      most.UpTo limit least ∧ ∃ n, most = .finite n ∧ n < least ∧
        checkBounds origin limit least most = .error ⟨origin, .countOutOfOrder least n⟩ := by
  cases most with
  | infinity =>
    by_cases hlimit : limit < least
    · exact .inl ⟨fun h => Nat.not_le.mpr hlimit h.1, by simp [checkBounds, hlimit]⟩
    · exact .inr (.inl ⟨⟨by omega, by simp⟩, trivial, by simp [checkBounds, hlimit]⟩)
  | finite n =>
    by_cases hlimit : limit < max n least
    · refine .inl ⟨?_, by simp only [checkBounds, if_pos hlimit]⟩
      rintro ⟨hleast, hmost⟩
      have hn : n ≤ limit := hmost n rfl
      omega
    · have hle : Bound.UpTo limit least (.finite n) := by
        refine ⟨by omega, ?_⟩
        intro m hm
        obtain rfl := Bound.finite.inj hm
        omega
      by_cases horder : n < least
      · exact .inr (.inr ⟨hle, n, rfl, horder, by
          simp only [checkBounds, if_neg hlimit, if_pos horder]⟩)
      · exact .inr (.inl ⟨hle, Nat.le_of_not_lt horder, by
          simp only [checkBounds, if_neg hlimit, if_neg horder]⟩)

end

/-! ## Counts -/

/-- What is wrong with a text that stands behind an opening brace and is no count. -/
inductive CountFault (limit : Nat) (text : List Char) : LexCause → Prop
  | malformed (h : ∀ body rest least most, text = body ++ rest → CountBody body least most →
      ¬ most.UpTo Automaton.countCeiling least) : CountFault limit text .invalidCount
  | tooLarge {body rest : List Char} {least : Nat} {most : Bound} (ht : text = body ++ rest)
    (hbody : CountBody body least most) (hle : most.UpTo Automaton.countCeiling least)
    (hlimit : ¬ most.UpTo limit least) : CountFault limit text (.repetitionTooLarge limit)
  | outOfOrder {body rest : List Char} {least n : Nat} (ht : text = body ++ rest)
    (hbody : CountBody body least (.finite n))
    (hle : Bound.UpTo Automaton.countCeiling least (.finite n))
    (hlimit : Bound.UpTo limit least (.finite n)) (horder : n < least) :
    CountFault limit text (.countOutOfOrder least n)

namespace Scanner
variable {s : Scanner} {text : List Char}

/-- Where bounds are written, it is left to test them. -/
theorem next_of_countBody {body rest : List Char} {least : Nat} {most : Bound}
    (hr : s.cursor.rest = '\x7b' :: text) (ht : text = body ++ rest)
    (hbody : CountBody body least most) (hle : most.UpTo Automaton.countCeiling least) :
    s.next = ((checkBounds s.cursor.offset s.config.repetitionLimit least most).map
        fun b => ⟨.count, some (.count b.1 b.2), s.cursor.offset⟩,
      { s with cursor := ⟨rest, s.cursor.offset + utf8Length ('\x7b' :: body)⟩ }) := by
  have hreach : (s.cursor.past '\x7b' text).Reaches body
      ⟨rest, s.cursor.offset + utf8Length ('\x7b' :: body)⟩ := by
    refine ⟨ht, ?_⟩
    rw [utf8Length_cons, ← Nat.add_assoc]
    rfl
  have hread : readBounds s.cursor.offset (s.cursor.past '\x7b' text) = (.ok (least, most), _) :=
    readBounds_of_body hbody hle hreach
  rw [next_brace hr]
  simp only [readBy, readCount, hread]
  cases checkBounds s.cursor.offset s.config.repetitionLimit least most <;> rfl

/-- Where no bounds are written, or a number is too large, the count is invalid. -/
theorem next_of_malformed (hr : s.cursor.rest = '\x7b' :: text)
    (h : ∀ body rest least most, text = body ++ rest → CountBody body least most →
      ¬ most.UpTo Automaton.countCeiling least) :
    s.next.1 = .error ⟨s.cursor.offset, .invalidCount⟩ := by
  rw [next_brace hr]
  rcases hread : readBounds s.cursor.offset (s.cursor.past '\x7b' text) with
    ⟨err | ⟨least, most⟩, after⟩
  · simp only [readBy, readCount, hread, error_of_readBounds hread]
    rfl
  · obtain ⟨body, hbody, hle, hreach⟩ := body_of_readBounds hread
    exact absurd hle (h body after.rest least most hreach.1 hbody)

theorem next_of_countFault {cause : LexCause} (hr : s.cursor.rest = '\x7b' :: text)
    (h : CountFault s.config.repetitionLimit text cause) :
    s.next.1 = .error ⟨s.cursor.offset, cause⟩ := by
  cases h with
  | malformed h => exact next_of_malformed hr h
  | @tooLarge _ _ least most ht hbody hle hlimit =>
    rw [next_of_countBody hr ht hbody hle]
    rcases checkBounds_cases s.cursor.offset s.config.repetitionLimit least most with
      ⟨-, hcheck⟩ | ⟨hupTo, -⟩ | ⟨hupTo, -⟩
    · rw [hcheck]
      rfl
    · exact absurd hupTo hlimit
    · exact absurd hupTo hlimit
  | @outOfOrder _ _ least n ht hbody hle hlimit horder =>
    rw [next_of_countBody hr ht hbody hle]
    rcases checkBounds_cases s.cursor.offset s.config.repetitionLimit least (.finite n) with
      ⟨hupTo, -⟩ | ⟨-, hallows, -⟩ | ⟨-, m, hm, -, hcheck⟩
    · exact absurd hlimit hupTo
    · exact absurd horder (Nat.not_lt.mpr hallows)
    · obtain rfl := Bound.finite.inj hm
      rw [hcheck]
      rfl

theorem next_of_count {body rest : List Char} {least : Nat} {most : Bound}
    (hr : s.cursor.rest = '\x7b' :: text) (ht : text = body ++ rest)
    (hbody : CountBody body least most) (hle : most.UpTo Automaton.countCeiling least)
    (hlimit : most.UpTo s.config.repetitionLimit least) (hallows : most.Allows least) :
    s.next = (.ok ⟨.count, some (.count least most), s.cursor.offset⟩,
      { s with cursor := ⟨rest, s.cursor.offset + utf8Length ('\x7b' :: body)⟩ }) := by
  rw [next_of_countBody hr ht hbody hle]
  rcases checkBounds_cases s.cursor.offset s.config.repetitionLimit least most with
    ⟨hupTo, -⟩ | ⟨-, -, hcheck⟩ | ⟨-, n, rfl, horder, -⟩
  · exact absurd hlimit hupTo
  · rw [hcheck]
    rfl
  · exact absurd horder (Nat.not_lt.mpr hallows)

/-- A text behind an opening brace is a count or has a fault. -/
theorem count_or_fault (limit : Nat) (text : List Char) :
    (∃ body rest least most, text = body ++ rest ∧ CountBody body least most ∧
      most.UpTo Automaton.countCeiling least ∧ most.UpTo limit least ∧ most.Allows least) ∨
    ∃ cause, CountFault limit text cause := by
  by_cases hwritten : ∃ body rest least most, text = body ++ rest ∧ CountBody body least most ∧
      Bound.UpTo Automaton.countCeiling least most
  · obtain ⟨body, rest, least, most, ht, hbody, hle⟩ := hwritten
    rcases checkBounds_cases 0 limit least most with
      ⟨hlimit, -⟩ | ⟨hlimit, hallows, -⟩ | ⟨hlimit, n, rfl, horder, -⟩
    · exact .inr ⟨_, .tooLarge ht hbody hle hlimit⟩
    · exact .inl ⟨body, rest, least, most, ht, hbody, hle, hlimit, hallows⟩
    · exact .inr ⟨_, .outOfOrder ht hbody hle hlimit horder⟩
  · refine .inr ⟨_, .malformed ?_⟩
    intro body rest least most ht hbody hle
    exact hwritten ⟨body, rest, least, most, ht, hbody, hle⟩

/-- A count is read exactly where bounds are written that keep to the limit and are in order, and
nothing is read beyond its closing brace. What is wrong with any other text is said in a fixed
order. So whatever token is a count, its bounds are in order. -/
theorem next_count_law (hr : s.cursor.rest = '\x7b' :: text) :
    (∀ t s', s.next = (.ok t, s') ↔ ∃ body rest least most, text = body ++ rest ∧
      CountBody body least most ∧ most.UpTo Automaton.countCeiling least ∧
      most.UpTo s.config.repetitionLimit least ∧ most.Allows least ∧
      t = ⟨.count, some (.count least most), s.cursor.offset⟩ ∧
      s' = { s with cursor := ⟨rest, s.cursor.offset + utf8Length ('\x7b' :: body)⟩ }) ∧
    (∀ err, s.next.1 = .error err ↔ err.offset = s.cursor.offset ∧
      CountFault s.config.repetitionLimit text err.cause) ∧
    ∀ (z : Scanner) t, z.next.1 = .ok t → t.terminal = .count →
      ∃ least most, t.term = some (.count least most) ∧ most.Allows least := by
  refine ⟨?token, ?failure, ?order⟩
  case token =>
    intro t s'
    constructor
    · intro hnext
      rcases count_or_fault s.config.repetitionLimit text with
        ⟨body, rest, least, most, ht, hbody, hle, hlimit, hallows⟩ | ⟨cause, hfault⟩
      · rw [next_of_count hr ht hbody hle hlimit hallows] at hnext
        obtain ⟨htoken, rfl⟩ := Prod.mk.inj hnext
        exact ⟨body, rest, least, most, ht, hbody, hle, hlimit, hallows,
          (Except.ok.inj htoken).symm, rfl⟩
      · have hfailed := next_of_countFault hr hfault
        simp [hnext] at hfailed
    · rintro ⟨body, rest, least, most, ht, hbody, hle, hlimit, hallows, rfl, rfl⟩
      exact next_of_count hr ht hbody hle hlimit hallows
  case failure =>
    intro err
    constructor
    · intro herr
      rcases count_or_fault s.config.repetitionLimit text with
        ⟨body, rest, least, most, ht, hbody, hle, hlimit, hallows⟩ | ⟨cause, hfault⟩
      · simp [next_of_count hr ht hbody hle hlimit hallows] at herr
      · rw [next_of_countFault hr hfault] at herr
        obtain rfl := Except.error.inj herr
        exact ⟨rfl, hfault⟩
    · rintro ⟨hoffset, hfault⟩
      rw [next_of_countFault hr hfault, ← hoffset]
  case order =>
    intro z t ht hcount
    have hlexical := lexical_next ht
    rwa [Token.Lexical, hcount] at hlexical

/-- There are zeros in front of a bound, and bounds that are out of order are over the limit too. -/
theorem next_count_law_zeros :
    let s := ofText { repetitionLimit := 12 } "\x7b007,12\x7d,5\x7d"
    let z := ofText { repetitionLimit := 12 } "\x7b13,2\x7d"
    s.cursor.rest = '\x7b' :: "007,12\x7d,5\x7d".toList ∧
      s.next = (.ok ⟨.count, some (.count 7 (.finite 12)), 0⟩,
        { s with cursor := ⟨",5\x7d".toList, 8⟩ }) ∧
      z.next.1 = .error ⟨0, .repetitionTooLarge 12⟩ := by
  intro s z
  have hs : s.cursor.rest = '\x7b' :: "007,12\x7d,5\x7d".toList := rfl
  have hz : z.cursor.rest = '\x7b' :: "13,2\x7d".toList := rfl
  have numeral (digits : List Char) (n : Nat) (hne : digits ≠ [])
      (hdigits : digits.all Char.isDigit = true) (hn : Nat.ofDigitChars 10 digits 0 = n) :
      Numeral digits n := ⟨hne, List.all_eq_true.mp hdigits, hn⟩
  have hzeros : CountBody "007,12\x7d".toList 7 (.finite 12) :=
    .between (numeral ['0', '0', '7'] 7 (by simp) rfl rfl) (numeral ['1', '2'] 12 (by simp) rfl rfl)
  have hlarge : CountBody "13,2\x7d".toList 13 (.finite 2) :=
    .between (numeral ['1', '3'] 13 (by simp) rfl rfl) (numeral ['2'] 2 (by simp) rfl rfl)
  refine ⟨hs, ?_, ?_⟩
  · refine ((next_count_law hs).1 _ _).mpr
      ⟨_, ",5\x7d".toList, 7, .finite 12, rfl, hzeros, ?_, ?_, ?_, rfl, rfl⟩
    · simp [Bound.UpTo, Automaton.countCeiling]
    · simp [s, Bound.UpTo, ofText]
    · simp [Bound.Allows]
  · refine ((next_count_law hz).2.1 _).mpr
      ⟨rfl, .tooLarge (List.append_nil _).symm hlarge ?_ ?_⟩
    · simp [Bound.UpTo, Automaton.countCeiling]
    · simp [z, Bound.UpTo, ofText]

end Scanner

end PatternAutomata
