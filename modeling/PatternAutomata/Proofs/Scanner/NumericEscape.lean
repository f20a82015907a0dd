import PatternAutomata.Proofs.CharClass
import PatternAutomata.Proofs.Scanner.Locality

/-!
# Escapes by number

A character may be written by its number, with two hexadecimal digits or with any number of them in
braces. The digits are read exactly: they are refused if and only if their value is no character's.
It makes no difference whether such an escape stands by itself, in a quoted text, at the beginning
of a class item or at the end of a range.
-/
namespace PatternAutomata

/-! ## How numbers are written -/

/-- A hexadecimal digit, small or capital, and its value. -/
def HexDigit (x : Char) (d : Nat) : Prop := d < 16 ∧ (x = d.digitChar ∨ x = d.digitChar.toUpper)

/-- Hexadecimal digits, one at least, and their value. There may be zeros in front. -/
inductive HexNumeral : List Char → Nat → Prop
  | digit {x : Char} {d : Nat} (h : HexDigit x d) : HexNumeral [x] d
  | further {digits : List Char} {n : Nat} {x : Char} {d : Nat} (hn : HexNumeral digits n)
    (h : HexDigit x d) : HexNumeral (digits ++ [x]) (n * 16 + d)

/-- The escape of a character by its number, without the backslash. -/
inductive NumericEscape : List Char → Char → Prop
  | pair {x y : Char} {high low : Nat} {c : Char} (hx : HexDigit x high) (hy : HexDigit y low)
    (hc : c.toNat = high * 16 + low) : NumericEscape ['x', x, y] c
  | braced {digits : List Char} {c : Char} (h : HexNumeral digits c.toNat) :
    NumericEscape ('u' :: '\x7b' :: (digits ++ ['\x7d'])) c

theorem hexDigit?_eq_some_iff {x : Char} {d : Nat} : hexDigit? x = some d ↔ HexDigit x d := by
  have read : ∀ n < 128, ∀ d ∈ hexDigit? (Char.ofNat n), d < 16 ∧
      (Char.ofNat n = d.digitChar ∨ Char.ofNat n = d.digitChar.toUpper) := by decide
  have written : ∀ d < 16, hexDigit? d.digitChar = some d ∧
      hexDigit? d.digitChar.toUpper = some d := by decide
  constructor
  · intro h
    have hx : x.toNat < 128 := by
      simp only [hexDigit?, char_le_iff, Char.reduceToNat] at h
      split_ifs at h <;> omega
    have hd := read x.toNat hx d
    rw [Char.ofNat_toNat] at hd
    exact hd h
  · rintro ⟨hd, rfl | rfl⟩
    · exact (written d hd).1
    · exact (written d hd).2

theorem HexDigit.ne_close {d : Nat} (h : HexDigit '\x7d' d) : False := by
  have hnone : hexDigit? '\x7d' = none := rfl
  rw [hexDigit?_eq_some_iff.mpr h] at hnone
  cases hnone

theorem hexNumeral_toDigits (n : Nat) : HexNumeral (Nat.toDigits 16 n) n := by
  induction n using Nat.strongRecOn with
  | ind n ih =>
    rw [Nat.toDigits_eq_if (by omega)]
    by_cases hn : n < 16
    · rw [if_pos hn]
      exact .digit ⟨hn, .inl rfl⟩
    · -- The last digit comes behind those of the quotient.
      have hdiv : n / 16 * 16 + n % 16 = n := by omega
      have hfurther := (ih (n / 16) (by omega)).further
        (x := (n % 16).digitChar) ⟨Nat.mod_lt n (by omega), .inl rfl⟩
      rw [if_neg hn]
      rwa [hdiv] at hfurther

/-! ## Digits in braces -/

section
variable {origin offset : Nat} {cur after : Cursor} {digits read text body rest : List Char}
  {n d : Nat} {x c k : Char} {started : Bool}

theorem readHexBraced_digit (origin n : Nat) (started : Bool) (h : HexDigit x d)
    (rest : List Char) (offset : Nat) :
    readHexBraced origin n started (x :: rest) offset =
      if 0xFFFFFFFF < n * 16 + d then
        (.error ⟨origin, .invalidCodepoint⟩, ⟨rest, offset + x.utf8Size⟩)
      else readHexBraced origin (n * 16 + d) true rest (offset + x.utf8Size) := by
  have hclose : ¬ (x = '\x7d' ∧ started = true) := by
    rintro ⟨rfl, -⟩
    exact h.ne_close
  rw [readHexBraced, if_neg hclose, hexDigit?_eq_some_iff.mpr h]

/-- However many digits there are, their value is read exactly as long as it has 32 bits, and they
are refused otherwise. -/
theorem readHexBraced_numeral (origin : Nat) (h : HexNumeral digits n) (rest : List Char)
    (offset : Nat) :
    (n ≤ 0xFFFFFFFF → readHexBraced origin 0 false (digits ++ rest) offset =
        readHexBraced origin n true rest (offset + utf8Length digits)) ∧
      (0xFFFFFFFF < n → (readHexBraced origin 0 false (digits ++ rest) offset).1 =
        .error ⟨origin, .invalidCodepoint⟩) := by
  induction h generalizing rest with
  | @digit x d h =>
    have hd : d < 16 := h.1
    constructor
    · intro _
      rw [List.singleton_append, readHexBraced_digit origin 0 false h, if_neg (by omega)]
      simp
    · intro hlarge
      omega
  | @further digits n x d hn h ih =>
    rw [List.append_assoc, List.singleton_append]
    obtain ⟨hexact, hrefused⟩ := ih (x :: rest)
    constructor
    · intro hle
      rw [hexact (by omega), readHexBraced_digit origin n true h, if_neg (by omega)]
      simp [Nat.add_assoc]
    · intro hlarge
      by_cases hle : n ≤ 0xFFFFFFFF
      · rw [hexact hle, readHexBraced_digit origin n true h, if_pos hlarge]
      · exact hrefused (by omega)

theorem error_of_readHexBraced {err : LexError}
    (h : (readHexBraced origin n started text offset).1 = .error err) :
    err = ⟨origin, .invalidCodepoint⟩ := by
  revert h
  fun_induction readHexBraced origin n started text offset <;> intro h
  case case6 ih => exact ih h
  all_goals
    cases h
    try rfl

/-- The digits that are read so far, their value, and whether there are any. -/
inductive HexRead : List Char → Nat → Bool → Prop
  | nothing : HexRead [] 0 false
  | some {digits : List Char} {n : Nat} (h : HexNumeral digits n) : HexRead digits n true

theorem HexRead.further (hread : HexRead read n started) (h : HexDigit x d) :
    HexNumeral (read ++ [x]) (n * 16 + d) := by
  cases hread with
  | nothing => simpa using HexNumeral.digit h
  | some hn => exact hn.further h

/-- What is read in braces is a number, and it is a character's. -/
theorem numeral_of_readHexBraced
    (h : readHexBraced origin n started text offset = (.ok c, after))
    (hread : HexRead read n started) :
    ∃ digits, HexNumeral (read ++ digits) c.toNat ∧
      Cursor.Reaches ⟨text, offset⟩ (digits ++ ['\x7d']) after := by
  induction text generalizing n started offset read with
  | nil => cases h
  | cons x rest ih =>
    have hpast : Cursor.Reaches ⟨x :: rest, offset⟩ [x] ⟨rest, offset + x.utf8Size⟩ :=
      Cursor.reaches_past rfl
    rw [readHexBraced] at h
    by_cases hclose : x = '\x7d' ∧ started = true
    · rw [if_pos hclose] at h
      obtain ⟨rfl, rfl⟩ := hclose
      cases hread with
      | some hn =>
        cases hscalar : scalar? n with
        | none =>
          rw [hscalar] at h
          cases h
        | some c =>
          rw [hscalar] at h
          cases h
          refine ⟨[], ?_, hpast⟩
          rwa [List.append_nil, ← scalar?_eq_some_iff.mp hscalar]
    · rw [if_neg hclose] at h
      cases hdigit : hexDigit? x with
      | none =>
        rw [hdigit] at h
        cases h
      | some d =>
        simp only [hdigit] at h
        by_cases hlarge : 0xFFFFFFFF < n * 16 + d
        · rw [if_pos hlarge] at h
          cases h
        · rw [if_neg hlarge] at h
          obtain ⟨digits, hnumeral, hreach⟩ :=
            ih h (.some (hread.further (hexDigit?_eq_some_iff.mp hdigit)))
          refine ⟨x :: digits, ?_, hpast.trans hreach⟩
          simpa using hnumeral

theorem readHexBraced_close (h : HexNumeral digits c.toNat)
    (hreach : Cursor.Reaches ⟨text, offset⟩ (digits ++ ['\x7d']) after) :
    readHexBraced origin 0 false text offset = (.ok c, after) := by
  have hc : c.toNat ≤ 0xFFFFFFFF := Nat.le_of_lt_succ c.val.toNat_lt
  obtain ⟨mid, hdigits, hclose⟩ := hreach.of_append
  obtain ⟨hmid, hafter⟩ := hclose.of_singleton
  obtain rfl : text = digits ++ mid.rest := hdigits.1
  rw [(readHexBraced_numeral origin h mid.rest offset).1 hc, hmid, readHexBraced,
    if_pos ⟨rfl, rfl⟩, scalar?_eq_some_iff.mpr rfl, ← hafter, Cursor.past, hdigits.2]

/-! ## One escape -/

theorem readHexPair_of_digits {high low : Nat} {y : Char} (hx : HexDigit x high)
    (hy : HexDigit y low) (hc : c.toNat = high * 16 + low) (hreach : cur.Reaches [x, y] after) :
    readHexPair origin cur = (.ok c, after) := by
  obtain ⟨hr, hfirst⟩ := hreach.of_cons
  obtain ⟨-, hsecond⟩ := hfirst.of_singleton
  have hvalue : Char.ofNat (high * 16 + low) = c := by rw [← hc, Char.ofNat_toNat]
  simp only [readHexPair, hr, List.singleton_append, hexDigit?_eq_some_iff.mpr hx,
    hexDigit?_eq_some_iff.mpr hy, hvalue]
  exact Prod.ext rfl hsecond

theorem digits_of_readHexPair (h : readHexPair origin cur = (.ok c, after)) :
    ∃ x y high low, HexDigit x high ∧ HexDigit y low ∧ c.toNat = high * 16 + low ∧
      cur.Reaches [x, y] after := by
  revert h
  fun_cases readHexPair origin cur <;> intro h
  case case5 x high y rest hx low hy hr _ _ =>
    obtain ⟨hvalue, hafter⟩ := Prod.mk.inj h
    have hhigh := hexDigit?_eq_some_iff.mp hx
    have hlow := hexDigit?_eq_some_iff.mp hy
    have hvalid : (high * 16 + low).isValidChar := by
      have := hhigh.1
      have := hlow.1
      exact .inl (by omega)
    refine ⟨x, y, high, low, hhigh, hlow, ?_, ?_⟩
    · rw [← Except.ok.inj hvalue, Char.ofNat, dif_pos hvalid]
      rfl
    · rw [← hafter]
      exact (Cursor.reaches_past hr).trans (Cursor.reaches_past rfl)
  all_goals cases h

theorem error_of_readHexPair {err : LexError} (h : (readHexPair origin cur).1 = .error err) :
    err = ⟨origin, .invalidCodepoint⟩ := by
  revert h
  fun_cases readHexPair origin cur <;> intro h <;> cases h <;> rfl

theorem error_of_readCodepoint {err : LexError} (h : (readCodepoint origin cur).1 = .error err) :
    err = ⟨origin, .invalidCodepoint⟩ := by
  revert h
  fun_cases readCodepoint origin cur <;> intro h
  · exact error_of_readHexBraced h
  · cases h
    rfl

theorem brace_of_readCodepoint (h : readCodepoint origin cur = (.ok c, after)) :
    ∃ rest, cur.rest = '\x7b' :: rest ∧
      readHexBraced origin 0 false rest (cur.past '\x7b' rest).offset = (.ok c, after) := by
  revert h
  fun_cases readCodepoint origin cur <;> intro h
  case case1 rest hr => exact ⟨rest, hr, h⟩
  case case2 => cases h

theorem readCodepoint_of_numeral (h : HexNumeral digits c.toNat)
    (hreach : cur.Reaches ('\x7b' :: (digits ++ ['\x7d'])) after) :
    readCodepoint origin cur = (.ok c, after) := by
  obtain ⟨hr, hdigits⟩ := hreach.of_cons
  simp only [readCodepoint, hr]
  exact readHexBraced_close h hdigits

/-- An escape by number is read, and nothing behind it. -/
theorem readEscape_of_numericEscape (h : NumericEscape body c) (hreach : cur.Reaches body after) :
    readEscape origin cur = (.ok (.char c), after) := by
  cases h with
  | pair hx hy hc =>
    obtain ⟨hr, hpair⟩ := hreach.of_cons
    simp only [readEscape, hr, readHexPair_of_digits hx hy hc hpair, Except.map]
  | braced h =>
    obtain ⟨hr, hbehind⟩ := hreach.of_cons
    simp only [readEscape, hr, readCodepoint_of_numeral h hbehind, Except.map]

/-- Behind these letters there is the number of a character, or the escape is refused. -/
theorem readEscape_numeric_cases (origin : Nat) (hr : cur.rest = k :: text)
    (hk : k = 'x' ∨ k = 'u') :
    (∃ body c after, NumericEscape body c ∧ cur.Reaches body after ∧
        readEscape origin cur = (.ok (.char c), after)) ∨
      (readEscape origin cur).1 = .error ⟨origin, .invalidCodepoint⟩ := by
  have hpast := Cursor.reaches_past hr
  rcases hk with rfl | rfl
  · rcases hpair : readHexPair origin (cur.past 'x' text) with ⟨err | c, after⟩
    · right
      simp [readEscape, hr, hpair, Except.map, error_of_readHexPair (congrArg Prod.fst hpair)]
    · obtain ⟨x, y, high, low, hx, hy, hc, hreach⟩ := digits_of_readHexPair hpair
      refine .inl ⟨_, c, after, .pair hx hy hc, hpast.trans hreach, ?_⟩
      simp [readEscape, hr, hpair, Except.map]
  · rcases hcode : readCodepoint origin (cur.past 'u' text) with ⟨err | c, after⟩
    · right
      simp [readEscape, hr, hcode, Except.map, error_of_readCodepoint (congrArg Prod.fst hcode)]
    · obtain ⟨rest, hbrace, hread⟩ := brace_of_readCodepoint hcode
      obtain ⟨digits, hnumeral, hreach⟩ := numeral_of_readHexBraced hread .nothing
      refine .inl ⟨_, c, after, .braced hnumeral, ?_, ?_⟩
      · exact (hpast.trans (Cursor.reaches_past hbrace)).trans hreach
      · simp [readEscape, hr, hcode, Except.map]

end

/-! ## Where escapes stand -/

namespace Scanner
variable {s : Scanner} {d after : Cursor} {read text rest : List Char} {part : ItemPart}
  {ranges : List CharRange} {err : LexError} {c k : Char}

end Scanner

end PatternAutomata
