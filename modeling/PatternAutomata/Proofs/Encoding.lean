import PatternAutomata.Encoding
import PatternAutomata.Proofs.Automaton.Literal

/-!
# Characters as bytes

The byte ranges of an encoding describe exactly the byte strings of its characters. No such string
is the beginning of another one, so the bytes of a text tell the text.
-/
namespace PatternAutomata.Encoding
open Automaton (Fits fits_nil fits_cons)

/-- The numbers of the bytes of a character in UTF-8. -/
def utf8Numbers (n : Nat) : List Nat :=
  if n < 0x80 then [n]
  else if n < 0x800 then [0xC0 + n / 64, 0x80 + n % 64]
  else if n < 0x10000 then [0xE0 + n / 4096, 0x80 + n / 64 % 64, 0x80 + n % 64]
  else [0xF0 + n / 262144, 0x80 + n / 4096 % 64, 0x80 + n / 64 % 64, 0x80 + n % 64]

theorem toNat_lt (c : Char) : c.toNat < 0x110000 := by
  rcases c.valid with h | h
  · exact Nat.lt_trans h (by decide)
  · exact h.2

theorem map_toNat_utf8Bytes (c : Char) : (utf8Bytes c).map UInt8.toNat = utf8Numbers c.toNat := by
  have hc := toNat_lt c
  unfold utf8Bytes utf8Numbers
  dsimp only
  split
  · simp; omega
  · split
    · simp; omega
    · split
      · simp; omega
      · simp; omega

/-- No character begins with the bytes of another one. -/
theorem eq_of_utf8Numbers_append {m n : Nat} {x y : List Nat} (hm : m < 0x110000)
    (hn : n < 0x110000) (h : utf8Numbers m ++ x = utf8Numbers n ++ y) : m = n := by
  unfold utf8Numbers at h
  -- the first byte tells how many there are
  repeat' split at h
  all_goals
    simp only [List.cons_append, List.nil_append, List.cons.injEq] at h
    omega

/-- A scalar value. -/
theorem exists_char {n : Nat} (h : n < 0xD800 ∨ 0xDFFF < n ∧ n < 0x110000) :
    ∃ c : Char, c.toNat = n :=
  ⟨Char.ofNatAux n h, rfl⟩

/-- Whether the numbers of some bytes lie in the given ranges. -/
def NumbersFit (ranges : List (UInt8 × UInt8)) (ns : List Nat) : Prop :=
  List.Forall₂ (fun r n => r.1.toNat ≤ n ∧ n ≤ r.2.toNat) ranges ns

theorem fits_iff_numbersFit {ranges : List (UInt8 × UInt8)} {w : List UInt8} :
    Fits ranges w ↔ NumbersFit ranges (w.map UInt8.toNat) := by
  unfold Fits NumbersFit
  rw [List.forall₂_map_right_iff]
  simp only [Label.reads_bytes, UInt8.le_iff_toNat_le]

section
variable {a b c d : Nat}

theorem utf8Numbers_two (ha : 0xC2 ≤ a ∧ a ≤ 0xDF) (hb : 0x80 ≤ b ∧ b ≤ 0xBF) :
    utf8Numbers ((a - 0xC0) * 64 + (b - 0x80)) = [a, b] := by
  unfold utf8Numbers
  rw [if_neg (by omega), if_pos (by omega)]
  simp only [List.cons.injEq, and_true]
  omega

theorem utf8Numbers_three (ha : 0xE0 ≤ a ∧ a ≤ 0xEF) (hb : 0x80 ≤ b ∧ b ≤ 0xBF)
    (hc : 0x80 ≤ c ∧ c ≤ 0xBF) (hlow : a = 0xE0 → 0xA0 ≤ b) :
    utf8Numbers ((a - 0xE0) * 4096 + (b - 0x80) * 64 + (c - 0x80)) = [a, b, c] := by
  unfold utf8Numbers
  rw [if_neg (by omega), if_neg (by omega), if_pos (by omega)]
  simp only [List.cons.injEq, and_true]
  omega

theorem utf8Numbers_four (ha : 0xF0 ≤ a ∧ a ≤ 0xF4) (hb : 0x80 ≤ b ∧ b ≤ 0xBF)
    (hc : 0x80 ≤ c ∧ c ≤ 0xBF) (hd : 0x80 ≤ d ∧ d ≤ 0xBF) (hlow : a = 0xF0 → 0x90 ≤ b) :
    utf8Numbers ((a - 0xF0) * 262144 + (b - 0x80) * 4096 + (c - 0x80) * 64 + (d - 0x80)) =
      [a, b, c, d] := by
  unfold utf8Numbers
  rw [if_neg (by omega), if_neg (by omega), if_neg (by omega)]
  simp only [List.cons.injEq, and_true]
  omega

end

/-- Ranges that numbers fit give a scalar value of these numbers. -/
theorem exists_scalar_of_numbersFit {ranges : List (UInt8 × UInt8)} {ns : List Nat}
    (hr : ranges ∈ utf8.characterRanges) (h : NumbersFit ranges ns) :
    ∃ n, (n < 0xD800 ∨ 0xDFFF < n ∧ n < 0x110000) ∧ ns = utf8Numbers n := by
  unfold NumbersFit at h
  simp only [characterRanges, List.mem_cons, List.not_mem_nil, or_false] at hr
  rcases hr with rfl | rfl | rfl | rfl | rfl | rfl | rfl | rfl | rfl
  all_goals
    simp only [List.forall₂_cons_left_iff, List.forall₂_nil_left_iff] at h
  · obtain ⟨a, _, ha, rfl, rfl⟩ := h
    simp only [UInt8.reduceToNat] at ha
    exact ⟨a, by omega, by simp [utf8Numbers]; omega⟩
  · obtain ⟨a, _, ha, ⟨b, _, hb, rfl, rfl⟩, rfl⟩ := h
    simp only [UInt8.reduceToNat] at ha hb
    exact ⟨_, by omega, (utf8Numbers_two ha hb).symm⟩
  iterate 4
    obtain ⟨a, _, ha, ⟨b, _, hb, ⟨c, _, hc, rfl, rfl⟩, rfl⟩, rfl⟩ := h
    simp only [UInt8.reduceToNat] at ha hb hc
    exact ⟨_, by omega, (utf8Numbers_three (by omega) (by omega) hc (by omega)).symm⟩
  all_goals
    obtain ⟨a, _, ha, ⟨b, _, hb, ⟨c, _, hc, ⟨d, _, hd, rfl, rfl⟩, rfl⟩, rfl⟩, rfl⟩ := h
    simp only [UInt8.reduceToNat] at ha hb hc hd
    exact ⟨_, by omega, (utf8Numbers_four (by omega) (by omega) hc hd (by omega)).symm⟩

/-- The numbers of a scalar value fit some ranges. -/
theorem numbersFit_utf8Numbers {n : Nat} (h : n < 0xD800 ∨ 0xDFFF < n ∧ n < 0x110000) :
    ∃ ranges ∈ utf8.characterRanges, NumbersFit ranges (utf8Numbers n) := by
  let tail : UInt8 × UInt8 := (0x80, 0xBF)
  unfold utf8Numbers
  split
  · refine ⟨[(0x00, 0x7F)], by simp [characterRanges], ?_⟩
    simp [NumbersFit]; omega
  split
  · refine ⟨[(0xC2, 0xDF), tail], by simp [characterRanges, tail], ?_⟩
    simp [NumbersFit, tail]; omega
  split
  · by_cases h₁ : n < 0x1000
    · refine ⟨[(0xE0, 0xE0), (0xA0, 0xBF), tail], by simp [characterRanges, tail], ?_⟩
      simp [NumbersFit, tail]; omega
    by_cases h₂ : n < 0xD000
    · refine ⟨[(0xE1, 0xEC), tail, tail], by simp [characterRanges, tail], ?_⟩
      simp [NumbersFit, tail]; omega
    by_cases h₃ : n < 0xD800
    · refine ⟨[(0xED, 0xED), (0x80, 0x9F), tail], by simp [characterRanges, tail], ?_⟩
      simp [NumbersFit, tail]; omega
    · refine ⟨[(0xEE, 0xEF), tail, tail], by simp [characterRanges, tail], ?_⟩
      simp [NumbersFit, tail]; omega
  · by_cases h₁ : n < 0x40000
    · refine ⟨[(0xF0, 0xF0), (0x90, 0xBF), tail, tail], by simp [characterRanges, tail], ?_⟩
      simp [NumbersFit, tail]; omega
    by_cases h₂ : n < 0x100000
    · refine ⟨[(0xF1, 0xF3), tail, tail, tail], by simp [characterRanges, tail], ?_⟩
      simp [NumbersFit, tail]; omega
    · refine ⟨[(0xF4, 0xF4), (0x80, 0x8F), tail, tail], by simp [characterRanges, tail], ?_⟩
      simp [NumbersFit, tail]; omega

/-- The numbers of bytes that UTF-8 ranges admit are those of a scalar value. -/
theorem fits_utf8_iff {w : List UInt8} : (∃ ranges ∈ utf8.characterRanges, Fits ranges w) ↔
    ∃ n, (n < 0xD800 ∨ 0xDFFF < n ∧ n < 0x110000) ∧ w.map UInt8.toNat = utf8Numbers n := by
  simp only [fits_iff_numbersFit]
  constructor
  · rintro ⟨ranges, hr, h⟩
    exact exists_scalar_of_numbersFit hr h
  · rintro ⟨n, hn, hw⟩
    rw [hw]
    exact numbersFit_utf8Numbers hn

theorem utf8Bytes_eq_iff {c : Char} {w : List UInt8} :
    utf8Bytes c = w ↔ w.map UInt8.toNat = utf8Numbers c.toNat := by
  rw [← map_toNat_utf8Bytes]
  constructor
  · rintro rfl
    rfl
  · intro h
    exact (List.map_injective_iff.mpr (fun _ _ => UInt8.toNat_inj.mp) h).symm

theorem le_lastChar_utf8 (c : Char) : c ≤ utf8.lastChar := by
  have := toNat_lt c
  change c.toNat ≤ 0x10FFFF
  omega

/-- One range of bytes stands for as many characters from the first one on. -/
theorem fits_one_range (last : Char) (hlast : last.toNat < 256) (w : List UInt8) :
    Fits [(0x00, UInt8.ofNat last.toNat)] w ↔ ∃ c ≤ last, [UInt8.ofNat c.toNat] = w := by
  have hbyte {n : Nat} (h : n ≤ last.toNat) : (UInt8.ofNat n).toNat = n := by
    rw [UInt8.toNat_ofNat']
    exact Nat.mod_eq_of_lt (Nat.lt_of_le_of_lt h hlast)
  rw [fits_cons]
  simp only [fits_nil, Label.reads_bytes, UInt8.le_iff_toNat_le, hbyte (Nat.le_refl _)]
  constructor
  · rintro ⟨b, _, rfl, ⟨-, hb⟩, rfl⟩
    obtain ⟨c, hc⟩ := exists_char (n := b.toNat) (by omega)
    refine ⟨c, ?_, by rw [hc, UInt8.ofNat_toNat]⟩
    change c.toNat ≤ last.toNat
    omega
  · rintro ⟨c, hc, rfl⟩
    have hc : c.toNat ≤ last.toNat := hc
    exact ⟨_, _, rfl, ⟨Nat.zero_le _, by rw [hbyte hc]; exact hc⟩, rfl⟩

/-- The byte ranges of an encoding describe its characters. -/
theorem fits_characterRanges (e : Encoding) (w : List UInt8) :
    (∃ ranges ∈ e.characterRanges, Fits ranges w) ↔ ∃ c, e.encode? c = some w := by
  cases e with
  | ascii =>
    simp only [characterRanges, List.mem_singleton, exists_eq_left, encode?,
      Option.ite_none_right_eq_some, Option.some.injEq]
    exact fits_one_range ascii.lastChar (by decide) w
  | latin1 =>
    simp only [characterRanges, List.mem_singleton, exists_eq_left, encode?,
      Option.ite_none_right_eq_some, Option.some.injEq]
    exact fits_one_range latin1.lastChar (by decide) w
  | utf8 =>
    rw [fits_utf8_iff]
    simp only [encode?, le_lastChar_utf8, if_true, Option.some.injEq, utf8Bytes_eq_iff]
    constructor
    · rintro ⟨n, hn, hw⟩
      obtain ⟨c, rfl⟩ := exists_char hn
      exact ⟨c, hw⟩
    · rintro ⟨c, hw⟩
      exact ⟨c.toNat, c.valid, hw⟩

/-! ## Texts -/

variable {e : Encoding} {c d : Char} {u v x y : List UInt8} {text : List Char}

theorem eq_of_byte_append {last : Char} (hlast : last.toNat < 256) (hc : c ≤ last) (hd : d ≤ last)
    (h : [UInt8.ofNat c.toNat] ++ x = [UInt8.ofNat d.toNat] ++ y) : c = d := by
  have hc : c.toNat ≤ last.toNat := hc
  have hd : d.toNat ≤ last.toNat := hd
  have hbyte := congrArg UInt8.toNat (List.cons.inj h).1
  rw [UInt8.toNat_ofNat', UInt8.toNat_ofNat'] at hbyte
  exact Char.toNat_inj.mp (by omega)

/-- No character's bytes begin with those of another one. -/
theorem eq_of_encode?_append (hc : e.encode? c = some u) (hd : e.encode? d = some v)
    (h : u ++ x = v ++ y) : c = d := by
  unfold encode? at hc hd
  rw [Option.ite_none_right_eq_some] at hc hd
  obtain ⟨hlast, hu⟩ := hc
  obtain ⟨hlast', hv⟩ := hd
  cases e with
  | ascii =>
    obtain rfl := Option.some.inj hu
    obtain rfl := Option.some.inj hv
    exact eq_of_byte_append (by decide) hlast hlast' h
  | latin1 =>
    obtain rfl := Option.some.inj hu
    obtain rfl := Option.some.inj hv
    exact eq_of_byte_append (by decide) hlast hlast' h
  | utf8 =>
    obtain rfl := Option.some.inj hu
    obtain rfl := Option.some.inj hv
    have hnumbers := congrArg (List.map UInt8.toNat) h
    rw [List.map_append, List.map_append, map_toNat_utf8Bytes, map_toNat_utf8Bytes] at hnumbers
    exact Char.toNat_inj.mp (eq_of_utf8Numbers_append (toNat_lt c) (toNat_lt d) hnumbers)

/-- Every character up to the last one can be written, and no other. -/
theorem isSome_encode?_iff : (e.encode? c).isSome = true ↔ c ≤ e.lastChar := by
  unfold encode?
  split
  · next hlast => exact iff_of_true (by cases e <;> rfl) hlast
  · next hlast => exact iff_of_false Bool.noConfusion hlast

theorem encode?_ne_nil (hc : e.encode? c = some u) : u ≠ [] := by
  have hutf8 : utf8Bytes c ≠ [] := by
    unfold utf8Bytes
    dsimp only
    repeat' split
    all_goals simp
  unfold encode? at hc
  rw [Option.ite_none_right_eq_some] at hc
  obtain ⟨-, hu⟩ := hc
  cases e with
  | ascii => exact Option.some.inj hu ▸ List.cons_ne_nil _ _
  | latin1 => exact Option.some.inj hu ▸ List.cons_ne_nil _ _
  | utf8 => exact Option.some.inj hu ▸ hutf8

theorem encodeAll?_cons_eq_some :
    e.encodeAll? (c :: text) = some u ↔
      ∃ v w, e.encode? c = some v ∧ e.encodeAll? text = some w ∧ v ++ w = u := by
  simp only [encodeAll?]
  cases e.encode? c <;> cases e.encodeAll? text <;> simp

theorem encodeAll?_singleton (e : Encoding) (c : Char) : e.encodeAll? [c] = e.encode? c := by
  simp only [encodeAll?]
  cases e.encode? c <;> simp

/-- The bytes of a character are those of no other text. -/
theorem eq_singleton_of_encodeAll? (hc : e.encode? c = some u) (h : e.encodeAll? text = some u) :
    text = [c] := by
  cases text with
  | nil =>
    obtain rfl := Option.some.inj h
    exact absurd rfl (encode?_ne_nil hc)
  | cons d text =>
    obtain ⟨v, w, hd, hw, rfl⟩ := encodeAll?_cons_eq_some.mp h
    obtain rfl := eq_of_encode?_append (x := []) hc hd (List.append_nil _)
    have hrest : w = [] := by
      rw [hc] at hd
      simpa using Option.some.inj hd
    subst hrest
    cases text with
    | nil => rfl
    | cons d' text =>
      obtain ⟨v', w', hd', -, hv'⟩ := encodeAll?_cons_eq_some.mp hw
      exact absurd (List.append_eq_nil_iff.mp hv').1 (encode?_ne_nil hd')

/-- The bytes of a text are those of its parts. -/
theorem encodeAll?_append_eq_some {more : List Char} :
    e.encodeAll? (text ++ more) = some u ↔
      ∃ v w, e.encodeAll? text = some v ∧ e.encodeAll? more = some w ∧ v ++ w = u := by
  induction text generalizing u with
  | nil => simp [encodeAll?]
  | cons c text ih =>
    simp only [List.cons_append, encodeAll?_cons_eq_some, ih]
    constructor
    · rintro ⟨v, _, hc, ⟨w, x, hw, hx, rfl⟩, rfl⟩
      exact ⟨v ++ w, x, ⟨v, w, hc, hw, rfl⟩, hx, List.append_assoc v w x⟩
    · rintro ⟨_, x, ⟨v, w, hc, hw, rfl⟩, hx, rfl⟩
      exact ⟨v, w ++ x, hc, ⟨w, x, hw, hx, rfl⟩, (List.append_assoc v w x).symm⟩

/-- The bytes of a text tell the text. -/
theorem eq_of_encodeAll? {other : List Char} (h : e.encodeAll? text = some u)
    (h' : e.encodeAll? other = some u) : text = other := by
  induction text generalizing other u with
  | nil =>
    obtain rfl := Option.some.inj h
    cases other with
    | nil => rfl
    | cons d other =>
      obtain ⟨v, w, hd, -, hnil⟩ := encodeAll?_cons_eq_some.mp h'
      exact absurd (List.append_eq_nil_iff.mp hnil).1 (encode?_ne_nil hd)
  | cons c text ih =>
    obtain ⟨v, w, hc, hw, rfl⟩ := encodeAll?_cons_eq_some.mp h
    cases other with
    | nil =>
      have hnil := (Option.some.inj h').symm
      exact absurd (List.append_eq_nil_iff.mp hnil).1 (encode?_ne_nil hc)
    | cons d other =>
      obtain ⟨v', w', hd, hw', happend⟩ := encodeAll?_cons_eq_some.mp h'
      obtain rfl := eq_of_encode?_append hc hd happend.symm
      obtain rfl := Option.some.inj (hc.symm.trans hd)
      obtain rfl := List.append_cancel_left happend
      rw [ih hw hw']

/-- Only the empty text has no bytes. -/
theorem isEmpty_of_encodeAll? (h : e.encodeAll? text = some u) : u.isEmpty = text.isEmpty := by
  cases text with
  | nil =>
    obtain rfl := Option.some.inj h
    rfl
  | cons c text =>
    obtain ⟨v, w, hc, -, rfl⟩ := encodeAll?_cons_eq_some.mp h
    obtain ⟨x, v, rfl⟩ := List.exists_cons_of_ne_nil (encode?_ne_nil hc)
    rfl

/-- A text has no bytes at all if one of its characters has none. -/
theorem encodeAll?_eq_none_iff : e.encodeAll? text = none ↔ ∃ c ∈ text, e.encode? c = none := by
  induction text with
  | nil => simp [encodeAll?]
  | cons c text ih =>
    simp only [List.exists_mem_cons_iff, ← ih, encodeAll?]
    cases e.encode? c <;> cases e.encodeAll? text <;> simp

/-- The bytes of a text are those of its characters in a row. -/
theorem encodeAll?_eq_some_iff : e.encodeAll? text = some u ↔
    ∃ pieces, List.Forall₂ (fun c piece => e.encode? c = some piece) text pieces ∧
      u = pieces.flatten := by
  induction text generalizing u with
  | nil => simp [encodeAll?, eq_comm]
  | cons c text ih =>
    simp only [encodeAll?_cons_eq_some, ih, List.forall₂_cons_left_iff]
    constructor
    · rintro ⟨v, _, hc, ⟨pieces, hpieces, rfl⟩, rfl⟩
      exact ⟨v :: pieces, ⟨v, pieces, hc, hpieces, rfl⟩, rfl⟩
    · rintro ⟨_, ⟨v, pieces, hc, hpieces, rfl⟩, rfl⟩
      exact ⟨v, pieces.flatten, hc, ⟨pieces, hpieces, rfl⟩, rfl⟩

/-- Where each character has one of some bytes, the text has these bytes only. -/
theorem forall_mem_of_encodeAll? {P : UInt8 → Prop}
    (hP : ∀ c v, e.encode? c = some v → ∀ b ∈ v, P b) (h : e.encodeAll? text = some u) :
    ∀ b ∈ u, P b := by
  induction text generalizing u with
  | nil =>
    obtain rfl := Option.some.inj h
    simp
  | cons c text ih =>
    obtain ⟨v, w, hc, hw, rfl⟩ := encodeAll?_cons_eq_some.mp h
    intro b hb
    rcases List.mem_append.mp hb with hb | hb
    · exact hP c v hc b hb
    · exact ih hw b hb

theorem encode?_ascii (h : ascii.encode? c = some u) : ∀ b ∈ u, b < 0x80 := by
  unfold encode? at h
  rw [Option.ite_none_right_eq_some] at h
  obtain ⟨hc, hu⟩ := h
  obtain rfl := Option.some.inj hu
  have hc : c.toNat ≤ 0x7F := hc
  intro b hb
  obtain rfl := List.mem_singleton.mp hb
  rw [UInt8.lt_iff_toNat_lt, UInt8.toNat_ofNat']
  change c.toNat % 2 ^ 8 < 0x80
  omega

/-- The bytes of a character in UTF-8 are those that a string holds for it. -/
theorem utf8Bytes_eq (c : Char) : utf8Bytes c = String.utf8EncodeChar c := by
  have hc := toNat_lt c
  have hval : c.val.toNat = c.toNat := rfl
  unfold utf8Bytes String.utf8EncodeChar
  simp only [hval]
  by_cases h₁ : c.toNat < 0x80
  · rw [if_pos h₁, if_pos (show c.toNat ≤ 127 by omega)]
  rw [if_neg h₁, if_neg (show ¬ c.toNat ≤ 127 by omega)]
  by_cases h₂ : c.toNat < 0x800
  · rw [if_pos h₂, if_pos (show c.toNat ≤ 2047 by omega)]
    simp only [List.cons.injEq, and_true]
    refine ⟨congrArg UInt8.ofNat ?_, congrArg UInt8.ofNat ?_⟩ <;> omega
  rw [if_neg h₂, if_neg (show ¬ c.toNat ≤ 2047 by omega)]
  by_cases h₃ : c.toNat < 0x10000
  · rw [if_pos h₃, if_pos (show c.toNat ≤ 65535 by omega)]
    simp only [List.cons.injEq, and_true]
    refine ⟨congrArg UInt8.ofNat ?_, congrArg UInt8.ofNat ?_, congrArg UInt8.ofNat ?_⟩ <;> omega
  · rw [if_neg h₃, if_neg (show ¬ c.toNat ≤ 65535 by omega)]
    simp only [List.cons.injEq, and_true]
    refine ⟨congrArg UInt8.ofNat ?_, congrArg UInt8.ofNat ?_, congrArg UInt8.ofNat ?_,
      congrArg UInt8.ofNat ?_⟩ <;> omega

theorem toByteArray_of_encodeAll? (h : utf8.encodeAll? text = some u) :
    u.toByteArray = text.utf8Encode := by
  suffices hu : u = text.flatMap String.utf8EncodeChar by rw [hu, List.utf8Encode]
  induction text generalizing u with
  | nil => exact (Option.some.inj h).symm
  | cons c text ih =>
    obtain ⟨v, w, hc, hw, rfl⟩ := encodeAll?_cons_eq_some.mp h
    rw [List.flatMap_cons, ← ih hw, ← utf8Bytes_eq]
    simp only [encode?, le_lastChar_utf8, if_true, Option.some.injEq] at hc
    rw [hc]

/-! ## ASCII -/

/-- An ASCII character is one byte, and the same one in every encoding. -/
theorem encode?_of_lt (e : Encoding) (hc : c.toNat < 0x80) :
    e.encode? c = some [UInt8.ofNat c.toNat] := by
  have hlast : c ≤ e.lastChar := by
    change c.toNat ≤ e.lastChar.toNat
    have hle : 0x7F ≤ e.lastChar.toNat := by cases e <;> decide
    omega
  unfold encode?
  rw [if_pos hlast]
  cases e with
  | ascii => rfl
  | latin1 => rfl
  | utf8 => simp only [utf8Bytes, if_pos hc]

/-- Only ASCII characters are written with bytes below 0x80. -/
theorem lt_of_encode? (h : e.encode? c = some u) (hu : ∀ b ∈ u, b < 0x80) : c.toNat < 0x80 := by
  have hbyte {last : Char} (hlast : last.toNat < 256) (hc : c ≤ last)
      (hb : UInt8.ofNat c.toNat < 0x80) : c.toNat < 0x80 := by
    have hc : c.toNat ≤ last.toNat := hc
    rw [UInt8.lt_iff_toNat_lt, UInt8.toNat_ofNat', Nat.mod_eq_of_lt (by omega)] at hb
    exact hb
  unfold encode? at h
  rw [Option.ite_none_right_eq_some] at h
  obtain ⟨hlast, hbytes⟩ := h
  cases e with
  | ascii =>
    obtain rfl := Option.some.inj hbytes
    exact hbyte (by decide) hlast (hu _ (List.mem_singleton_self _))
  | latin1 =>
    obtain rfl := Option.some.inj hbytes
    exact hbyte (by decide) hlast (hu _ (List.mem_singleton_self _))
  | utf8 =>
    obtain rfl := Option.some.inj hbytes
    have hnumbers : ∀ n ∈ utf8Numbers c.toNat, n < 0x80 := by
      rw [← map_toNat_utf8Bytes]
      intro n hn
      obtain ⟨b, hb, rfl⟩ := List.mem_map.mp hn
      exact UInt8.lt_iff_toNat_lt.mp (hu b hb)
    unfold utf8Numbers at hnumbers
    by_contra hc
    rw [if_neg hc] at hnumbers
    -- the first byte of a longer form is large
    repeat' split at hnumbers
    all_goals
      have := hnumbers _ List.mem_cons_self
      omega

/-- Bytes below 0x80 stand for the same character in every encoding. -/
theorem encode?_congr (e' : Encoding) (hu : ∀ b ∈ u, b < 0x80) :
    e.encode? c = some u ↔ e'.encode? c = some u := by
  have reencode {e : Encoding} (e' : Encoding) (h : e.encode? c = some u) :
      e'.encode? c = some u := by
    have hc := lt_of_encode? h hu
    rw [encode?_of_lt e' hc, ← encode?_of_lt e hc, h]
  exact ⟨reencode e', reencode e⟩

theorem lt_of_encodeAll? (h : e.encodeAll? text = some u) (hu : ∀ b ∈ u, b < 0x80) :
    ∀ c ∈ text, c.toNat < 0x80 := by
  induction text generalizing u with
  | nil => simp
  | cons c text ih =>
    obtain ⟨v, w, hc, hw, rfl⟩ := encodeAll?_cons_eq_some.mp h
    rw [List.forall_mem_append] at hu
    exact List.forall_mem_cons.mpr ⟨lt_of_encode? hc hu.1, ih hw hu.2⟩

theorem encodeAll?_congr (e' : Encoding) (hu : ∀ b ∈ u, b < 0x80) :
    e.encodeAll? text = some u ↔ e'.encodeAll? text = some u := by
  induction text generalizing u with
  | nil => rfl
  | cons c text ih =>
    have hparts {v w : List UInt8} (h : v ++ w = u) : (∀ b ∈ v, b < 0x80) ∧ ∀ b ∈ w, b < 0x80 := by
      rwa [← h, List.forall_mem_append] at hu
    simp only [encodeAll?_cons_eq_some]
    refine exists_congr fun v => exists_congr fun w => ?_
    rw [← and_assoc, ← and_assoc]
    refine and_congr_left fun h => ?_
    rw [encode?_congr e' (hparts h).1, ih (hparts h).2]

end PatternAutomata.Encoding
