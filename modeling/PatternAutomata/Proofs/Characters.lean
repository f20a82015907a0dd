import PatternAutomata.Proofs.Parser.Checked

/-!
# Characters and their forms

An encoding writes every character up to its last one, and no other. The automaton for any single
character accepts these forms and nothing else. No form is the beginning of another one, so a row of
forms falls apart in one way only, and texts that differ are written differently.
-/
namespace PatternAutomata
open Automaton (emptyText wellFormed_emptyText)

namespace Encoding
variable {e : Encoding} {c d : Char} {u v : List UInt8} {s t : List Char}

/-! ## Single characters -/

/-- The forms of characters. A single byte is the number of its character; beyond ASCII, Latin-1
goes as far as a byte does. UTF-8 has the form that strings are kept in. -/
inductive Writes : Encoding → Char → List UInt8 → Prop
  | ascii {c : Char} (h : c.toNat < 0x80) : Writes .ascii c [UInt8.ofNat c.toNat]
  | latin1 {c : Char} (h : c.toNat < 0x100) : Writes .latin1 c [UInt8.ofNat c.toNat]
  | utf8 (c : Char) : Writes .utf8 c (String.utf8EncodeChar c)

theorem le_iff_toNat_lt {last : Char} {n : Nat} (h : last.toNat + 1 = n) :
    c ≤ last ↔ c.toNat < n := by
  change c.toNat ≤ last.toNat ↔ _
  omega

theorem encode?_eq_some_iff : e.encode? c = some u ↔ e.Writes c u := by
  unfold encode?
  rw [Option.ite_none_right_eq_some]
  cases e with
  | ascii =>
    rw [le_iff_toNat_lt (n := 0x80) rfl, Option.some.injEq]
    constructor
    · rintro ⟨h, rfl⟩
      exact .ascii h
    · intro h
      cases h with
      | ascii h => exact ⟨h, rfl⟩
  | latin1 =>
    rw [le_iff_toNat_lt (n := 0x100) rfl, Option.some.injEq]
    constructor
    · rintro ⟨h, rfl⟩
      exact .latin1 h
    · intro h
      cases h with
      | latin1 h => exact ⟨h, rfl⟩
  | utf8 =>
    rw [Option.some.injEq, utf8Bytes_eq]
    constructor
    · rintro ⟨-, rfl⟩
      exact .utf8 c
    · intro h
      cases h with
      | utf8 => exact ⟨le_lastChar_utf8 c, rfl⟩

end Encoding

/-- Behind the empty text, the automaton for any single character accepts the form of each character
that has one, and nothing else. The characters that have one are those up to the last one. -/
theorem accepts_appendCharacter (e : Encoding) :
    emptyText.joinCharacter? e = some (emptyText.appendCharacter e) ∧
      (∀ w, (emptyText.appendCharacter e).accepts? w =
          some ((emptyText.appendCharacter e).accepts w) ∧
        ((emptyText.appendCharacter e).accepts w = true ↔ ∃ c, e.encode? c = some w)) ∧
      (∀ c w, e.encode? c = some w ↔ e.Writes c w) ∧
      ∀ c, (∃ w, e.encode? c = some w) ↔ c ≤ e.lastChar := by
  have hwf := wellFormed_emptyText.appendCharacter e
  refine ⟨Automaton.joinCharacter?_eq wellFormed_emptyText e, fun w => ⟨?_, ?_⟩,
    fun c w => Encoding.encode?_eq_some_iff, fun c => ?_⟩
  · exact Automaton.accepts?_eq hwf w
  · rw [Automaton.accepts_iff, Automaton.meaning_appendCharacter wellFormed_emptyText,
      Automaton.meaning_emptyText, Meaning.empty_seq]
    rfl
  · rw [← Option.isSome_iff_exists, Encoding.isSome_encode?_iff]

/-- Overlong forms, surrogates, numbers past the last character and pieces of a form are refused. -/
example : ([[0xC0, 0x80], [0xED, 0xA0, 0x80], [0xF4, 0x90, 0x80, 0x80], [0xE2, 0x82]].all fun w =>
    !(emptyText.appendCharacter .utf8).accepts w) = true := by decide +kernel

/-! ## Rows of characters -/

namespace Encoding
variable {e : Encoding} {c d : Char} {u v : List UInt8} {s t : List Char}

/-- No form is the beginning of another one. -/
theorem eq_of_isPrefix (hc : e.encode? c = some u) (hd : e.encode? d = some v) (h : u <+: v) :
    c = d := by
  obtain ⟨x, hx⟩ := h
  exact eq_of_encode?_append (x := x) (y := []) hc hd (by rw [hx, List.append_nil])

/-- The bytes of a text begin those of another one only where the text begins the other one. -/
theorem isPrefix_iff_of_encodeAll? (hs : e.encodeAll? s = some u) (ht : e.encodeAll? t = some v) :
    u <+: v ↔ s <+: t := by
  constructor
  · intro h
    induction s generalizing t u v with
    | nil => exact List.nil_prefix
    | cons c s ih =>
      obtain ⟨u₁, u₂, hc, hs', rfl⟩ := encodeAll?_cons_eq_some.mp hs
      obtain ⟨x, rfl⟩ := h
      cases t with
      | nil =>
        have hnil := (Option.some.inj ht).symm
        rw [List.append_assoc] at hnil
        exact absurd (List.append_eq_nil_iff.mp hnil).1 (encode?_ne_nil hc)
      | cons d t =>
        obtain ⟨v₁, v₂, hd, ht', hv⟩ := encodeAll?_cons_eq_some.mp ht
        rw [List.append_assoc] at hv
        obtain rfl := eq_of_encode?_append hd hc hv
        obtain rfl := Option.some.inj (hd.symm.trans hc)
        obtain rfl := List.append_cancel_left hv
        exact List.cons_prefix_cons.mpr ⟨rfl, ih hs' ht' (List.prefix_append u₂ x)⟩
  · rintro ⟨more, rfl⟩
    obtain ⟨u', w, hs', -, rfl⟩ := encodeAll?_append_eq_some.mp ht
    obtain rfl := Option.some.inj (hs.symm.trans hs')
    exact List.prefix_append u w

end Encoding

namespace Texts

/-- The texts that the encoding can write. -/
def writable (texts : Texts) (e : Encoding) : Texts :=
  texts.filter fun text => (e.encodeAll? text).isSome

theorem mem_writable {texts : Texts} {e : Encoding} {text : List Char} :
    text ∈ texts.writable e ↔ text ∈ texts ∧ ∃ w, e.encodeAll? text = some w := by
  simp [writable, Option.isSome_iff_exists]

/-- No two texts share their bytes, so there are as many byte strings as texts that can be
written. -/
theorem size_encode (texts : Texts) (e : Encoding) :
    (texts.encode e).size = (texts.writable e).size := by
  have hdistinct :
      (texts.toList.filterMap e.encodeAll?).Pairwise fun u v => ¬ compare u v = .eq := by
    rw [List.pairwise_filterMap]
    refine Std.ExtTreeSet.distinct_toList.imp fun hne u hu v hv huv => hne ?_
    obtain rfl := Std.LawfulEqCmp.compare_eq_iff_eq.mp huv
    exact Std.LawfulEqCmp.compare_eq_iff_eq.mpr (Encoding.eq_of_encodeAll? hu hv)
  unfold encode writable
  rw [Std.ExtTreeSet.size_ofList hdistinct, ← Std.ExtTreeSet.length_toList,
    Std.ExtTreeSet.toList_filter, List.length_filterMap_eq_countP, List.countP_eq_length_filter]

end Texts

/-- Rows of characters with forms are told apart by their bytes, down to the row that another one
begins with, and no form begins that of another character. So texts behind an automaton never share
their bytes: each text that can be written adds a byte string, and what is accepted comes from one
text alone. -/
theorem Encoding.uniquely_decodable (e : Encoding) :
    (∀ s t p q, List.Forall₂ (fun c piece => e.encode? c = some piece) s p →
      List.Forall₂ (fun c piece => e.encode? c = some piece) t q →
      e.encodeAll? s = some p.flatten ∧ e.encodeAll? t = some q.flatten ∧
        (p.flatten = q.flatten ↔ s = t) ∧ (p.flatten <+: q.flatten ↔ s <+: t)) ∧
      (∀ c d u v, e.encode? c = some u → e.encode? d = some v → (u <+: v ↔ c = d)) ∧
      ∀ texts : Texts, (texts.encode e).size = (texts.writable e).size ∧
        ∀ w, (emptyText.appendTexts texts e).accepts w = true ↔
          ∃! text, text ∈ texts.writable e ∧ e.encodeAll? text = some w := by
  refine ⟨fun s t p q hp hq => ?_, fun c d u v hc hd => ⟨eq_of_isPrefix hc hd, ?_⟩,
    fun texts => ⟨texts.size_encode e, fun w => ?_⟩⟩
  · have hs := encodeAll?_eq_some_iff.mpr ⟨p, hp, rfl⟩
    have ht := encodeAll?_eq_some_iff.mpr ⟨q, hq, rfl⟩
    refine ⟨hs, ht, ⟨fun heq => eq_of_encodeAll? hs (heq ▸ ht), ?_⟩,
      isPrefix_iff_of_encodeAll? hs ht⟩
    rintro rfl
    exact Option.some.inj (hs.symm.trans ht)
  · rintro rfl
    obtain rfl := Option.some.inj (hc.symm.trans hd)
    exact List.prefix_rfl
  · rw [Automaton.accepts_iff, Automaton.meaning_appendTexts wellFormed_emptyText,
      Automaton.meaning_emptyText, Meaning.empty_seq]
    constructor
    · rintro ⟨text, htext, hw⟩
      refine ⟨text, ⟨Texts.mem_writable.mpr ⟨htext, w, hw⟩, hw⟩, ?_⟩
      rintro other ⟨-, hother⟩
      exact eq_of_encodeAll? hother hw
    · rintro ⟨text, ⟨htext, hw⟩, -⟩
      exact ⟨text, (Texts.mem_writable.mp htext).1, hw⟩

/-- Forms of one, two, three and four bytes, and a text that begins another one. -/
theorem Encoding.uniquely_decodable_clef :
    List.Forall₂ (fun c piece => utf8.encode? c = some piece) ['é', '€']
      [[0xC3, 0xA9], [0xE2, 0x82, 0xAC]] ∧
    List.Forall₂ (fun c piece => utf8.encode? c = some piece) ['é', '€', 'a', '𝄞']
      [[0xC3, 0xA9], [0xE2, 0x82, 0xAC], [0x61], [0xF0, 0x9D, 0x84, 0x9E]] ∧
    (([0xC3, 0xA9, 0xE2, 0x82, 0xAC] : List UInt8) <+:
        [0xC3, 0xA9, 0xE2, 0x82, 0xAC, 0x61, 0xF0, 0x9D, 0x84, 0x9E] ↔
      ['é', '€'] <+: ['é', '€', 'a', '𝄞']) ∧
    utf8.encode? 'é' = some [0xC3, 0xA9] ∧ utf8.encode? 'è' = some [0xC3, 0xA8] ∧
    (([0xC3, 0xA9] : List UInt8) <+: [0xC3, 0xA8] ↔ 'é' = 'è') := by
  have hs : List.Forall₂ (fun c piece => utf8.encode? c = some piece) ['é', '€']
      [[0xC3, 0xA9], [0xE2, 0x82, 0xAC]] := by
    simp only [List.forall₂_cons, List.Forall₂.nil]
    decide
  have ht : List.Forall₂ (fun c piece => utf8.encode? c = some piece) ['é', '€', 'a', '𝄞']
      [[0xC3, 0xA9], [0xE2, 0x82, 0xAC], [0x61], [0xF0, 0x9D, 0x84, 0x9E]] := by
    simp only [List.forall₂_cons, List.Forall₂.nil]
    decide
  have hc : utf8.encode? 'é' = some [0xC3, 0xA9] := by decide
  have hd : utf8.encode? 'è' = some [0xC3, 0xA8] := by decide
  obtain ⟨hrows, hcharacters, -⟩ := uniquely_decodable utf8
  exact ⟨hs, ht, (hrows _ _ _ _ hs ht).2.2.2, hc, hd, hcharacters _ _ _ _ hc hd⟩

end PatternAutomata
