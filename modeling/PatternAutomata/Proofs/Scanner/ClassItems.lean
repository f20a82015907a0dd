import PatternAutomata.Proofs.CharClass.Complement
import PatternAutomata.Proofs.Scanner.ClassSize
import PatternAutomata.Proofs.Scanner.Lexeme

/-!
# The items of a class

A class in brackets denotes what its items denote by themselves. There is one exception: when case
is ignored, the complement of the characters of words brings the long s and the sign for kelvins
into a class, and they bring the other spellings of their letters along. Outside of brackets the
shorthand leaves all of these out.
-/
namespace PatternAutomata

open List (Forall₂)

/-! ## Items and how they are written -/

/-- What has a shorthand. -/
inductive Shorthand where
  | digit
  | word
  | space
deriving DecidableEq

namespace Shorthand

/-- The class of a shorthand. -/
def members : Shorthand → CharClass
  | digit => .digit
  | word => .word
  | space => .space

/-- The letter of a shorthand, a capital one for all other characters. -/
def letter : Shorthand → Bool → Char
  | digit, negated => if negated then 'D' else 'd'
  | word, negated => if negated then 'W' else 'w'
  | space, negated => if negated then 'S' else 's'

theorem isShorthand (kind : Shorthand) : kind.members.IsShorthand := by
  cases kind <;> simp [members, CharClass.IsShorthand]

end Shorthand

/-- An item of a class: a character, the characters from one to another, or a shorthand. -/
inductive ClassItem where
  | char (c : Char)
  | range (lo hi : Char) (h : lo ≤ hi)
  | shorthand (kind : Shorthand) (negated : Bool)

/-- The characters that mean something within a class. -/
def classSigns : List Char := ['\\', ']', '-', '^']

/-- How a character is written where `signs` mean something else: by its number, behind a backslash,
or as itself. -/
inductive CharSpelling (signs : List Char) (c : Char) : List Char → Prop
  | codepoint : CharSpelling signs c (codepointSpelling c)
  | escaped (h : isPunctuation c = true) : CharSpelling signs c ['\\', c]
  | plain (h : c ∉ signs) : CharSpelling signs c [c]

namespace ClassItem

/-- The ranges that an item contributes to a class. -/
def ranges (e : Encoding) : ClassItem → List CharRange
  | char c => [⟨c, c⟩]
  | range lo hi _ => [⟨lo, hi⟩]
  | shorthand kind negated => shorthandRanges e kind.members negated

/-- How an item is written within a class. -/
inductive Spelling : ClassItem → List Char → Prop
  | char {c : Char} {t : List Char} (h : CharSpelling classSigns c t) : Spelling (.char c) t
  | range {lo hi : Char} (h : lo ≤ hi) {s t : List Char} (hlo : CharSpelling classSigns lo s)
    (hhi : CharSpelling classSigns hi t) : Spelling (.range lo hi h) (s ++ '-' :: t)
  | shorthand (kind : Shorthand) (negated : Bool) :
    Spelling (.shorthand kind negated) ['\\', kind.letter negated]

/-- How an item is written by itself: a range has brackets of its own. -/
inductive SpellingAlone : ClassItem → List Char → Prop
  | char {c : Char} {t : List Char} (h : CharSpelling metaChars c t) : SpellingAlone (.char c) t
  | range {lo hi : Char} (h : lo ≤ hi) {t : List Char} (ht : Spelling (.range lo hi h) t) :
    SpellingAlone (.range lo hi h) ('[' :: (t ++ [']']))
  | shorthand (kind : Shorthand) (negated : Bool) :
    SpellingAlone (.shorthand kind negated) ['\\', kind.letter negated]

end ClassItem

/-! ## Reading items -/

section
variable (origin : Nat) {cur : Cursor} {c : Char} {t rest : List Char}

theorem CharSpelling.exists_head (h : CharSpelling classSigns c t) :
    ∃ d u, t = d :: u ∧ d ∉ [']', '-', '^'] := by
  cases h with
  | codepoint => exact ⟨_, _, rfl, by decide⟩
  | escaped => exact ⟨_, _, rfl, by decide⟩
  | plain h => exact ⟨_, _, rfl, fun hmem => h (List.mem_cons_of_mem _ hmem)⟩

theorem CharSpelling.readMember (h : CharSpelling classSigns c t) (hr : cur.rest = t ++ rest) :
    (PatternAutomata.readMember origin cur).Yields (.char c) rest := by
  cases h with
  | codepoint => exact readMember_codepoint origin hr
  | escaped h =>
    simp only [PatternAutomata.readMember, hr, List.cons_append, List.nil_append]
    exact readEscape_punctuation _ h rfl
  | plain h =>
    have hne : c ≠ '\\' := fun hc => h (by simp [hc, classSigns])
    refine ⟨cur.past c rest, ?_, rfl⟩
    unfold PatternAutomata.readMember
    rw [hr, List.singleton_append]
    split
    · next hnil => cases hnil
    · next hcons => exact absurd (List.cons.inj hcons).1 hne
    · next hcons =>
      obtain ⟨rfl, rfl⟩ := List.cons.inj hcons
      rfl

theorem readRangeEnd_spelled (item : Nat) {lo hi : Char} (hle : lo ≤ hi)
    (h : CharSpelling classSigns hi t) (hr : cur.rest = '-' :: (t ++ rest)) :
    (readRangeEnd origin item lo cur).Yields ⟨lo, hi⟩ rest := by
  obtain ⟨d, u, rfl, hd⟩ := h.exists_head
  have hbehind : (cur.past '-' (d :: u ++ rest)).rest = d :: u ++ rest := rfl
  obtain ⟨after, hread, hafter⟩ := h.readMember origin hbehind
  refine ⟨after, ?_, hafter⟩
  have hne : d ≠ ']' := fun hc => hd (by simp [hc])
  simp only [readRangeEnd, hr, List.cons_append, if_neg hne] at hread ⊢
  rw [hread]
  simp [Char.not_lt.mpr hle]

theorem readEscape_letter (kind : Shorthand) (negated : Bool)
    (hr : cur.rest = kind.letter negated :: rest) :
    (readEscape origin cur).Yields (.shorthand kind.members negated) rest := by
  refine ⟨cur.past (kind.letter negated) rest, ?_, rfl⟩
  cases kind <;> cases negated <;> simp [readEscape, hr, Shorthand.letter, Shorthand.members]

theorem ClassItem.Spelling.exists_head {item : ClassItem} (h : item.Spelling t) :
    ∃ d u, t = d :: u ∧ d ∉ [']', '-', '^'] := by
  cases h with
  | char h => exact h.exists_head
  | range _ hlo _ =>
    obtain ⟨d, u, rfl, hd⟩ := hlo.exists_head
    exact ⟨d, _, rfl, hd⟩
  | shorthand => exact ⟨_, _, rfl, by decide⟩

theorem ClassItem.Spelling.readItem (e : Encoding) {item : ClassItem} (h : item.Spelling t)
    (hr : cur.rest = t ++ rest) (hrest : rest.head? ≠ some '-') :
    (PatternAutomata.readItem e origin cur).Yields (item.ranges e) rest := by
  cases h with
  | @char c _ h =>
    obtain ⟨after, hread, rfl⟩ := h.readMember origin hr
    simp only [PatternAutomata.readItem, hread, readRangeEnd_alone (not_rangeNext_of_head hrest)]
    exact ⟨after, rfl, rfl⟩
  | range hle hlo hhi =>
    rw [List.append_assoc, List.cons_append] at hr
    obtain ⟨after, hread, hafter⟩ := hlo.readMember origin hr
    obtain ⟨behind, hend, hbehind⟩ := readRangeEnd_spelled origin cur.offset hle hhi hafter
    simp only [PatternAutomata.readItem, hread, hend]
    exact ⟨behind, rfl, hbehind⟩
  | shorthand kind negated =>
    have hletter : (cur.past '\\' (kind.letter negated :: rest)).rest =
      kind.letter negated :: rest := rfl
    obtain ⟨after, hread, hafter⟩ := readEscape_letter cur.offset kind negated hletter
    simp only [PatternAutomata.readItem, PatternAutomata.readMember, hr, List.cons_append,
      List.nil_append, hread]
    exact ⟨after, rfl, hafter⟩

/-- Nothing that is written within a class goes on with a hyphen or ends the class. -/
theorem head_items_ne_dash {items : List ClassItem} {texts : List (List Char)}
    (h : Forall₂ ClassItem.Spelling items texts) (rest : List Char) :
    (texts.flatten ++ ']' :: rest).head? ≠ some '-' := by
  cases h with
  | nil => simp
  | cons hitem =>
    obtain ⟨d, u, rfl, hd⟩ := hitem.exists_head
    simp only [List.mem_cons, not_or] at hd
    simpa using hd.2.1

theorem ClassItem.contains_ranges (e : Encoding) (item : ClassItem) :
    ∃ c, CharClass.contains ⟨item.ranges e⟩ c = true := by
  cases item with
  | char c => exact ⟨c, by simp [ranges, CharClass.contains]⟩
  | range lo hi h => exact ⟨lo, by simp [ranges, CharClass.contains, h]⟩
  | shorthand kind negated =>
    cases negated with
    | false =>
      cases kind with
      | digit | word => exact ⟨'0', rfl⟩
      | space => exact ⟨' ', rfl⟩
    | true =>
      have hother : ¬ kind.members.contains '!' = true := by cases kind <;> decide
      exact ⟨'!', CharClass.contains_upTo.mpr
        ⟨kind.isShorthand.contains_complement.mpr hother, by cases e <;> decide⟩⟩

theorem readItems_spelled (e : Encoding) {items : List ClassItem} {texts : List (List Char)}
    (h : Forall₂ ClassItem.Spelling items texts) (rs : List CharRange)
    (hr : cur.rest = texts.flatten ++ ']' :: rest) :
    ∃ ss, (readItems e origin rs cur).Yields ss rest ∧
      ∀ c, CharClass.contains ⟨ss⟩ c = true ↔
        CharClass.contains ⟨rs⟩ c = true ∨
          ∃ item ∈ items, CharClass.contains ⟨item.ranges e⟩ c = true := by
  induction h generalizing cur rs with
  | nil => exact ⟨rs, ⟨_, readItems_close hr, rfl⟩, by simp⟩
  | @cons item t items texts hitem hitems ih =>
    rw [List.flatten_cons, List.append_assoc] at hr
    obtain ⟨after, hread, hafter⟩ :=
      hitem.readItem origin e hr (head_items_ne_dash hitems rest)
    obtain ⟨ss, hss, hcontains⟩ := ih (item.ranges e ++ rs) hafter
    obtain ⟨d, u, rfl, hd⟩ := hitem.exists_head
    have hne : d ≠ ']' := fun hc => hd (by simp [hc])
    refine ⟨ss, ?_, fun c => ?_⟩
    · rw [readItems_item hr hne, hread]
      exact hss
    · simp only [hcontains, CharClass.contains_append, List.exists_mem_cons_iff]
      tauto

theorem readClass_spelled (config : Config) {items : List ClassItem} {texts : List (List Char)}
    (hne : items ≠ []) (h : Forall₂ ClassItem.Spelling items texts)
    (hr : cur.rest = texts.flatten ++ ']' :: rest) :
    ∃ (members : CharClass) (after : Cursor), Scanner.readClass config origin cur =
        (Scanner.termOfClass config origin members false, after) ∧ after.rest = rest ∧
      CharClass.Apart members.ranges ∧ ∀ c, members.contains c = true ↔
        ∃ item ∈ items, CharClass.contains ⟨item.ranges config.encoding⟩ c = true := by
  have hopen : Scanner.openClass cur = (false, cur) := by
    unfold Scanner.openClass
    split
    · next hcaret =>
      cases h with
      | nil => exact absurd rfl hne
      | cons hitem =>
        obtain ⟨d, u, rfl, hd⟩ := hitem.exists_head
        rw [hr, List.flatten_cons, List.cons_append, List.cons_append] at hcaret
        exact absurd (List.cons.inj hcaret).1 fun hc => hd (by simp [hc])
    · rfl
  obtain ⟨ss, ⟨after, hread, hafter⟩, hcontains⟩ :=
    readItems_spelled origin config.encoding h [] hr
  have hnil (c : Char) : CharClass.contains ⟨[]⟩ c = false := rfl
  simp only [hnil, Bool.false_eq_true, false_or] at hcontains
  obtain ⟨item, hitem⟩ := List.exists_mem_of_ne_nil items hne
  obtain ⟨c, hc⟩ := item.contains_ranges config.encoding
  cases ss with
  | nil => exact absurd ⟨item, hitem, hc⟩ (mt (hcontains c).mpr (by simp [hnil]))
  | cons r rs =>
    refine ⟨.ofRanges (r :: rs), after, ?_, hafter, CharClass.apart_ofRanges _, fun c => ?_⟩
    · simp only [Scanner.readClass, hopen, hread]
    · rw [CharClass.contains_ofRanges, hcontains]

end

/-! ## Texts that are a single token -/

/-- Whether a term denotes a character: the encoding can write it, and it is one of the
alternatives, or none of them if the term is negated. -/
def Term.Denotes (e : Encoding) (c : Char) : Term → Prop
  | .choice texts negated =>
    (e.encode? c).isSome = true ∧ if negated then [c] ∉ texts else [c] ∈ texts
  | _ => False

/-- Whether a text is read as a single token of the given meaning. -/
def ReadsAs (config : Config) (text : List Char) (term : Term) : Prop :=
  ∃ last, (Scanner.ofText config (String.ofList text)).scan =
    ([⟨.letters, some term, 0⟩], .ok last)

/-- Whether a text begins with a class that is refused. -/
def TooLarge (config : Config) (text : List Char) : Prop :=
  (Scanner.ofText config (String.ofList text)).next.1 =
    .error ⟨0, .classTooLarge config.classLimit⟩

/-- Whether all of a text is read as a class. -/
def Expands (config : Config) (text : List Char) (members : CharClass) (negated : Bool) : Prop :=
  ∃ s' : Scanner, (Scanner.ofText config (String.ofList text)).next =
    ((Scanner.termOfClass config 0 members negated).map fun term => ⟨.letters, some term, 0⟩, s') ∧
      s'.cursor.rest = []

section
variable {config : Config} {text : List Char} {members : CharClass} {negated : Bool}

theorem ofText_ofList (config : Config) (text : List Char) :
    Scanner.ofText config (String.ofList text) = ⟨config, ⟨text, 0⟩, 0, 0⟩ := by
  rw [Scanner.ofText, String.toList_ofList]

theorem Scanner.readBy_eq {s : Scanner} {reader : Config → Nat → Cursor → Read Term}
    {terminal : Terminal} {c : Char} {rest : List Char} {result : Except LexError Term}
    {after : Cursor}
    (h : reader s.config s.cursor.offset (s.cursor.past c rest) = (result, after)) :
    s.readBy reader terminal c rest =
      (result.map fun term => ⟨terminal, some term, s.cursor.offset⟩,
        { s with cursor := after }) := by
  rw [readBy, h]

theorem readsAs_of_next {term : Term} {s' : Scanner}
    (hnext : (Scanner.ofText config (String.ofList text)).next =
      (.ok ⟨.letters, some term, 0⟩, s')) (hrest : s'.cursor.rest = []) :
    ReadsAs config text term := by
  rw [ReadsAs, Scanner.scan_further hnext (by simp),
    Scanner.scan_last (Scanner.next_of_rest_nil hrest) rfl]
  exact ⟨_, rfl⟩

theorem Expands.exists_term (h : Expands config text members negated)
    (hapart : CharClass.Apart members.ranges) (hkept : ¬ TooLarge config text) :
    ∃ term, ReadsAs config text term ∧ ∀ e c, term.Denotes e c ↔ (e.encode? c).isSome = true ∧
      if negated then c ∉ config.covers members else c ∈ config.covers members := by
  obtain ⟨s', hnext, hrest⟩ := h
  obtain ⟨-, hterm⟩ | ⟨-, texts, hterm, htexts⟩ :=
    Scanner.termOfClass_law config hapart 0 negated
  · rw [TooLarge, hnext, hterm] at hkept
    exact absurd rfl hkept
  · rw [hterm] at hnext
    refine ⟨_, readsAs_of_next hnext hrest, fun e c => ?_⟩
    have hmem : [c] ∈ texts ↔ c ∈ config.covers members := by simp [htexts]
    simp only [Term.Denotes, hmem]

theorem Expands.not_tooLarge (h : Expands config text members negated)
    (hapart : CharClass.Apart members.ranges) (hlimit : 0x110000 ≤ config.classLimit) :
    ¬ TooLarge config text := by
  obtain ⟨s', hnext, -⟩ := h
  rw [TooLarge, hnext]
  have hsize := CharClass.size_le (config.apart_expanded hapart)
  rw [config.size_expanded hapart] at hsize
  obtain ⟨hlt, -⟩ | ⟨-, texts, hterm, -⟩ := Scanner.termOfClass_law config hapart 0 negated
  · omega
  · rw [hterm]
    nofun

end

/-! ## What an item stands for -/

namespace ClassItem
variable {config : Config} {item : ClassItem} {t : List Char} {c : Char}

/-- What an item stands for by itself. -/
def Denotes (config : Config) (c : Char) : ClassItem → Prop
  | char d => c ∈ config.covers (.singleton d)
  | range lo hi _ => c ∈ config.covers ⟨[⟨lo, hi⟩]⟩
  | shorthand kind negated =>
    if negated then c ∉ config.covers kind.members else c ∈ config.covers kind.members

/-- Whether an item brings a character into a class that it does not stand for by itself. -/
def Strays (config : Config) (c : Char) (item : ClassItem) : Prop :=
  item = .shorthand .word true ∧ config.caseInsensitive = true ∧ config.encoding = .utf8 ∧
    c ∈ CharClass.longSAndKelvin

theorem simpleFold_eq_of_covers {s : CharClass} (h : c ∈ config.covers s) :
    ∃ m, s.contains m = true ∧ simpleFold m = simpleFold c := by
  obtain ⟨m, hm, rfl | ⟨-, hagree⟩⟩ := h
  · exact ⟨m, hm, rfl⟩
  · exact ⟨m, hm, agreeUpToCase_iff.mp hagree⟩

theorem caseInsensitive_of_covers {s t : CharClass} (hs : c ∈ config.covers s)
    (ht : c ∈ config.covers t) (hdisjoint : ∀ m, s.contains m = true → ¬ t.contains m = true) :
    config.caseInsensitive = true := by
  obtain ⟨m, hm, rfl | ⟨hfold, -⟩⟩ := hs
  · obtain ⟨d, hd, rfl | ⟨hfold, -⟩⟩ := ht
    · exact absurd hd (hdisjoint _ hm)
    · exact hfold
  · exact hfold

/-- Only UTF-8 knows the long s and the sign for kelvins. -/
theorem eq_utf8_of_stray {e : Encoding} {m : Char} (hm : m ∈ CharClass.longSAndKelvin)
    (hword : ¬ CharClass.word.contains m = true) (hlast : m ≤ e.lastChar) : e = .utf8 := by
  have hall : CharClass.longSAndKelvin.all fun m =>
      CharClass.word.contains m ∨ '\u017f' ≤ m := by decide
  have hbeyond : CharClass.word.contains m = true ∨ '\u017f' ≤ m := by
    simpa using List.all_eq_true.mp hall m hm
  have hle := Char.le_trans (hbeyond.resolve_left hword) hlast
  cases e with
  | ascii | latin1 => exact absurd hle (by decide)
  | utf8 => rfl

theorem covers_others (kind : Shorthand) (hc : c ≤ config.encoding.lastChar) :
    c ∈ config.covers (kind.members.complement.upTo config.encoding.lastChar) ↔
      c ∉ config.covers kind.members ∨ (shorthand kind true).Strays config c := by
  have hothers (m : Char) :
      (kind.members.complement.upTo config.encoding.lastChar).contains m = true ↔
        ¬ kind.members.contains m = true ∧ m ≤ config.encoding.lastChar := by
    rw [CharClass.contains_upTo, kind.isShorthand.contains_complement]
  constructor
  · intro h
    rw [or_iff_not_imp_left, not_not]
    intro hmember
    have hfold := caseInsensitive_of_covers h hmember fun m hm => ((hothers m).mp hm).1
    obtain ⟨m, hm, hmc⟩ := simpleFold_eq_of_covers h
    obtain ⟨d, hd, hdc⟩ := simpleFold_eq_of_covers hmember
    obtain ⟨hm, hlast⟩ := (hothers m).mp hm
    obtain ⟨hword, hc, hm'⟩ := kind.isShorthand.mem_longSAndKelvin hm hmc hd hdc
    have hkind : kind = .word := by
      cases kind with
      | word => rfl
      | digit | space => exact absurd hword (by decide)
    rw [hword] at hm
    exact ⟨by rw [hkind], hfold, eq_utf8_of_stray hm' hm hlast, hc⟩
  · rintro (h | ⟨hitem, hfold, hutf8, hstray⟩)
    · have hc' : ¬ kind.members.contains c = true := fun hmember => h ⟨c, hmember, .inl rfl⟩
      exact ⟨c, (hothers c).mpr ⟨hc', hc⟩, .inl rfl⟩
    · obtain ⟨rfl, -⟩ := ClassItem.shorthand.inj hitem
      have hlast (m : Char) : m ≤ config.encoding.lastChar := hutf8 ▸ Encoding.le_lastChar_utf8 m
      have hlongS : simpleFold '\u017f' = 's' := by decide +kernel
      have hkelvin : simpleFold '\u212a' = 'k' := by decide +kernel
      obtain hs | hk := CharClass.mem_longSAndKelvin.mp hstray
      · exact ⟨'\u017f', (hothers _).mpr ⟨by decide, hlast _⟩,
          .inr ⟨hfold, agreeUpToCase_iff.mpr (hlongS.trans hs.symm)⟩⟩
      · exact ⟨'\u212a', (hothers _).mpr ⟨by decide, hlast _⟩,
          .inr ⟨hfold, agreeUpToCase_iff.mpr (hkelvin.trans hk.symm)⟩⟩

/-- What an item brings into a class, as far as the encoding can write it. -/
theorem covers_ranges (hc : (config.encoding.encode? c).isSome = true) :
    c ∈ config.covers ⟨item.ranges config.encoding⟩ ↔
      item.Denotes config c ∨ item.Strays config c := by
  have hplain (hitem : item ≠ .shorthand .word true) :
      item.Denotes config c ∨ item.Strays config c ↔ item.Denotes config c :=
    or_iff_left fun h => hitem h.1
  cases item with
  | char d => exact (hplain nofun).symm
  | range lo hi h => exact (hplain nofun).symm
  | shorthand kind negated =>
    cases negated with
    | false => exact (hplain nofun).symm
    | true =>
      exact covers_others kind (Encoding.isSome_encode?_iff.mp hc)

end ClassItem

/-! ## Texts of items -/

section
variable {config : Config} {item : ClassItem} {items : List ClassItem}
  {texts alone : List (List Char)} {c : Char} {t : List Char}

theorem chars_singleton (c : Char) : (CharClass.singleton c).chars = [c] := by
  have hwidth : CharRange.width ⟨c, c⟩ = 1 := Nat.add_sub_cancel_left ..
  have hscalar : scalar? c.toNat = some c := scalar?_eq_some_iff.mpr rfl
  simp [CharClass.singleton, CharClass.chars, CharRange.chars, hwidth, hscalar]

theorem termOfLetter_denotes (config : Config) (c : Char) (e : Encoding) (d : Char) :
    (Scanner.termOfLetter config c).Denotes e d ↔
      (e.encode? d).isSome = true ∧ d ∈ config.covers (.singleton c) := by
  have hterm : Scanner.termOfLetter config c = .ofChars (config.expanded (.singleton c)).chars := by
    unfold Scanner.termOfLetter Config.expanded
    split
    · rfl
    · rw [chars_singleton]
  rw [hterm, ← Config.contains_expanded, ← CharClass.mem_chars]
  simp [Term.ofChars, Term.Denotes]

/-- A character behind a backslash. -/
theorem next_escaped (config : Config) {text : List Char}
    (h : (readEscape 0 ⟨text, 1⟩).Yields (.char c) []) :
    ∃ s' : Scanner, Scanner.next ⟨config, ⟨'\\' :: text, 0⟩, 0, 0⟩ =
      (.ok ⟨.letters, some (Scanner.termOfLetter config c), 0⟩, s') ∧ s'.cursor.rest = [] := by
  obtain ⟨after, hread, hafter⟩ := h
  refine ⟨⟨config, after, 0, 0⟩, ?_, hafter⟩
  have hescaped : Scanner.readEscaped config 0 ⟨text, 1⟩ =
      (.ok (Scanner.termOfLetter config c), after) := by rw [Scanner.readEscaped, hread]
  have hread : Scanner.readBy Scanner.readEscaped .letters '\\' text
      ⟨config, ⟨'\\' :: text, 0⟩, 0, 0⟩ = _ := Scanner.readBy_eq hescaped
  rw [Scanner.next_backslash rfl, hread]
  rfl

theorem next_letter (config : Config) (h : CharSpelling metaChars c t) :
    ∃ s' : Scanner, (Scanner.ofText config (String.ofList t)).next =
      (.ok ⟨.letters, some (Scanner.termOfLetter config c), 0⟩, s') ∧ s'.cursor.rest = [] := by
  rw [ofText_ofList]
  cases h with
  | codepoint => exact next_escaped config (readEscape_codepoint 0 rfl)
  | escaped h => exact next_escaped config (readEscape_punctuation 0 h rfl)
  | plain h => exact ⟨_, Lexeme.next_plain h rfl, rfl⟩

theorem expands_charClass (config : Config) (hne : items ≠ [])
    (h : Forall₂ ClassItem.Spelling items texts) :
    ∃ members : CharClass, Expands config ('[' :: (texts.flatten ++ [']'])) members false ∧
      CharClass.Apart members.ranges ∧ ∀ c, members.contains c = true ↔
        ∃ item ∈ items, CharClass.contains ⟨item.ranges config.encoding⟩ c = true := by
  have hrest : (Cursor.mk (texts.flatten ++ [']']) 1).rest = texts.flatten ++ [']'] := rfl
  obtain ⟨members, after, hread, hafter, hapart, hcontains⟩ :=
    readClass_spelled 0 config hne h hrest
  refine ⟨members, ⟨⟨config, after, 0, 0⟩, ?_, hafter⟩, hapart, hcontains⟩
  rw [ofText_ofList, Scanner.next_bracket rfl]
  exact Scanner.readBy_eq hread

theorem expands_shorthand (config : Config) (kind : Shorthand) (negated : Bool) :
    Expands config ['\\', kind.letter negated] kind.members negated := by
  have hrest : (Cursor.mk [kind.letter negated] 1).rest = [kind.letter negated] := rfl
  obtain ⟨after, hread, hafter⟩ := readEscape_letter 0 kind negated hrest
  have hescaped : Scanner.readEscaped config 0 ⟨[kind.letter negated], 1⟩ =
      (Scanner.termOfClass config 0 kind.members negated, after) := by
    rw [Scanner.readEscaped, hread]
  refine ⟨⟨config, after, 0, 0⟩, ?_, hafter⟩
  rw [ofText_ofList, Scanner.next_backslash rfl]
  exact Scanner.readBy_eq hescaped

theorem covers_items {config : Config} {e : Encoding} {members : CharClass}
    (h : ∀ c, members.contains c = true ↔
      ∃ item ∈ items, CharClass.contains ⟨item.ranges e⟩ c = true) :
    c ∈ config.covers members ↔ ∃ item ∈ items, c ∈ config.covers ⟨item.ranges e⟩ := by
  constructor
  · rintro ⟨m, hm, hmc⟩
    obtain ⟨item, hitem, hm⟩ := (h m).mp hm
    exact ⟨item, hitem, m, hm, hmc⟩
  · rintro ⟨item, hitem, m, hm, hmc⟩
    exact ⟨m, (h m).mpr ⟨item, hitem, hm⟩, hmc⟩

theorem ClassItem.SpellingAlone.exists_term (h : item.SpellingAlone t)
    (hkept : ¬ TooLarge config t) :
    ∃ term, ReadsAs config t term ∧ ∀ e c, term.Denotes e c ↔
      (e.encode? c).isSome = true ∧ item.Denotes config c := by
  cases h with
  | @char c _ h =>
    obtain ⟨s', hnext, hrest⟩ := next_letter config h
    exact ⟨_, readsAs_of_next hnext hrest, termOfLetter_denotes config c⟩
  | @range lo hi hle t ht =>
    have hitems : Forall₂ ClassItem.Spelling [.range lo hi hle] [t] := .cons ht .nil
    obtain ⟨members, hexpands, hapart, hcontains⟩ :=
      expands_charClass config (List.cons_ne_nil _ _) hitems
    rw [List.flatten_singleton] at hexpands
    obtain ⟨term, hread, hdenotes⟩ := hexpands.exists_term hapart hkept
    refine ⟨term, hread, fun e c => ?_⟩
    simp only [hdenotes, covers_items hcontains, List.exists_mem_cons_iff, List.not_mem_nil,
      false_and, exists_false, or_false, Bool.false_eq_true, if_false]
    rfl
  | shorthand kind negated =>
    obtain ⟨term, hread, hdenotes⟩ :=
      (expands_shorthand config kind negated).exists_term kind.isShorthand.apart hkept
    exact ⟨term, hread, hdenotes⟩

/-- Nothing is refused where as many characters are allowed as there are numbers for them. -/
theorem not_tooLarge_charClass (hlimit : 0x110000 ≤ config.classLimit) (hne : items ≠ [])
    (h : Forall₂ ClassItem.Spelling items texts) :
    ¬ TooLarge config ('[' :: (texts.flatten ++ [']'])) := by
  obtain ⟨members, hexpands, hapart, -⟩ := expands_charClass config hne h
  exact hexpands.not_tooLarge hapart hlimit

theorem ClassItem.SpellingAlone.not_tooLarge (hlimit : 0x110000 ≤ config.classLimit)
    (h : item.SpellingAlone t) : ¬ TooLarge config t := by
  cases h with
  | char h =>
    obtain ⟨s', hnext, -⟩ := next_letter config h
    rw [TooLarge, hnext]
    nofun
  | @range lo hi hle t ht =>
    have hitems : Forall₂ ClassItem.Spelling [.range lo hi hle] [t] := .cons ht .nil
    have hkept := not_tooLarge_charClass hlimit (List.cons_ne_nil _ _) hitems
    rwa [List.flatten_singleton] at hkept
  | shorthand kind negated =>
    exact (expands_shorthand config kind negated).not_tooLarge kind.isShorthand.apart hlimit

theorem forall_not_tooLarge (hlimit : 0x110000 ≤ config.classLimit)
    (h : Forall₂ ClassItem.SpellingAlone items alone) : ∀ t ∈ alone, ¬ TooLarge config t := by
  induction h with
  | nil => simp
  | cons hitem _ ih => exact List.forall_mem_cons.mpr ⟨hitem.not_tooLarge hlimit, ih⟩

theorem exists_terms_alone (h : Forall₂ ClassItem.SpellingAlone items alone)
    (hkept : ∀ t ∈ alone, ¬ TooLarge config t) :
    ∃ parts, Forall₂ (ReadsAs config) alone parts ∧ ∀ e c, (∃ part ∈ parts, part.Denotes e c) ↔
      (e.encode? c).isSome = true ∧ ∃ item ∈ items, item.Denotes config c := by
  induction h with
  | nil => exact ⟨[], .nil, by simp⟩
  | cons hitem _ ih =>
    rw [List.forall_mem_cons] at hkept
    obtain ⟨term, hread, hdenotes⟩ := hitem.exists_term hkept.1
    obtain ⟨parts, hreads, hparts⟩ := ih hkept.2
    refine ⟨term :: parts, .cons hread hreads, fun e c => ?_⟩
    simp only [List.exists_mem_cons_iff, hdenotes, hparts, and_or_left]

end

/-! ## Classes and their items -/

section
variable {config : Config} {items : List ClassItem} {texts alone : List (List Char)}

/-- The term of a class denotes what the terms of its items denote, which are read from the items by
themselves. When case is ignored, the shorthand for what is no character of a word denotes the
spellings of two letters only in a class. -/
theorem charClass_union (hne : items ≠ []) (htexts : Forall₂ ClassItem.Spelling items texts)
    (halone : Forall₂ ClassItem.SpellingAlone items alone)
    (hkept : ¬ TooLarge config ('[' :: (texts.flatten ++ [']'])))
    (hparts : ∀ t ∈ alone, ¬ TooLarge config t) :
    ∃ (term : Term) (parts : List Term),
      ReadsAs config ('[' :: (texts.flatten ++ [']'])) term ∧
      Forall₂ (ReadsAs config) alone parts ∧
      ∀ c, term.Denotes config.encoding c ↔
        (∃ part ∈ parts, part.Denotes config.encoding c) ∨
          ClassItem.shorthand .word true ∈ items ∧ config.caseInsensitive = true ∧
            config.encoding = .utf8 ∧ c ∈ CharClass.longSAndKelvin := by
  obtain ⟨members, hexpands, hapart, hcontains⟩ := expands_charClass config hne htexts
  obtain ⟨term, hread, hdenotes⟩ := hexpands.exists_term hapart hkept
  obtain ⟨parts, hreads, hparts⟩ := exists_terms_alone halone hparts
  refine ⟨term, parts, hread, hreads, fun c => ?_⟩
  have hstrays : (∃ item ∈ items, ClassItem.Strays config c item) ↔
      ClassItem.shorthand .word true ∈ items ∧ config.caseInsensitive = true ∧
        config.encoding = .utf8 ∧ c ∈ CharClass.longSAndKelvin := by
    constructor
    · rintro ⟨_, hitem, rfl, hc⟩
      exact ⟨hitem, hc⟩
    · rintro ⟨hitem, hc⟩
      exact ⟨_, hitem, rfl, hc⟩
  rw [hdenotes, hparts, ← hstrays]
  simp only [Bool.false_eq_true, if_false, covers_items hcontains]
  constructor
  · rintro ⟨hsome, item, hitem, hc⟩
    rcases (ClassItem.covers_ranges hsome).mp hc with hc | hc
    · exact .inl ⟨hsome, item, hitem, hc⟩
    · exact .inr ⟨item, hitem, hc⟩
  · rintro (⟨hsome, item, hitem, hc⟩ | ⟨item, hitem, hc⟩)
    · exact ⟨hsome, item, hitem, (ClassItem.covers_ranges hsome).mpr (.inl hc)⟩
    · have hsome : (config.encoding.encode? c).isSome = true := by
        rw [hc.2.2.1]
        simp [Encoding.encode?, Encoding.le_lastChar_utf8]
      exact ⟨hsome, item, hitem, (ClassItem.covers_ranges hsome).mpr (.inr hc)⟩

/-- What is no character of a word, a hyphen and some letters. -/
theorem charClass_union_others : ∃ (term : Term) (parts : List Term),
    let config : Config := { caseInsensitive := true, classLimit := 0x110000 }
    ReadsAs config "[\\W\\-a-f]".toList term ∧
      Forall₂ (ReadsAs config) ["\\W".toList, "\\-".toList, "[a-f]".toList] parts ∧
      term.Denotes .utf8 's' := by
  have hrange : ClassItem.Spelling (.range 'a' 'f' (by decide)) "a-f".toList :=
    .range _ (.plain (by decide)) (.plain (by decide))
  have htexts : Forall₂ ClassItem.Spelling
      [.shorthand .word true, .char '-', .range 'a' 'f' (by decide)]
      ["\\W".toList, "\\-".toList, "a-f".toList] :=
    .cons (.shorthand .word true) (.cons (.char (.escaped rfl)) (.cons hrange .nil))
  have halone : Forall₂ ClassItem.SpellingAlone
      [.shorthand .word true, .char '-', .range 'a' 'f' (by decide)]
      ["\\W".toList, "\\-".toList, "[a-f]".toList] :=
    .cons (.shorthand .word true) (.cons (.char (.escaped rfl)) (.cons (.range _ hrange) .nil))
  have hlimit : 0x110000 ≤ Config.classLimit { caseInsensitive := true, classLimit := 0x110000 } :=
    Nat.le_refl _
  obtain ⟨term, parts, hread, hreads, hdenotes⟩ := charClass_union
    (List.cons_ne_nil _ _) htexts halone
    (not_tooLarge_charClass hlimit (List.cons_ne_nil _ _) htexts)
    (forall_not_tooLarge hlimit halone)
  exact ⟨term, parts, hread, hreads,
    (hdenotes 's').mpr (.inr ⟨by simp, rfl, rfl, by decide⟩)⟩

/-- When case is ignored, what is no character of a word is a `k` in a class, and is none otherwise.
-/
theorem others_differ_in_charClass : ∃ term part : Term,
    let config : Config := { caseInsensitive := true, classLimit := 0x110000 }
    ReadsAs config "[\\W]".toList term ∧ ReadsAs config "\\W".toList part ∧
      term.Denotes .utf8 'k' ∧ ¬ part.Denotes .utf8 'k' := by
  have hlimit : 0x110000 ≤ Config.classLimit { caseInsensitive := true, classLimit := 0x110000 } :=
    Nat.le_refl _
  have htexts : Forall₂ ClassItem.Spelling [.shorthand .word true] ["\\W".toList] :=
    .cons (.shorthand .word true) .nil
  have hsome : (Encoding.utf8.encode? 'k').isSome = true := by decide
  obtain ⟨members, hexpands, hapart, hcontains⟩ := expands_charClass
    { caseInsensitive := true, classLimit := 0x110000 } (List.cons_ne_nil _ _) htexts
  obtain ⟨term, hterm, hdenotes⟩ :=
    hexpands.exists_term hapart (hexpands.not_tooLarge hapart hlimit)
  have halone : ClassItem.SpellingAlone (.shorthand .word true) "\\W".toList :=
    .shorthand .word true
  obtain ⟨part, hpart, hdenotes'⟩ := halone.exists_term (halone.not_tooLarge hlimit)
  refine ⟨term, part, hterm, hpart, (hdenotes _ _).mpr ⟨hsome, ?_⟩, fun h => ?_⟩
  · refine (covers_items hcontains).mpr ⟨.shorthand .word true, by simp, ?_⟩
    exact (ClassItem.covers_ranges hsome).mpr (.inr ⟨rfl, rfl, rfl, by decide⟩)
  · exact ((hdenotes' _ _).mp h).2 ⟨'k', by decide, .inl rfl⟩

end

end PatternAutomata
