import PatternAutomata.Proofs.Compile

/-!
# Exchanging characters

A pattern without negation matches whole characters only. When its letters and classes do not tell
certain characters apart, then it does not either: what it matches can have them exchanged for each
other, even if their bytes differ in number.
-/
namespace PatternAutomata

open List (Forall₂)

variable {r : Char → Char → Prop} {e : Encoding} {p q : Meaning}

theorem exists_of_forall₂_append {α β : Type} {r : α → β → Prop} {xs ys : List α} {zs : List β}
    (h : Forall₂ r (xs ++ ys) zs) :
    ∃ xs' ys', zs = xs' ++ ys' ∧ Forall₂ r xs xs' ∧ Forall₂ r ys ys' := by
  have hleft := List.forall₂_take xs.length h
  have hright := List.forall₂_drop xs.length h
  rw [List.take_left] at hleft
  rw [List.drop_left] at hright
  exact ⟨_, _, (List.take_append_drop xs.length zs).symm, hleft, hright⟩

/-- Whether each text of the set has those beside it in which characters are exchanged for related
ones. -/
def Texts.ClosedUnder (r : Char → Char → Prop) (texts : Texts) : Prop :=
  ∀ text ∈ texts, ∀ text', Forall₂ r text text' → text' ∈ texts

namespace Meaning

/-- Whether a meaning matches whole characters only, and still matches when they are exchanged for
related ones. -/
def Respects (r : Char → Char → Prop) (e : Encoding) (p : Meaning) : Prop :=
  ∀ atStart w atEnd, p atStart w atEnd → ∃ text, e.encodeAll? text = some w ∧
    ∀ text' w', Forall₂ r text text' → e.encodeAll? text' = some w' → p atStart w' atEnd

theorem respects_empty : empty.Respects r e := by
  rintro b w e' rfl
  refine ⟨[], rfl, fun text' w' hr hw' => ?_⟩
  obtain rfl := List.forall₂_nil_left_iff.mp hr
  exact (Option.some.inj hw').symm

theorem respects_anchor (m : Anchor) : (anchor m).Respects r e := by
  intro b w e' h
  have hempty : w = [] := by cases m <;> exact h.1
  subst hempty
  refine ⟨[], rfl, fun text' w' hr hw' => ?_⟩
  obtain rfl := List.forall₂_nil_left_iff.mp hr
  obtain rfl := Option.some.inj hw'
  exact h

theorem Respects.either (hp : p.Respects r e) (hq : q.Respects r e) : (p.either q).Respects r e := by
  rintro b w e' (h | h)
  · obtain ⟨text, hw, htext⟩ := hp b w e' h
    exact ⟨text, hw, fun text' w' hr hw' => .inl (htext text' w' hr hw')⟩
  · obtain ⟨text, hw, htext⟩ := hq b w e' h
    exact ⟨text, hw, fun text' w' hr hw' => .inr (htext text' w' hr hw')⟩

/-- The bytes tell the text, so both meanings speak of the same one. -/
theorem Respects.both (hp : p.Respects r e) (hq : q.Respects r e) :
    (strings fun w => p.whole w ∧ q.whole w).Respects r e := by
  rintro b w e' ⟨hwp, hwq⟩
  obtain ⟨text, hw, htext⟩ := hp true w true hwp
  obtain ⟨_, hw', htext'⟩ := hq true w true hwq
  obtain rfl := Encoding.eq_of_encodeAll? hw hw'
  exact ⟨text, hw, fun text' w' hr hw' => ⟨htext text' w' hr hw', htext' text' w' hr hw'⟩⟩

theorem isEmpty_of_forall₂ {s t : List Char} {u v : List UInt8} (h : Forall₂ r s t)
    (hu : e.encodeAll? s = some u) (hv : e.encodeAll? t = some v) : v.isEmpty = u.isEmpty := by
  rw [Encoding.isEmpty_of_encodeAll? hu, Encoding.isEmpty_of_encodeAll? hv]
  cases h <;> rfl

/-- The pieces are whole characters, so the exchanged text falls into two pieces too. As many
characters are in them, so they stand at the same ends of the text. -/
theorem Respects.seq (hp : p.Respects r e) (hq : q.Respects r e) : (p.seq q).Respects r e := by
  rintro b w e' ⟨u, v, rfl, hu, hv⟩
  obtain ⟨s, hs, hsp⟩ := hp _ _ _ hu
  obtain ⟨t, ht, htq⟩ := hq _ _ _ hv
  refine ⟨s ++ t, Encoding.encodeAll?_append_eq_some.mpr ⟨u, v, hs, ht, rfl⟩, ?_⟩
  intro text' w' hr hw'
  obtain ⟨s', t', rfl, hleft, hright⟩ := exists_of_forall₂_append hr
  obtain ⟨u', v', hu', hv', rfl⟩ := Encoding.encodeAll?_append_eq_some.mp hw'
  refine ⟨u', v', rfl, ?_, ?_⟩
  · rw [isEmpty_of_forall₂ hright ht hv']
    exact hsp _ u' hleft hu'
  · rw [isEmpty_of_forall₂ hleft hs hu']
    exact htq _ v' hright hv'

theorem Respects.power (hp : p.Respects r e) (k : Nat) : (p.power k).Respects r e := by
  induction k with
  | zero => exact respects_empty
  | succ k ih => exact ih.seq hp

theorem Respects.counted (hp : p.Respects r e) (least : Nat) (most : Bound) :
    (p.counted least most).Respects r e := by
  rintro b w e' ⟨k, hleast, hmost, hk⟩
  obtain ⟨text, hw, htext⟩ := hp.power k b w e' hk
  exact ⟨text, hw, fun text' w' hr hw' => ⟨k, hleast, hmost, htext text' w' hr hw'⟩⟩

theorem respects_choice {texts : Texts} (h : texts.ClosedUnder r) :
    ((Term.choice texts false).meaning e).Respects r e := by
  rintro b w e' ⟨text, hmem, hw⟩
  exact ⟨text, hw, fun text' w' hr hw' => ⟨text', h text hmem text' hr, hw'⟩⟩

/-- Matching one character of some kind respects what keeps to the kind. -/
theorem respects_character (kind : Char → Prop) (h : ∀ c d, r c d → kind c → kind d) :
    (strings fun w => ∃ c, e.encode? c = some w ∧ kind c).Respects r e := by
  rintro b w e' ⟨c, hc, hkind⟩
  refine ⟨[c], (Encoding.encodeAll?_singleton e c).trans hc, fun text' w' hr hw' => ?_⟩
  obtain ⟨d, _, hcd, hnil, rfl⟩ := List.forall₂_cons_left_iff.mp hr
  obtain rfl := List.forall₂_nil_left_iff.mp hnil
  exact ⟨d, (Encoding.encodeAll?_singleton e d).symm.trans hw', h c d hcd hkind⟩

theorem respects_dot : (Term.dot.meaning e).Respects r e := by
  simpa only [Term.meaning, and_true] using
    respects_character (r := r) (e := e) (fun _ => True) fun _ _ _ _ => trivial

theorem respects_negatedChoice {texts : Texts} (hr : ∀ c d, r c d → r d c) (h : texts.ClosedUnder r) :
    ((Term.choice texts true).meaning e).Respects r e :=
  respects_character _ fun c d hcd hc hd =>
    hc (h [d] hd [c] (.cons (hr c d hcd) .nil))

end Meaning

/-- Whether the texts of a token, if it has any, are closed under exchange of characters. -/
def Token.ClosedUnder (r : Char → Char → Prop) (t : Token) : Prop :=
  ∀ texts negated, t.term = some (.choice texts negated) → texts.ClosedUnder r

/-- A tree without negation respects what its leaves respect. -/
theorem Tree.respects (hr : ∀ c d, r c d → r d c) (e : Encoding) {s : Symbol} (tree : Tree s)
    (h : ∀ t ∈ tree.tokens, t.Lexical ∧ t.terminal ≠ .bang ∧ t.ClosedUnder r) :
    (tree.meaning e).Respects r e := by
  induction tree with
  | pattern whole ih => exact ih h
  | firstAlternative c ih => exact ih h
  | nextAlternative l bar q ihl ihr =>
    have hl := ihl fun t ht => h t (by simp [tokens, ht])
    have hr := ihr fun t ht => h t (by simp [tokens, ht])
    exact hl.either hr
  | firstConjunct c ih => exact ih h
  | nextConjunct l sign q ihl ihr =>
    have hl := ihl fun t ht => h t (by simp [tokens, ht])
    have hr := ihr fun t ht => h t (by simp [tokens, ht])
    exact hl.both hr
  | plain s ih => exact ih h
  | negated sign s => exact absurd sign.2 (h sign.1 (by simp [tokens])).2.1
  | emptySequence => exact Meaning.respects_empty
  | nextItem s i ihs ihi =>
    have hs := ihs fun t ht => h t (by simp [tokens, ht])
    have hi := ihi fun t ht => h t (by simp [tokens, ht])
    exact hs.seq hi
  | once a ih => exact ih h
  | counted a count ih =>
    obtain ⟨least, most, hterm, -⟩ : ∃ least most,
        count.1.term = some (.count least most) ∧ most.Allows least := by
      have hcount := (h count.1 (by simp [tokens])).1
      rwa [Token.Lexical, count.2] at hcount
    have ha := ih fun t ht => h t (by simp [tokens, ht])
    simp only [meaning, hterm]
    exact ha.counted least most
  | single k leaf =>
    obtain ⟨hlex, -, hclosed⟩ := h leaf.1 (by simp [tokens])
    rw [Token.Lexical, leaf.2] at hlex
    cases k with
    | letters =>
      obtain ⟨texts, negated, hterm⟩ := hlex
      simp only [meaning, hterm]
      cases negated with
      | false => exact Meaning.respects_choice (hclosed texts false hterm)
      | true => exact Meaning.respects_negatedChoice hr (hclosed texts true hterm)
    | dot =>
      have hterm : leaf.1.term = some .dot := hlex
      simp only [meaning, hterm]
      exact Meaning.respects_dot
    | caret =>
      have hterm : leaf.1.term = some (.anchor .textStart) := hlex
      simp only [meaning, hterm]
      exact Meaning.respects_anchor .textStart
    | dollar =>
      have hterm : leaf.1.term = some (.anchor .textEnd) := hlex
      simp only [meaning, hterm]
      exact Meaning.respects_anchor .textEnd
  | group opening inner closing ih => exact ih fun t ht => h t (by simp [tokens, ht])

/-! ## Texts without negation -/

/-- Whether a text has no negations. -/
def Unnegated (config : Config) (text : String) : Prop :=
  .bang ∉ kindsOf (Scanner.tokens config text)

section
variable {config : Config} {text : String} {tree : Tree .pattern} {a : Automaton} {w : List UInt8}

theorem Unnegated.respects (hfree : Unnegated config text) (h : tree.ReadFrom config text)
    (hr : ∀ c d, r c d → r d c) (hclosed : ∀ t ∈ tree.tokens, t.ClosedUnder r) (e : Encoding) :
    (tree.meaning e).Respects r e := by
  obtain ⟨last, hscan⟩ := id h
  rw [Unnegated, Scanner.tokens, hscan] at hfree
  exact tree.respects hr e fun t ht =>
    ⟨h.lexical t ht, fun hbang => hfree (hbang ▸ List.mem_map_of_mem ht), hclosed t ht⟩

/-- What a pattern without negation accepts is made of whole characters of the encoding. -/
theorem compile_wholeCharacters (hfree : Unnegated config text) (ha : compile config text = .ok a)
    (hw : a.accepts w = true) :
    (∃ chars, config.encoding.encodeAll? chars = some w) ∧
      (config.encoding = .ascii → ∀ b ∈ w, b < 0x80) ∧
      (config.encoding = .utf8 → w.toByteArray.IsValidUTF8) := by
  obtain ⟨tree, htree⟩ := exists_readFrom ha
  have hclosed : ∀ t ∈ tree.tokens, t.ClosedUnder Eq := by
    intro t _ texts _ _ text htext text' heq
    rw [List.forall₂_eq_eq_eq] at heq
    exact heq ▸ htext
  have hmatch := (htree.accepts_iff ha w).mp hw
  obtain ⟨chars, hchars, -⟩ :=
    hfree.respects htree (fun _ _ => Eq.symm) hclosed config.encoding true w true hmatch
  refine ⟨⟨chars, hchars⟩, fun hascii => ?_, fun hutf8 => ?_⟩
  · rw [hascii] at hchars
    exact Encoding.forall_mem_of_encodeAll? (fun _ _ => Encoding.encode?_ascii) hchars
  · rw [hutf8] at hchars
    exact ⟨chars, Encoding.toByteArray_of_encodeAll? hchars⟩

/-- The tree of an accented letter and any character, `é.`. -/
def accentTree : Tree .pattern :=
  let letter : Tree .atom := .single .letters ⟨⟨.letters, some (.ofChars ['é']), 0⟩, rfl⟩
  let dot : Tree .atom := .single .dot ⟨⟨.dot, some .dot, 2⟩, rfl⟩
  .pattern <| .firstAlternative <| .firstConjunct <| .plain <|
    .nextItem (.nextItem .emptySequence (.once letter)) (.once dot)

theorem compile_wholeCharacters_accent :
    let a := (Automaton.emptyText.appendTexts {['é']} .utf8).appendCharacter .utf8
    let w : List UInt8 := [0xC3, 0xA9, 0xE2, 0x82, 0xAC]
    Unnegated {} "é." ∧ compile {} "é." = .ok a ∧ a.accepts w = true ∧
      (∃ chars, Encoding.utf8.encodeAll? chars = some w) ∧ w.toByteArray.IsValidUTF8 := by
  have hfree : Unnegated {} "é." := by
    have hkinds : kindsOf (Scanner.tokens {} "é.") = [.letters, .dot] := by decide +kernel
    simp [Unnegated, hkinds]
  have htree : accentTree.ReadFrom {} "é." := ⟨⟨.eof, none, 3⟩, by decide +kernel⟩
  have ha : compile {} "é." =
      .ok ((Automaton.emptyText.appendTexts {['é']} .utf8).appendCharacter .utf8) := by
    rw [htree.compile_eq]
    decide +kernel
  have hw : ((Automaton.emptyText.appendTexts {['é']} .utf8).appendCharacter .utf8).accepts
      [0xC3, 0xA9, 0xE2, 0x82, 0xAC] = true := by decide +kernel
  obtain ⟨hchars, -, hvalid⟩ := compile_wholeCharacters hfree ha hw
  exact ⟨hfree, ha, hw, hchars, hvalid rfl⟩

end

end PatternAutomata
