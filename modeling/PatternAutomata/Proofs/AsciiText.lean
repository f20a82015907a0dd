import PatternAutomata.Proofs.Exchange
import PatternAutomata.Proofs.Scanner.Reencoding

/-!
# ASCII inputs

A pattern may match different texts under different encodings, and with different bytes. But of byte
strings without bytes from 0x80 on it matches the same under every encoding.
-/
namespace PatternAutomata

open List (Forall₂)

variable {e e' : Encoding} {p p' q q' : Meaning}

namespace Meaning

/-- Whether two meanings match the same ASCII pieces. -/
def SameAscii (p p' : Meaning) : Prop :=
  ∀ atStart w atEnd, (∀ b ∈ w, b < 0x80) → (p atStart w atEnd ↔ p' atStart w atEnd)

theorem SameAscii.refl (p : Meaning) : p.SameAscii p := fun _ _ _ _ => Iff.rfl

theorem SameAscii.whole (h : p.SameAscii p') {w : List UInt8} (hw : ∀ b ∈ w, b < 0x80) :
    p.whole w ↔ p'.whole w := h true w true hw

theorem SameAscii.either (hp : p.SameAscii p') (hq : q.SameAscii q') :
    (p.either q).SameAscii (p'.either q') :=
  fun b w e hw => or_congr (hp b w e hw) (hq b w e hw)

theorem SameAscii.both (hp : p.SameAscii p') (hq : q.SameAscii q') :
    (strings fun w => p.whole w ∧ q.whole w).SameAscii
      (strings fun w => p'.whole w ∧ q'.whole w) :=
  fun _ _ _ hw => and_congr (hp.whole hw) (hq.whole hw)

theorem SameAscii.negation (hp : p.SameAscii p') :
    (strings fun w => ¬ p.whole w).SameAscii (strings fun w => ¬ p'.whole w) :=
  fun _ _ _ hw => not_congr (hp.whole hw)

theorem SameAscii.seq (hp : p.SameAscii p') (hq : q.SameAscii q') :
    (p.seq q).SameAscii (p'.seq q') := by
  intro b w e hw
  refine exists_congr fun u => exists_congr fun v => and_congr_right fun heq => ?_
  rw [heq, List.forall_mem_append] at hw
  exact and_congr (hp b u _ hw.1) (hq _ v e hw.2)

theorem SameAscii.power (hp : p.SameAscii p') (k : Nat) : (p.power k).SameAscii (p'.power k) := by
  induction k with
  | zero => exact SameAscii.refl empty
  | succ k ih => exact ih.seq hp

theorem SameAscii.counted (hp : p.SameAscii p') (least : Nat) (most : Bound) :
    (p.counted least most).SameAscii (p'.counted least most) :=
  fun b w e hw => exists_congr fun k =>
    and_congr_right fun _ => and_congr_right fun _ => hp.power k b w e hw

theorem sameAscii_choice {texts texts' : Texts} (negated : Bool) (h : texts.SameAscii texts') :
    ((Term.choice texts negated).meaning e).SameAscii
      ((Term.choice texts' negated).meaning e') := by
  intro b w atEnd hw
  cases negated with
  | false =>
    refine exists_congr fun text => ?_
    rw [Encoding.encodeAll?_congr e' hw]
    exact and_congr_left fun htext => h text (Encoding.lt_of_encodeAll? htext hw)
  | true =>
    refine exists_congr fun c => ?_
    rw [Encoding.encode?_congr e' hw]
    refine and_congr_right fun hc => not_congr (h [c] ?_)
    exact List.forall_mem_singleton.mpr (Encoding.lt_of_encode? hc hw)

/-- What a term matches does not depend on the encoding, as far as it is ASCII. -/
theorem sameAscii_term (t : Term) : (t.meaning e).SameAscii (t.meaning e') := by
  cases t with
  | choice texts negated => exact sameAscii_choice negated fun _ _ => Iff.rfl
  | dot => exact fun _ _ _ hw => exists_congr fun _ => Encoding.encode?_congr e' hw
  | anchor a => exact SameAscii.refl _
  | count least most => exact SameAscii.refl _

end Meaning

/-- A leaf has its kind, even if some of its texts are other ones. -/
theorem exists_leaf_sameAscii {t : Terminal} {leaf : Leaf t} {us : List Token}
    (h : Forall₂ Token.SameAscii [leaf.1] us) :
    ∃ leaf' : Leaf t, us = [leaf'.1] ∧ leaf.1.SameAscii leaf'.1 := by
  obtain ⟨u, _, hu, hnil, rfl⟩ := List.forall₂_cons_left_iff.mp h
  obtain rfl := List.forall₂_nil_left_iff.mp hnil
  exact ⟨⟨u, hu.terminal.trans leaf.2⟩, rfl, hu⟩

/-- Tokens that differ from those of a tree in texts that are not ASCII have a tree too, and it
matches the same ASCII pieces. -/
theorem Tree.exists_sameAscii (e e' : Encoding) {s : Symbol} (tree : Tree s) {us : List Token}
    (h : Forall₂ Token.SameAscii tree.tokens us) :
    ∃ tree' : Tree s, tree'.tokens = us ∧ (tree.meaning e).SameAscii (tree'.meaning e') := by
  induction tree generalizing us with
  | pattern whole ih =>
    obtain ⟨whole', htokens, hsame⟩ := ih h
    exact ⟨.pattern whole', htokens, hsame⟩
  | firstAlternative c ih =>
    obtain ⟨c', htokens, hsame⟩ := ih h
    exact ⟨.firstAlternative c', htokens, hsame⟩
  | nextAlternative l bar r ihl ihr =>
    obtain ⟨_, rs, rfl, h, hrs⟩ := exists_of_forall₂_append h
    obtain ⟨ls, _, rfl, hls, hbar⟩ := exists_of_forall₂_append h
    obtain ⟨bar', rfl, -⟩ := exists_leaf_sameAscii hbar
    obtain ⟨l', rfl, hl⟩ := ihl hls
    obtain ⟨r', rfl, hr⟩ := ihr hrs
    exact ⟨.nextAlternative l' bar' r', rfl, hl.either hr⟩
  | firstConjunct n ih =>
    obtain ⟨n', htokens, hsame⟩ := ih h
    exact ⟨.firstConjunct n', htokens, hsame⟩
  | nextConjunct l sign r ihl ihr =>
    obtain ⟨_, rs, rfl, h, hrs⟩ := exists_of_forall₂_append h
    obtain ⟨ls, _, rfl, hls, hsign⟩ := exists_of_forall₂_append h
    obtain ⟨sign', rfl, -⟩ := exists_leaf_sameAscii hsign
    obtain ⟨l', rfl, hl⟩ := ihl hls
    obtain ⟨r', rfl, hr⟩ := ihr hrs
    exact ⟨.nextConjunct l' sign' r', rfl, hl.both hr⟩
  | plain s ih =>
    obtain ⟨s', htokens, hsame⟩ := ih h
    exact ⟨.plain s', htokens, hsame⟩
  | negated sign s ih =>
    obtain ⟨_, us, rfl, hsign, hus⟩ := exists_of_forall₂_append h
    obtain ⟨sign', rfl, -⟩ := exists_leaf_sameAscii hsign
    obtain ⟨s', rfl, hs⟩ := ih hus
    exact ⟨.negated sign' s', rfl, hs.negation⟩
  | emptySequence =>
    obtain rfl := List.forall₂_nil_left_iff.mp h
    exact ⟨.emptySequence, rfl, .refl .empty⟩
  | nextItem s i ihs ihi =>
    obtain ⟨ss, is, rfl, hss, his⟩ := exists_of_forall₂_append h
    obtain ⟨s', rfl, hs⟩ := ihs hss
    obtain ⟨i', rfl, hi⟩ := ihi his
    exact ⟨.nextItem s' i', rfl, hs.seq hi⟩
  | once a ih =>
    obtain ⟨a', htokens, hsame⟩ := ih h
    exact ⟨.once a', htokens, hsame⟩
  | counted a count ih =>
    obtain ⟨as, _, rfl, has, hcount⟩ := exists_of_forall₂_append h
    obtain ⟨count', rfl, hsame⟩ := exists_leaf_sameAscii hcount
    obtain ⟨a', rfl, ha⟩ := ih has
    refine ⟨.counted a' count', rfl, ?_⟩
    have hterm := hsame.term
    simp only [meaning]
    generalize count.1.term = term at hterm
    generalize count'.1.term = term' at hterm
    cases hterm with
    | choice negated htexts => exact .refl .nothing
    | refl =>
      split
      · exact ha.counted _ _
      · exact .refl .nothing
  | single k leaf =>
    obtain ⟨leaf', rfl, hsame⟩ := exists_leaf_sameAscii h
    refine ⟨.single k leaf', rfl, ?_⟩
    have hterm := hsame.term
    simp only [meaning]
    generalize leaf.1.term = term at hterm
    generalize leaf'.1.term = term' at hterm
    cases hterm with
    | choice negated htexts => exact Meaning.sameAscii_choice negated htexts
    | refl =>
      split
      · exact Meaning.sameAscii_term _
      · exact .refl .nothing
  | group opening inner closing ih =>
    obtain ⟨_, cs, rfl, h, hclosing⟩ := exists_of_forall₂_append h
    obtain ⟨_, us, rfl, hopening, hus⟩ := exists_of_forall₂_append h
    obtain ⟨opening', rfl, -⟩ := exists_leaf_sameAscii hopening
    obtain ⟨closing', rfl, -⟩ := exists_leaf_sameAscii hclosing
    obtain ⟨inner', rfl, hinner⟩ := ih hus
    exact ⟨.group opening' inner' closing', rfl, hinner⟩

/-! ## Texts that fold evenly -/

/-- Whether `\D`, `\W` and `\S` stand between no brackets of a text. -/
def ComplementFree (config : Config) (text : String) : Prop :=
  ∀ p ∈ (Scanner.ofText config text).pieces, ∀ body, p.2 = '[' :: body →
    mentionsComplement body = false

section
variable {config : Config} {text : String} {a b : Automaton} {w : List UInt8}

/-- Automata of the same pattern under different encodings accept the same byte strings below 0x80.
When case is ignored, this is so unless there are complements between brackets: these leave out what
the encoding cannot write, and an ASCII character may be missing when they are folded. -/
theorem compile_asciiText (hfold : config.caseInsensitive = false ∨ ComplementFree config text)
    (ha : compile config text = .ok a)
    (hb : compile { config with encoding := e } text = .ok b) (hw : ∀ x ∈ w, x < 0x80) :
    a.accepts w = b.accepts w := by
  obtain ⟨tree, htree⟩ := exists_readFrom ha
  obtain ⟨tree', htree'⟩ := exists_readFrom hb
  obtain ⟨last, hscan⟩ := id htree
  obtain ⟨last', hscan'⟩ := id htree'
  have hpieces : ∀ p ∈ (Scanner.ofText config text).pieces, Scanner.FoldsEvenly config p.2 :=
    fun p hp => hfold.imp_right fun hfree => hfree p hp
  have htokens : Forall₂ Token.SameAscii tree.tokens tree'.tokens :=
    Scanner.scan_sameAscii (s := .ofText config text)
      (z := .ofText { config with encoding := e } text) rfl rfl hscan hscan' hpieces
  obtain ⟨twin, htwin, hsame⟩ := tree.exists_sameAscii config.encoding e htokens
  have htwin : twin.ReadFrom { config with encoding := e } text := ⟨last', by rw [hscan', htwin]⟩
  rw [Bool.eq_iff_iff, htree.accepts_iff ha, htwin.accepts_iff hb]
  exact hsame.whole hw

/-- The tree of a letter that is not ASCII or anything but one that is, `ß|!a`. -/
def ligatureTree : Tree .pattern :=
  let ligature : Tree .atom := .single .letters ⟨⟨.letters, some (.ofChars ['ß']), 0⟩, rfl⟩
  let plain : Tree .atom := .single .letters ⟨⟨.letters, some (.ofChars ['a']), 4⟩, rfl⟩
  .pattern <| .nextAlternative
    (.firstAlternative <| .firstConjunct <| .plain <| .nextItem .emptySequence (.once ligature))
    ⟨⟨.pipe, none, 2⟩, rfl⟩
    (.firstConjunct <| .negated ⟨⟨.bang, none, 3⟩, rfl⟩ <| .nextItem .emptySequence (.once plain))

/-- ASCII has no bytes for the ligature, and UTF-8 has two. -/
theorem compile_asciiText_ligature : ∃ (limit : Nat) (a b : Automaton),
    let config : Config := { encoding := .ascii, sizeLimit := limit }
    config.caseInsensitive = false ∧ compile config "ß|!a" = .ok a ∧
      compile { config with encoding := .utf8 } "ß|!a" = .ok b ∧
      a.accepts [0x61, 0x62] = b.accepts [0x61, 0x62] := by
  have htree : ligatureTree.ReadFrom { encoding := .ascii } "ß|!a" :=
    ⟨⟨.eof, none, 5⟩, by decide +kernel⟩
  have htree' : ligatureTree.ReadFrom { encoding := .utf8 } "ß|!a" :=
    ⟨⟨.eof, none, 5⟩, by decide +kernel⟩
  obtain ⟨m, hm⟩ := htree.exists_compile
  obtain ⟨n, hn⟩ := htree'.exists_compile
  obtain ⟨a, ha⟩ := hm (max m n) (Nat.le_max_left m n)
  obtain ⟨b, hb⟩ := hn (max m n) (Nat.le_max_right m n)
  have hw : ∀ x ∈ [0x61, 0x62], (x : UInt8) < 0x80 := by simp
  exact ⟨max m n, a, b, rfl, ha, hb, compile_asciiText (.inl rfl) ha hb hw⟩

end

end PatternAutomata
