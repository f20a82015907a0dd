import PatternAutomata.Proofs.CaseFold
import PatternAutomata.Proofs.Exchange
import PatternAutomata.Proofs.Scanner.Pieces

/-!
# Patterns that ignore case

When case is ignored, what a letter, a class or a shorthand stands for is closed under exchange of
characters that agree up to case. Only quoted texts stand for themselves. So without quoted texts
and negation the whole pattern ignores case.
-/
namespace PatternAutomata

open List (Forall₂)

/-- The single characters of a folded class. -/
theorem Texts.closedUnder_foldCase (s : CharClass) :
    Texts.ClosedUnder (agreeUpToCase · ·)
      (Std.ExtTreeSet.ofList (s.foldCase.chars.map fun c => [c])) := by
  intro text htext text' hagree
  simp only [Std.ExtTreeSet.mem_ofList, List.contains_iff_mem, List.mem_map,
    CharClass.mem_chars] at htext ⊢
  obtain ⟨c, hc, rfl⟩ := htext
  obtain ⟨d, _, hcd, hnil, rfl⟩ := List.forall₂_cons_left_iff.mp hagree
  obtain rfl := List.forall₂_nil_left_iff.mp hnil
  exact ⟨d, CharClass.foldCase_closed hcd hc, rfl⟩

namespace Scanner
variable {config : Config} {origin : Nat} {cur : Cursor} {texts : Texts} {negated : Bool}
  (hfold : config.caseInsensitive = true)
include hfold

theorem closedUnder_termOfLetter {c : Char} (h : termOfLetter config c = .choice texts negated) :
    texts.ClosedUnder (agreeUpToCase · ·) := by
  rw [termOfLetter, if_pos hfold] at h
  obtain ⟨rfl, -⟩ := Term.choice.inj h
  exact Texts.closedUnder_foldCase _

theorem closedUnder_termOfClass {members : CharClass} {inverted : Bool}
    (h : termOfClass config origin members inverted = .ok (.choice texts negated)) :
    texts.ClosedUnder (agreeUpToCase · ·) := by
  simp only [termOfClass, if_pos hfold] at h
  split at h
  · cases h
  · obtain ⟨rfl, -⟩ := Term.choice.inj (Except.ok.inj h)
    exact Texts.closedUnder_foldCase _

theorem closedUnder_readClass (h : (readClass config origin cur).1 = .ok (.choice texts negated)) :
    texts.ClosedUnder (agreeUpToCase · ·) := by
  unfold readClass at h
  dsimp only at h
  split at h
  · cases h
  · cases h
  · exact closedUnder_termOfClass hfold h

theorem closedUnder_readEscaped
    (h : (readEscaped config origin cur).1 = .ok (.choice texts negated)) :
    texts.ClosedUnder (agreeUpToCase · ·) := by
  unfold readEscaped at h
  split at h
  · cases h
  · exact closedUnder_termOfLetter hfold (Except.ok.inj h)
  · exact closedUnder_termOfClass hfold h

omit hfold in
/-- Only a quoted text stands for itself. -/
theorem closedUnder_next {s : Scanner} {t : Token} (hfold : s.config.caseInsensitive = true)
    (hquote : s.cursor.rest.head? ≠ some '"') (h : s.next.1 = .ok t) :
    t.ClosedUnder (agreeUpToCase · ·) := by
  intro texts negated hterm
  unfold next at h
  dsimp only at h
  split at h
  · obtain rfl := Except.ok.inj h
    cases hterm
  · next c rest hr =>
    split at h
    case h_4 =>
      split at h
      · cases h
      · obtain rfl := Except.ok.inj h
        cases hterm
    case h_12 =>
      obtain ⟨term, hread, rfl⟩ := of_map_eq_ok h
      obtain ⟨least, most, rfl, -⟩ := of_readCount hread
      cases hterm
    case h_13 =>
      obtain ⟨term, hread, rfl⟩ := of_map_eq_ok h
      obtain rfl := Option.some.inj hterm
      exact closedUnder_readClass hfold hread
    case h_14 => exact absurd (by rw [hr]; rfl) hquote
    case h_15 =>
      obtain ⟨term, hread, rfl⟩ := of_map_eq_ok h
      obtain rfl := Option.some.inj hterm
      exact closedUnder_readEscaped hfold hread
    case h_16 =>
      obtain rfl := Except.ok.inj h
      exact closedUnder_termOfLetter hfold (Option.some.inj hterm)
    all_goals
      obtain rfl := Except.ok.inj h
      cases hterm

end Scanner

/-! ## Texts without quoted texts -/

/-- Whether a text has no quoted texts in it. -/
def Unquoted (config : Config) (text : String) : Prop :=
  ∀ p ∈ (Scanner.ofText config text).pieces, p.2.head? ≠ some '"'

section
variable {config : Config} {text : String} {tree : Tree .pattern} {a : Automaton} {s t : List Char}
  {u v : List UInt8}

theorem Unquoted.closedUnder (hunquoted : Unquoted config text)
    (hfold : config.caseInsensitive = true) (h : tree.ReadFrom config text) :
    ∀ t ∈ tree.tokens, t.ClosedUnder (agreeUpToCase · ·) := by
  obtain ⟨last, hscan⟩ := h
  intro t ht
  have hpieces := Scanner.map_fst_pieces (.ofText config text)
  rw [hscan] at hpieces
  have ht : t ∈ (Scanner.ofText config text).pieces.map Prod.fst := hpieces ▸ ht
  obtain ⟨⟨_, piece⟩, hmem, rfl⟩ := List.mem_map.mp ht
  obtain ⟨z, z', hconfig, hnext, hreach, hne⟩ := Scanner.exists_next_of_mem_pieces hmem
  obtain ⟨c, cs, rfl⟩ := List.exists_cons_of_ne_nil hne
  have hhead : z.cursor.rest.head? ≠ some '"' := by
    rw [hreach.1]
    exact hunquoted _ hmem
  have hfold : z.config.caseInsensitive = true := hconfig ▸ hfold
  exact Scanner.closedUnder_next hfold hhead (congrArg Prod.fst hnext)

/-- A pattern without quoted texts and negation that is to ignore case accepts one of two texts that
agree up to case exactly if it accepts the other one, however many bytes their characters take. -/
theorem compile_ignoresCase (hfold : config.caseInsensitive = true)
    (hfree : Unnegated config text) (hunquoted : Unquoted config text)
    (ha : compile config text = .ok a) (hagree : Forall₂ (agreeUpToCase · ·) s t)
    (hu : config.encoding.encodeAll? s = some u) (hv : config.encoding.encodeAll? t = some v) :
    a.accepts u = true ↔ a.accepts v = true := by
  obtain ⟨tree, htree⟩ := exists_readFrom ha
  have hrespects := hfree.respects htree (fun _ _ => agreeUpToCase_symm)
    (hunquoted.closedUnder hfold htree) config.encoding
  have hback : Forall₂ (agreeUpToCase · ·) t s :=
    (hagree.imp fun _ _ => agreeUpToCase_symm).flip
  rw [htree.accepts_iff ha, htree.accepts_iff ha]
  constructor
  · intro hmatch
    obtain ⟨text, htext, hexchange⟩ := hrespects true u true hmatch
    obtain rfl := Encoding.eq_of_encodeAll? hu htext
    exact hexchange t v hagree hv
  · intro hmatch
    obtain ⟨text, htext, hexchange⟩ := hrespects true v true hmatch
    obtain rfl := Encoding.eq_of_encodeAll? hv htext
    exact hexchange s u hback hu

/-- The tree of the letter `k` by itself. -/
def kTree (config : Config) : Tree .pattern :=
  .pattern <| .firstAlternative <| .firstConjunct <| .plain <| .nextItem .emptySequence <|
    .once <| .single .letters ⟨⟨.letters, some (Scanner.termOfLetter config 'k'), 0⟩, rfl⟩

/-- A small letter of one byte and the sign for a unit of temperature, which has three. -/
theorem compile_ignoresCase_kelvin : ∃ (limit : Nat) (a : Automaton),
    let config : Config := { caseInsensitive := true, sizeLimit := limit }
    config.caseInsensitive = true ∧ Unnegated config "k" ∧ Unquoted config "k" ∧
      compile config "k" = .ok a ∧ Forall₂ (agreeUpToCase · ·) ['k'] ['\u212a'] ∧
      config.encoding.encodeAll? ['k'] = some [0x6B] ∧
      config.encoding.encodeAll? ['\u212a'] = some [0xE2, 0x84, 0xAA] ∧
      a.accepts [0x6B] = true ∧ a.accepts [0xE2, 0x84, 0xAA] = true := by
  have hletter (config : Config) : (Scanner.ofText config "k").next =
      (.ok ⟨.letters, some (Scanner.termOfLetter config 'k'), 0⟩, ⟨config, ⟨[], 1⟩, 0, 0⟩) := rfl
  have hend (config : Config) : Scanner.next ⟨config, ⟨[], 1⟩, 0, 0⟩ =
      (.ok ⟨.eof, none, 1⟩, ⟨config, ⟨[], 1⟩, 0, 0⟩) := rfl
  have hne : Terminal.letters ≠ .eof := by decide
  have hscan (config : Config) :
      (Scanner.ofText config "k").scan = ((kTree config).tokens, .ok ⟨.eof, none, 1⟩) := by
    rw [Scanner.scan_further (hletter config) hne, Scanner.scan_last (hend config) rfl]
    rfl
  have hpieces (config : Config) : (Scanner.ofText config "k").pieces =
      [(⟨.letters, some (Scanner.termOfLetter config 'k'), 0⟩, ['k'])] := by
    have hreach : (Scanner.ofText config "k").cursor.Reaches ['k'] ⟨[], 1⟩ := ⟨rfl, rfl⟩
    rw [Scanner.pieces_further (hletter config) hne hreach, Scanner.pieces_last (hend config) rfl]
  have htree (config : Config) : (kTree config).ReadFrom config "k" := ⟨_, hscan config⟩
  obtain ⟨limit, hlimit⟩ := (htree { caseInsensitive := true }).exists_compile
  obtain ⟨a, ha⟩ := hlimit limit (Nat.le_refl limit)
  have hfree : Unnegated { caseInsensitive := true, sizeLimit := limit } "k" := by
    simp [Unnegated, Scanner.tokens, hscan, kTree, Tree.tokens, kindsOf]
  have hunquoted : Unquoted { caseInsensitive := true, sizeLimit := limit } "k" := by
    simp [Unquoted, hpieces]
  have hagree : Forall₂ (agreeUpToCase · ·) ['k'] ['\u212a'] := .cons (by decide +kernel) .nil
  have hu : Encoding.utf8.encodeAll? ['k'] = some [0x6B] := by decide
  have hv : Encoding.utf8.encodeAll? ['\u212a'] = some [0xE2, 0x84, 0xAA] := by decide
  have hsmall : a.accepts [0x6B] = true := by
    have hmember : (CharClass.singleton 'k').foldCase.contains 'k' = true :=
      CharClass.contains_foldCase.mpr ⟨'k', by decide, agreeUpToCase_iff.mpr rfl⟩
    rw [(htree _).accepts_iff ha]
    simp only [kTree, Tree.meaning, Meaning.empty_seq, Scanner.termOfLetter, if_true, Term.ofChars]
    refine ⟨['k'], ?_, hu⟩
    simpa [CharClass.mem_chars] using hmember
  have hsign := (compile_ignoresCase rfl hfree hunquoted ha hagree hu hv).mp hsmall
  exact ⟨limit, a, rfl, hfree, hunquoted, ha, hagree, hu, hv, hsmall, hsign⟩

end

end PatternAutomata
