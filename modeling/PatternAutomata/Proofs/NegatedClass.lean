import PatternAutomata.Proofs.Automaton.Named
import PatternAutomata.Proofs.Compile
import PatternAutomata.Proofs.Parser.Checked
import PatternAutomata.Proofs.Parser.SizeLimit

/-!
# The automata behind a negated class

A negated class is built from the complement of its texts and of all that is no single character.
What comes of it accepts the single characters that are none of the texts. Three automata are built
on the way, the largest of which is the union that is complemented. The limit of states is applied
to none of them, but to what is left of the last one after pruning: that keeps to the limit wherever
in a pattern the class stands.
-/
namespace PatternAutomata

namespace Automaton

/-- The automata that are built on the way to a character that is none of the texts: all that is no
character, the union of the texts with it, and the complement of that before it is pruned. -/
def exceptStages (texts : Texts) (e : Encoding) : List Automaton :=
  let either := (emptyText.appendTexts texts e).union (nonCharacters e)
  [nonCharacters e, either, either.complement]

theorem exists_named_appendTexts (texts : Texts) (e : Encoding) :
    ∃ name, (emptyText.appendTexts texts e).Named name := by
  unfold appendTexts
  dsimp only
  split
  · exact ⟨_, Named.nothing⟩
  · obtain ⟨word, htrie⟩ := exists_trieOf (texts.encode e)
    exact ⟨_, (htrie.spelled.named htrie.wellFormed).behindEmptyText⟩

theorem exists_complete_nonCharacters (e : Encoding) :
    ∃ next, (nonCharacters e).Complete next := by
  obtain ⟨next, hcomplete, -⟩ :=
    determinize_spec (wellFormed_emptyText.appendCharacter e)
  exact ⟨next, hcomplete.flip⟩

theorem size_nonCharacters (e : Encoding) :
    (nonCharacters e).size = if e = .utf8 then 21 else 3 := by
  cases e <;> decide +kernel

/-- The largest of these automata is the union. -/
theorem size_exceptStages_le (texts : Texts) (e : Encoding) : ∀ a ∈ exceptStages texts e,
    a.size ≤ ((emptyText.appendTexts texts e).union (nonCharacters e)).size := by
  obtain ⟨name, hnamed⟩ := exists_named_appendTexts texts e
  obtain ⟨next, hcomplete⟩ := exists_complete_nonCharacters e
  intro a ha
  simp only [exceptStages, List.mem_cons, List.not_mem_nil, or_false] at ha
  rcases ha with rfl | rfl | rfl
  · rw [size_union]
    omega
  · exact Nat.le_refl _
  · rw [complement, size_flip]
    exact size_determinize_union_le hnamed hcomplete

theorem exceptStages_le_iff (texts : Texts) (e : Encoding) (limit : Nat) :
    (∀ a ∈ exceptStages texts e, a.size ≤ limit) ↔
      1 + (emptyText.appendTexts texts e).size + (if e = .utf8 then 21 else 3) ≤ limit := by
  rw [← size_nonCharacters, ← size_union]
  constructor
  · intro h
    exact h _ (by simp [exceptStages])
  · intro h a ha
    exact (size_exceptStages_le texts e a ha).trans h

end Automaton

open Automaton (characterExcept emptyText exceptStages)

/-- A negated class accepts the characters that the encoding can write and that are none of its
texts. Texts of no or of several characters take nothing away, nor do those that the encoding cannot
write, even when no text is left. -/
theorem accepts_negatedClass (texts : Texts) (e : Encoding) :
    ∃ a, (Term.choice texts true).toAutomaton? e = some a ∧
      (Term.choice texts true).build e = .ok a ∧ a.WellFormed ∧
      ∀ w, a.accepts w = true ↔ ∃ c, e.encode? c = some w ∧ [c] ∉ texts := by
  have hwf := Automaton.wellFormed_characterExcept texts e
  refine ⟨characterExcept texts e, rfl, ?_, hwf, fun w => ?_⟩
  · rw [Term.build, Automaton.characterExcept?_eq, found]
  · rw [Automaton.accepts_iff, Automaton.meaning_characterExcept]
    rfl

/-! ## A negated class by itself -/

variable {config : Config} {text : String} {texts : Texts}

/-- The tree of a single letter, class or quoted text. -/
def Tree.ofLetters (leaf : Leaf .letters) : Tree .pattern :=
  .pattern <| .firstAlternative <| .firstConjunct <| .plain <| .nextItem .emptySequence <|
    .once <| .single .letters leaf

/-- A negated class by itself compiles as soon as what is left of it fits behind the empty text. -/
theorem negatedClass_compiles_iff {leaf : Leaf .letters}
    (h : (Tree.ofLetters leaf).ReadFrom config text)
    (hterm : leaf.1.term = some (.choice texts true)) :
    (∃ a, compile config text = .ok a) ↔
      1 + (characterExcept texts config.encoding).size ≤ config.sizeLimit := by
  have hone : emptyText.size = 1 := rfl
  rw [h.compile_eq]
  simp only [Tree.result, Tree.ofLetters, Tree.evaluate, hterm, Option.map_some, needed]
  by_cases hempty : config.sizeLimit < emptyText.size
  · simp [guardOperand, Eval.run_bind, hempty]
    omega
  · by_cases hfits :
        config.sizeLimit < emptyText.size + (characterExcept texts config.encoding).size
    · simp [guardOperand, Eval.run_bind, Operand.appendTo, Operand.toAutomaton,
        Term.toAutomaton?, hempty, hfits]
      omega
    · simp [guardOperand, Eval.run_bind, Operand.appendTo, Operand.toAutomaton,
        Term.toAutomaton?, hempty, hfits]
      omega

/-- Any character of ASCII but one, read from its token. -/
def notA : Leaf .letters := ⟨⟨.letters, some (.choice {['a']} true), 0⟩, rfl⟩

theorem readFrom_notA (limit : Nat) :
    (Tree.ofLetters notA).ReadFrom { encoding := .ascii, sizeLimit := limit } "[^a]" := by
  have hscan : (Scanner.ofText { encoding := .ascii } "[^a]").scan =
      ((Tree.ofLetters notA).tokens, .ok ⟨.eof, none, 4⟩) := by decide +kernel
  exact Tree.ReadFrom.withSizeLimit ⟨_, hscan⟩ limit

theorem mem_tokens_notA (limit : Nat) :
    notA.1 ∈ Scanner.tokens { encoding := .ascii, sizeLimit := limit } "[^a]" := by
  obtain ⟨last, hscan⟩ := readFrom_notA limit
  rw [Scanner.tokens, hscan]
  exact List.mem_singleton.mpr rfl

/-! ## Negated classes in a pattern -/

section
variable {η : Type}

namespace NegatedClass
open Eval (ensures_bind ensures_lift ensures_of_forall)

variable {limit : Nat} {e : Encoding} {hook : Hook η}

/-- Whether a negated class was built within the limit, or is still to be built: a class by itself
may be repeated, so its term is handed on that far. -/
def Handled (limit : Nat) (e : Encoding) (texts : Texts) (s : Symbol) (v : Operand) : Prop :=
  (s = .atom ∨ s = .item) ∧ v = .term (.choice texts true) ∨ (characterExcept texts e).size ≤ limit

theorem Handled.size_le {s : Symbol} {v : Operand} (h : Handled limit e texts s v)
    (hs : ¬ (s = .atom ∨ s = .item)) : (characterExcept texts e).size ≤ limit :=
  h.resolve_left fun hclass => hs hclass.1

/-- Whatever is done with a part that is larger than an item, a class in it was built before. -/
theorem ensures_handled {s s' : Symbol} {x : Eval η Operand} {f : Operand → Eval η Operand}
    (hx : x.Ensures (Handled limit e texts s)) (hs : ¬ (s = .atom ∨ s = .item)) :
    (x >>= f).Ensures (Handled limit e texts s') :=
  hx.bind fun _ hv => ensures_of_forall _ fun _ => .inr (hv.size_le hs)

/-- A class that is not repeated is put behind what stands before it, and both are counted. -/
theorem size_le_of_appended {a b : Automaton} {v : Operand}
    (hb : (Operand.term (.choice texts true)).appendTo a e = .ok b)
    (hv : guardOperand limit (.automaton b) = .ok v) : (characterExcept texts e).size ≤ limit := by
  obtain rfl : a.concat (characterExcept texts e) = b := Except.ok.inj hb
  have hsize := (guardOperand_eq_ok hv).2 _ rfl
  rw [Automaton.size_concat] at hsize
  exact (Nat.le_add_left _ _).trans hsize

/-- The estimate counts a class once at least, even if it is repeated no times. -/
theorem size_le_of_repeated (hlimit : limit < Automaton.sizeCeiling) {count : Operand}
    {a : Automaton} (h : repeatOperand limit e (.term (.choice texts true)) count = .ok a) :
    (characterExcept texts e).size ≤ limit := by
  unfold repeatOperand at h
  cases hcount : repetitionBounds count with
  | error err => simp [hcount, error_bind] at h
  | ok bounds =>
    obtain ⟨least, most⟩ := bounds
    simp only [hcount, ok_bind, Operand.toAutomaton, Term.toAutomaton?, guardSize] at h
    split at h
    · cases h
    · next hestimate =>
      have hcopies := Nat.le_mul_of_pos_right ((characterExcept texts e).size + 2)
        (Nat.le_max_right (Automaton.copiesHeld least most) 1)
      unfold Automaton.repetitionEstimate at hestimate
      omega

/-- Wherever a negated class stands in a tree, it is built within the limit or handed on. It is
built where its states come to be counted: when it joins a sequence, or when it is repeated. -/
theorem handled_of_mem_tokens (hlimit : limit < Automaton.sizeCeiling) {t : Token}
    (hletters : t.terminal = .letters) (hterm : t.term = some (.choice texts true)) {s : Symbol}
    (tree : Tree s) (ht : t ∈ tree.tokens) :
    (tree.evaluate limit e hook).Ensures (Handled limit e texts s) := by
  have hsign {k : Terminal} (leaf : Leaf k) (hk : k ≠ .letters) : t ≠ leaf.1 := by
    rintro rfl
    exact hk (leaf.2.symm.trans hletters)
  induction tree with
  | emptySequence => simp [Tree.tokens] at ht
  | single k leaf =>
    obtain rfl : t = leaf.1 := by simpa [Tree.tokens] using ht
    simp only [Tree.evaluate, hterm, Option.map_some, needed, Eval.lift_ok_bind]
    exact ensures_lift fun v hv => .inl ⟨.inl rfl, (guardOperand_eq_ok hv).1⟩
  | once a ih =>
    refine (ih ht).bind fun v hv => ensures_lift fun w hw => ?_
    obtain rfl := (guardOperand_eq_ok hw).1
    exact hv.imp_left fun hclass => ⟨.inr rfl, hclass.2⟩
  | counted a count ih =>
    have ht : t ∈ a.tokens := by simpa [Tree.tokens, hsign count (by decide)] using ht
    refine (ih ht).bind fun v hv => ?_
    obtain ⟨-, rfl⟩ | hsize := hv
    · refine ensures_bind _ fun count => ?_
      refine (ensures_lift fun a ha => size_le_of_repeated hlimit ha).bind fun a hsize => ?_
      exact ensures_of_forall _ fun _ => .inr hsize
    · exact ensures_of_forall _ fun _ => .inr hsize
  | nextItem s i ihs ihi =>
    rw [Tree.tokens, List.mem_append] at ht
    rcases ht with ht | ht
    · exact ensures_handled (ihs ht) (by decide)
    · refine ensures_bind _ fun v => (ihi ht).bind fun item hitem => ?_
      obtain ⟨-, rfl⟩ | hsize := hitem
      · refine ensures_bind _ fun a => (ensures_lift fun b hb => hb).bind fun b hb => ?_
        exact ensures_lift fun w hw => .inr (size_le_of_appended hb hw)
      · exact ensures_of_forall _ fun _ => .inr hsize
  | pattern whole ih | firstAlternative whole ih | firstConjunct whole ih | plain whole ih =>
    exact ensures_handled (ih ht) (by decide)
  | negated sign s ih =>
    have ht : t ∈ s.tokens := by simpa [Tree.tokens, hsign sign (by decide)] using ht
    exact ensures_handled (ih ht) (by decide)
  | group opening inner closing ih =>
    have ht : t ∈ inner.tokens := by
      simpa [Tree.tokens, hsign opening (by decide), hsign closing (by decide)] using ht
    exact ensures_handled (ih ht) (by decide)
  | nextAlternative l sign r ihl ihr | nextConjunct l sign r ihl ihr =>
    have ht : t ∈ l.tokens ∨ t ∈ r.tokens := by simpa [Tree.tokens, hsign sign (by decide)] using ht
    rcases ht with ht | ht
    · exact ensures_handled (ihl ht) (by decide)
    · exact ensures_bind _ fun _ => ensures_handled (ihr ht) (by decide)

end NegatedClass

end

variable {a : Automaton} {t : Token}

/-- What is left of a negated class keeps to the limit, whatever the pattern around it. -/
theorem size_characterExcept_le (h : compile config text = .ok a)
    (hlimit : config.sizeLimit < Automaton.sizeCeiling) (ht : t ∈ Scanner.tokens config text)
    (hletters : t.terminal = .letters) (hterm : t.term = some (.choice texts true)) :
    (characterExcept texts config.encoding).size ≤ config.sizeLimit := by
  obtain ⟨tree, hread⟩ := exists_readFrom h
  obtain ⟨last, hscan⟩ := id hread
  rw [Scanner.tokens, hscan] at ht
  have hhandled : (tree.evaluate config.sizeLimit config.encoding
      fun a (_ : Unit) => (a, ())).Ensures
        (NegatedClass.Handled config.sizeLimit config.encoding texts _) :=
    NegatedClass.handled_of_mem_tokens hlimit hletters hterm tree ht
  have hresult : (tree.result config.sizeLimit config.encoding fun a (_ : Unit) => (a, ())).Ensures
      fun _ => (characterExcept texts config.encoding).size ≤ config.sizeLimit :=
    hhandled.bind fun v hv => Eval.ensures_of_forall _ fun _ => hv.size_le (by decide)
  exact hresult () a (hread.compile_eq ▸ h)

/-- In a pattern that compiles, what is left of a negated class after pruning keeps to the limit.
All that is built on the way keeps to it only if there is room for the union of its texts with what
is no character, of which the latter has a fixed size. -/
theorem negatedClass_limits (h : compile config text = .ok a)
    (hlimit : config.sizeLimit < Automaton.sizeCeiling) (ht : t ∈ Scanner.tokens config text)
    (hletters : t.terminal = .letters) (hterm : t.term = some (.choice texts true)) :
    (characterExcept texts config.encoding).size ≤ config.sizeLimit ∧
      ((∀ stage ∈ exceptStages texts config.encoding, stage.size ≤ config.sizeLimit) ↔
        1 + (emptyText.appendTexts texts config.encoding).size +
          (if config.encoding = .utf8 then 21 else 3) ≤ config.sizeLimit) :=
  ⟨size_characterExcept_le h hlimit ht hletters hterm,
    Automaton.exceptStages_le_iff texts config.encoding config.sizeLimit⟩

/-- The union has seven states, and with room for it all three automata keep to the limit. -/
theorem negatedClass_limits_seven :
    notA.1 ∈ Scanner.tokens { encoding := .ascii, sizeLimit := 7 } "[^a]" ∧
      notA.1.terminal = .letters ∧ notA.1.term = some (.choice {['a']} true) ∧
      7 < Automaton.sizeCeiling ∧
      ∃ a, compile { encoding := .ascii, sizeLimit := 7 } "[^a]" = .ok a ∧
        (characterExcept {['a']} .ascii).size ≤ 7 ∧
        ∀ stage ∈ exceptStages {['a']} .ascii, stage.size ≤ 7 := by
  obtain ⟨a, ha⟩ := (negatedClass_compiles_iff (readFrom_notA 7) rfl).mpr (by decide +kernel)
  have hlimits := negatedClass_limits ha (by decide) (mem_tokens_notA 7) rfl rfl
  have hstages := hlimits.2.mpr (by decide +kernel)
  exact ⟨mem_tokens_notA 7, rfl, rfl, by decide, a, ha, hlimits.1, hstages⟩

/-- Under a limit of three states the class compiles all the same, though the union has seven and
its complement four. -/
theorem exceptStages_exceed :
    (∃ a, compile { encoding := .ascii, sizeLimit := 3 } "[^a]" = .ok a) ∧
      notA.1 ∈ Scanner.tokens { encoding := .ascii, sizeLimit := 3 } "[^a]" ∧
      (exceptStages {['a']} .ascii).map Automaton.size = [3, 7, 4] ∧
      ¬ ∀ stage ∈ exceptStages {['a']} .ascii, stage.size ≤ 3 := by
  have hcompiles := (negatedClass_compiles_iff (readFrom_notA 3) rfl).mpr (by decide +kernel)
  exact ⟨hcompiles, mem_tokens_notA 3, by decide +kernel, by decide +kernel⟩

end PatternAutomata
