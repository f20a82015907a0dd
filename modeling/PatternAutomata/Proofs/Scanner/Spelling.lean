import PatternAutomata.Proofs.Scanner.Bounds
import PatternAutomata.Proofs.Scanner.NumericEscape

/-!
# Canonical spellings and their readers

How escapes, the members of a class, quoted texts and the bounds of a count are written, and that
their readers read back what was written. Every spelling has an end of its own, so a reader takes
exactly the spelling, whatever follows.
-/
namespace PatternAutomata

/-- Whether reading succeeds with `v` and leaves `rest` of the text. -/
def Read.Yields {α : Type} (v : α) (rest : List Char) (read : Read α) : Prop :=
  ∃ after, read = (.ok v, after) ∧ after.rest = rest

section
variable {α : Type} (origin : Nat) {offset : Nat} {cur : Cursor} {rest : List Char} {c : Char}

theorem Read.Yields.map {β : Type} {v : α} {read : Read α} (h : read.Yields v rest) (f : α → β) :
    Read.Yields (f v) rest ((read.1.map f, read.2) : Read β) := by
  obtain ⟨after, rfl, hrest⟩ := h
  exact ⟨after, rfl, hrest⟩

/-! ## Escapes -/

/-- The escape of a character by its number. -/
def codepointSpelling (c : Char) : List Char :=
  '\\' :: 'u' :: '\x7b' :: Nat.toDigits 16 c.toNat ++ ['\x7d']

theorem readEscape_punctuation (hc : isPunctuation c = true) (hr : cur.rest = c :: rest) :
    (readEscape origin cur).Yields (.char c) rest := by
  refine ⟨cur.past c rest, ?_, rfl⟩
  unfold readEscape
  rw [hr]
  dsimp only
  split
  case h_15 => rw [if_pos (by simp [hc])]
  all_goals exact absurd hc (by decide)

theorem readEscape_codepoint
    (hr : cur.rest = 'u' :: '\x7b' :: (Nat.toDigits 16 c.toNat ++ '\x7d' :: rest)) :
    (readEscape origin cur).Yields (.char c) rest := by
  have hnumeric := NumericEscape.braced (hexNumeral_toDigits c.toNat)
  refine ⟨⟨rest, _⟩, readEscape_of_numericEscape hnumeric ⟨?_, rfl⟩, rfl⟩
  simpa using hr

theorem readMember_codepoint (hr : cur.rest = codepointSpelling c ++ rest) :
    (readMember origin cur).Yields (.char c) rest := by
  have hrest : cur.rest = '\\' :: 'u' :: '\x7b' :: (Nat.toDigits 16 c.toNat ++ '\x7d' :: rest) := by
    simpa [codepointSpelling] using hr
  simp only [readMember, hrest]
  exact readEscape_codepoint cur.offset rfl

/-! ## Classes -/

theorem readItem_codepoint {e : Encoding} (hr : cur.rest = codepointSpelling c ++ rest)
    (hrest : rest.head? ≠ some '-') : (readItem e origin cur).Yields [⟨c, c⟩] rest := by
  obtain ⟨after, hmember, rfl⟩ := readMember_codepoint origin hr
  simp only [readItem, hmember, readRangeEnd_alone (not_rangeNext_of_head hrest)]
  exact ⟨after, rfl, rfl⟩

/-- No member is followed by a hyphen, so none is taken for the beginning of a range. -/
theorem head_members_ne_dash (cs : List Char) (rest : List Char) :
    (cs.flatMap codepointSpelling ++ ']' :: rest).head? ≠ some '-' := by
  cases cs with
  | nil => simp
  | cons c cs => simp [codepointSpelling]

theorem readItems_codepoints {e : Encoding} {rs : List CharRange} {cs : List Char}
    (hr : cur.rest = cs.flatMap codepointSpelling ++ ']' :: rest) :
    (readItems e origin rs cur).Yields ((cs.map fun c => ⟨c, c⟩).reverse ++ rs) rest := by
  induction cs generalizing cur rs with
  | nil => exact ⟨_, readItems_close hr, rfl⟩
  | cons c cs ih =>
    rw [List.flatMap_cons, List.append_assoc] at hr
    obtain ⟨after, hitem, hafter⟩ :=
      readItem_codepoint origin (e := e) hr (head_members_ne_dash cs rest)
    have hhead : cur.rest = '\\' :: cur.rest.tail := by simp [hr, codepointSpelling]
    rw [readItems_item hhead (by decide), hitem]
    have := @ih _ ([⟨c, c⟩] ++ rs) hafter
    simpa using this

theorem termOfClass_singles {config : Config} {cs : List Char}
    (hfold : config.caseInsensitive = false) (hcs : cs.length ≤ config.classLimit)
    (negated : Bool) :
    Scanner.termOfClass config origin (.ofRanges (cs.map fun c => ⟨c, c⟩).reverse) negated =
      .ok (.choice (Std.ExtTreeSet.ofList (cs.map fun c => [c])) negated) := by
  have hsize := CharClass.size_ofSingles_le cs.reverse
  rw [List.length_reverse] at hsize
  rw [← List.map_reverse, Scanner.termOfClass]
  simp only [hfold, Bool.false_eq_true, if_false]
  rw [if_neg (by omega)]
  congr 2
  apply Std.ExtTreeSet.ext_mem
  intro text
  simp only [Std.ExtTreeSet.mem_ofList, List.contains_iff_mem, List.mem_map,
    CharClass.mem_chars_ofSingles, List.mem_reverse]

/-- The members of a class between the brackets. -/
def classSpelling (members : List Char) (negated : Bool) : List Char :=
  (if negated then ['^'] else []) ++ members.flatMap codepointSpelling

theorem readClass_spelling {config : Config} {cs : List Char} {negated : Bool}
    (hfold : config.caseInsensitive = false) (hne : cs ≠ []) (hcs : cs.length ≤ config.classLimit)
    (hr : cur.rest = classSpelling cs negated ++ ']' :: rest) :
    (Scanner.readClass config origin cur).Yields
      (.choice (Std.ExtTreeSet.ofList (cs.map fun c => [c])) negated) rest := by
  have hopen : (Scanner.openClass cur).1 = negated ∧
      (Scanner.openClass cur).2.rest = cs.flatMap codepointSpelling ++ ']' :: rest := by
    cases negated with
    | true => simp [Scanner.openClass, hr, classSpelling, Cursor.past]
    | false =>
      cases cs with
      | nil => exact absurd rfl hne
      | cons c cs => simp [Scanner.openClass, hr, classSpelling, codepointSpelling]
  have hitems : (readItems config.encoding origin [] (Scanner.openClass cur).2).Yields
      (cs.map fun c => ⟨c, c⟩).reverse rest := by
    have := @readItems_codepoints origin _ rest config.encoding [] _ hopen.2
    rwa [List.append_nil] at this
  obtain ⟨after, hitems, hafter⟩ := hitems
  have hterm := termOfClass_singles origin hfold hcs negated
  refine ⟨after, ?_, hafter⟩
  simp only [Scanner.readClass, hitems, hopen.1]
  split
  · next h => cases h
  · next h => simp_all
  · next h =>
    obtain ⟨hranges, rfl⟩ := Prod.mk.inj h
    rw [← Except.ok.inj hranges, hterm]

/-! ## Quoted texts -/

/-- A character between quotation marks. -/
def quotedSpelling (c : Char) : List Char := if c = '"' ∨ c = '\\' then ['\\', c] else [c]

theorem readQuoted_spelling {text read : List Char}
    (hr : cur.rest = text.flatMap quotedSpelling ++ '"' :: rest) :
    (readQuoted origin read cur).Yields (read.reverse ++ text) rest := by
  induction text generalizing cur read with
  | nil =>
    rw [readQuoted_close hr, List.append_nil]
    exact ⟨_, rfl, rfl⟩
  | cons c text ih =>
    rw [List.flatMap_cons, List.append_assoc] at hr
    have hfurther {after : Cursor} (h : after.rest = text.flatMap quotedSpelling ++ '"' :: rest) :
        (readQuoted origin (c :: read) after).Yields (read.reverse ++ c :: text) rest := by
      simpa using @ih after (c :: read) h
    by_cases hc : c = '"' ∨ c = '\\'
    · rw [quotedSpelling, if_pos hc, List.cons_append, List.singleton_append] at hr
      have hpunctuation : isPunctuation c = true := by
        rcases hc with rfl | rfl <;> rfl
      rw [readQuoted_escape hr]
      obtain ⟨after, hescape, hafter⟩ :=
        @readEscape_punctuation cur.offset (cur.past '\\' _) _ _ hpunctuation rfl
      rw [hescape]
      exact hfurther hafter
    · rw [quotedSpelling, if_neg hc] at hr
      rw [readQuoted_char hr (fun h => hc (.inl h)) (fun h => hc (.inr h))]
      exact hfurther rfl

/-! ## Counts -/

/-- The bounds of a count between the braces. -/
def boundsSpelling (least : Nat) : Bound → List Char
  | .finite most =>
    if most = least then Nat.toDigits 10 least
    else Nat.toDigits 10 least ++ ',' :: Nat.toDigits 10 most
  | .infinity => Nat.toDigits 10 least ++ [',']

theorem countBody_boundsSpelling (least : Nat) (most : Bound) :
    CountBody (boundsSpelling least most ++ ['\x7d']) least most := by
  cases most with
  | infinity => simpa [boundsSpelling] using CountBody.atLeast (numeral_toDigits least)
  | finite n =>
    by_cases hn : n = least
    · subst hn
      simpa [boundsSpelling] using CountBody.exactly (numeral_toDigits n)
    · simpa [boundsSpelling, hn] using
        CountBody.between (numeral_toDigits least) (numeral_toDigits n)

end

end PatternAutomata
