import PatternAutomata.Proofs.CharClass
import PatternAutomata.Proofs.Scanner.Pieces

/-!
# Texts under other encodings

Nothing that is read from a text depends on the encoding, except for the complements of shorthands
between brackets: they leave out what the encoding cannot write. No ASCII character is left out.
-/
namespace PatternAutomata

variable {origin : Nat} {cur after : Cursor} {e : Encoding}

/-! ## Complements between brackets -/

/-- Whether `\D`, `\W` or `\S` stands among some characters between brackets. A backslash takes the
next character with it. -/
def mentionsComplement : List Char → Bool
  | '\\' :: c :: rest => c = 'D' || c = 'W' || c = 'S' || mentionsComplement rest
  | _ :: rest => mentionsComplement rest
  | [] => false

/-- Whether an escape stands for all characters but some. -/
def Escape.isComplement : Escape → Bool
  | .char _ => false
  | .shorthand _ negated => negated

theorem mentionsComplement_append {plain : List Char} (h : '\\' ∉ plain) (more : List Char) :
    mentionsComplement (plain ++ more) = mentionsComplement more := by
  induction plain with
  | nil => rfl
  | cons c plain ih =>
    rw [List.mem_cons, not_or] at h
    rw [List.cons_append, mentionsComplement, ih h.2]
    exact fun _ _ hc _ => h.1 hc.symm

theorem ne_backslash_of_hexDigit? {c : Char} {n : Nat} (h : hexDigit? c = some n) : '\\' ≠ c := by
  rintro rfl
  have hnone : hexDigit? '\\' = none := by decide
  rw [hnone] at h
  cases h

theorem readHexPair_taken {c : Char} (h : readHexPair origin cur = (.ok c, after)) :
    ∃ taken, cur.rest = taken ++ after.rest ∧ '\\' ∉ taken := by
  revert h
  fun_cases readHexPair origin cur <;> intro h
  case case5 first high second rest hhigh low hlow hr _ _ =>
    obtain ⟨-, rfl⟩ := Prod.mk.inj h
    refine ⟨[first, second], hr, ?_⟩
    simp [ne_backslash_of_hexDigit? hhigh, ne_backslash_of_hexDigit? hlow]
  all_goals cases h

theorem readHexBraced_taken {value : Nat} {started : Bool} {text : List Char} {offset : Nat}
    {c : Char} (h : readHexBraced origin value started text offset = (.ok c, after)) :
    ∃ taken, text = taken ++ after.rest ∧ '\\' ∉ taken := by
  induction text generalizing value started offset with
  | nil => cases h
  | cons d rest ih =>
    unfold readHexBraced at h
    dsimp only at h
    split at h
    · next hclose =>
      split at h
      · cases h
        exact ⟨[d], rfl, by simp [hclose.1]⟩
      · cases h
    · split at h
      · cases h
      · next hdigit =>
        split at h
        · cases h
        · obtain ⟨taken, rfl, htaken⟩ := ih h
          exact ⟨d :: taken, rfl, by simp [ne_backslash_of_hexDigit? hdigit, htaken]⟩

theorem readCodepoint_taken {c : Char} (h : readCodepoint origin cur = (.ok c, after)) :
    ∃ taken, cur.rest = taken ++ after.rest ∧ '\\' ∉ taken := by
  unfold readCodepoint at h
  split at h
  · next rest hr =>
    obtain ⟨taken, rfl, htaken⟩ := readHexBraced_taken h
    exact ⟨'\x7b' :: taken, hr, by simp [htaken]⟩
  · cases h

/-- What an escape takes mentions a complement exactly if it stands for one. -/
theorem readEscape_taken {m : Escape} (h : readEscape origin cur = (.ok m, after)) :
    ∃ taken, cur.rest = taken ++ after.rest ∧ ∀ more,
      mentionsComplement ('\\' :: (taken ++ more)) = (m.isComplement || mentionsComplement more) := by
  revert h
  fun_cases readEscape origin cur <;> intro h
  case case1 | case17 => cases h
  case case8 rest hr _ _ =>
    obtain ⟨hread, rfl⟩ := Prod.mk.inj h
    obtain ⟨c, hc, rfl⟩ := of_map_eq_ok hread
    obtain ⟨taken, hrest, htaken⟩ := readHexPair_taken (Prod.ext hc rfl)
    refine ⟨'x' :: taken, hr.trans (congrArg _ hrest), fun more => ?_⟩
    simp [mentionsComplement, mentionsComplement_append htaken, Escape.isComplement]
  case case9 rest hr _ _ =>
    obtain ⟨hread, rfl⟩ := Prod.mk.inj h
    obtain ⟨c, hc, rfl⟩ := of_map_eq_ok hread
    obtain ⟨taken, hrest, htaken⟩ := readCodepoint_taken (Prod.ext hc rfl)
    refine ⟨'u' :: taken, hr.trans (congrArg _ hrest), fun more => ?_⟩
    simp [mentionsComplement, mentionsComplement_append htaken, Escape.isComplement]
  case case16 rest c _ _ _ _ _ _ _ _ _ _ _ hD hW hS _ hr _ =>
    obtain ⟨hread, rfl⟩ := Prod.mk.inj h
    obtain rfl := Except.ok.inj hread
    refine ⟨[c], hr, fun more => ?_⟩
    have hother : ¬ ((c = 'D' ∨ c = 'W') ∨ c = 'S') := by
      rintro ((hc | hc) | hc)
      exacts [hD hc, hW hc, hS hc]
    simp [mentionsComplement, Escape.isComplement, hother]
  all_goals
    obtain ⟨hread, rfl⟩ := Prod.mk.inj h
    obtain rfl := Except.ok.inj hread
    exact ⟨[_], ‹cur.rest = _›, fun more => by simp [mentionsComplement, Escape.isComplement]⟩

theorem readMember_taken {m : Escape} (h : readMember origin cur = (.ok m, after)) :
    ∃ taken, cur.rest = taken ++ after.rest ∧ ∀ more,
      mentionsComplement (taken ++ more) = (m.isComplement || mentionsComplement more) := by
  revert h
  fun_cases readMember origin cur <;> intro h
  case case1 => cases h
  case case2 rest hr =>
    obtain ⟨taken, hrest, htaken⟩ := readEscape_taken h
    exact ⟨'\\' :: taken, hr.trans (congrArg _ hrest), htaken⟩
  case case3 c rest hc hr =>
    obtain ⟨hread, rfl⟩ := Prod.mk.inj h
    obtain rfl := Except.ok.inj hread
    have hplain : '\\' ∉ [c] := by simpa using fun heq => hc heq.symm
    exact ⟨[c], hr, fun more => mentionsComplement_append hplain more⟩

/-- There is no complement in a range. -/
theorem readRangeEnd_taken {item : Nat} {lo : Char} {r : CharRange}
    (h : readRangeEnd origin item lo cur = (.ok r, after)) :
    ∃ taken, cur.rest = taken ++ after.rest ∧ ∀ more,
      mentionsComplement (taken ++ more) = mentionsComplement more := by
  revert h
  fun_cases readRangeEnd origin item lo cur <;> intro h
  case case1 | case6 =>
    obtain ⟨-, rfl⟩ := Prod.mk.inj h
    exact ⟨[], rfl, fun more => rfl⟩
  case case5 c rest hr hc hi _ hm _ =>
    obtain ⟨-, rfl⟩ := Prod.mk.inj h
    obtain ⟨taken, hrest, htaken⟩ := readMember_taken hm
    exact ⟨'-' :: taken, hr.trans (congrArg _ hrest), htaken⟩
  all_goals cases h

/-- An item without a complement is the same under every encoding. -/
theorem readItem_taken {item : List CharRange} (h : readItem e origin cur = (.ok item, after)) :
    ∃ taken, cur.rest = taken ++ after.rest ∧ ∀ more, mentionsComplement (taken ++ more) = false →
      mentionsComplement more = false ∧ ∀ e', readItem e' origin cur = (.ok item, after) := by
  rcases hm : readMember origin cur with ⟨_ | ⟨lo⟩ | ⟨members, negated⟩, behind⟩
  · simp [readItem, hm] at h
  · simp only [readItem, hm] at h
    obtain ⟨hread, rfl⟩ := Prod.mk.inj h
    obtain ⟨r, hr, rfl⟩ := of_map_eq_ok hread
    obtain ⟨taken, hrest, htaken⟩ := readMember_taken hm
    obtain ⟨taken', hrest', htaken'⟩ := readRangeEnd_taken (Prod.ext hr rfl)
    refine ⟨taken ++ taken', by rw [hrest, hrest', List.append_assoc], fun more hmore => ?_⟩
    rw [List.append_assoc, htaken, htaken'] at hmore
    refine ⟨hmore, fun e' => ?_⟩
    simp only [readItem, hm, hr]
    rfl
  · simp only [readItem, hm] at h
    obtain ⟨hread, rfl⟩ := Prod.mk.inj h
    obtain ⟨taken, hrest, htaken⟩ := readMember_taken hm
    refine ⟨taken, hrest, fun more hmore => ?_⟩
    rw [htaken, Bool.or_eq_false_iff] at hmore
    obtain ⟨rfl, hmore⟩ : negated = false ∧ _ := hmore
    exact ⟨hmore, fun e' => by simp only [readItem, hm]; rw [← hread]; rfl⟩

/-- Items without a complement are the same under every encoding. -/
theorem readItems_taken {ranges rs : List CharRange}
    (h : readItems e origin ranges cur = (.ok rs, after)) :
    ∃ taken, cur.rest = taken ++ after.rest ∧
      (mentionsComplement taken = false → ∀ e', readItems e' origin ranges cur = (.ok rs, after)) := by
  fun_induction readItems e origin ranges cur with
  | case1 => cases h
  | case2 ranges cur rest hr =>
    obtain ⟨hread, rfl⟩ := Prod.mk.inj h
    refine ⟨[']'], hr, fun _ e' => ?_⟩
    rw [readItems_close hr, hread]
  | case3 => cases h
  | case4 ranges cur c rest hr hc item behind hi ih =>
    obtain ⟨taken, hrest, htaken⟩ := readItem_taken hi
    obtain ⟨taken', hrest', htaken'⟩ := ih h
    refine ⟨taken ++ taken', by rw [hrest, hrest', List.append_assoc], fun hplain e' => ?_⟩
    obtain ⟨hplain', hitem⟩ := htaken taken' hplain
    rw [readItems_item hc hr, hitem e']
    exact htaken' hplain' e'

/-! ## ASCII characters -/

/-- Whether two lists of ranges have the same ASCII characters. -/
def SameAscii (rs rs' : List CharRange) : Prop := ∀ c : Char, c.toNat < 0x80 →
  (CharClass.contains ⟨rs⟩ c = true ↔ CharClass.contains ⟨rs'⟩ c = true)

theorem SameAscii.refl (rs : List CharRange) : SameAscii rs rs := fun _ _ => Iff.rfl

theorem SameAscii.append {rs rs' ss ss' : List CharRange} (hr : SameAscii rs rs')
    (hs : SameAscii ss ss') : SameAscii (rs ++ ss) (rs' ++ ss') := by
  intro c hc
  have hr := hr c hc
  have hs := hs c hc
  unfold CharClass.contains at hr hs ⊢
  simp only [List.any_append, Bool.or_eq_true, hr, hs]

/-- What an encoding leaves out of a complement is not ASCII. -/
theorem sameAscii_shorthandRanges (e e' : Encoding) (members : CharClass) (negated : Bool) :
    SameAscii (shorthandRanges e members negated) (shorthandRanges e' members negated) := by
  have hlast (e : Encoding) (c : Char) (hc : c.toNat < 0x80) : c ≤ e.lastChar := by
    have hle : 0x7F ≤ e.lastChar.toNat := by cases e <;> decide
    rw [char_le_iff]
    omega
  cases negated with
  | false => exact SameAscii.refl _
  | true =>
    intro c hc
    change (CharClass.upTo _ _).contains c = true ↔ (CharClass.upTo _ _).contains c = true
    simp only [CharClass.contains_upTo, hlast e c hc, hlast e' c hc]

theorem readItem_sameAscii {item : List CharRange} (h : readItem e origin cur = (.ok item, after))
    (e' : Encoding) : ∃ item', readItem e' origin cur = (.ok item', after) ∧
      SameAscii item item' := by
  rcases hm : readMember origin cur with ⟨_ | ⟨lo⟩ | ⟨members, negated⟩, behind⟩
  · simp [readItem, hm] at h
  · simp only [readItem, hm] at h ⊢
    exact ⟨item, h, SameAscii.refl item⟩
  · simp only [readItem, hm] at h ⊢
    obtain ⟨hread, rfl⟩ := Prod.mk.inj h
    obtain rfl := Except.ok.inj hread
    exact ⟨_, rfl, sameAscii_shorthandRanges e e' members negated⟩

theorem readItems_sameAscii {ranges ranges' rs : List CharRange} (hranges : SameAscii ranges ranges')
    (h : readItems e origin ranges cur = (.ok rs, after)) (e' : Encoding) :
    ∃ rs', readItems e' origin ranges' cur = (.ok rs', after) ∧ SameAscii rs rs' := by
  fun_induction readItems e origin ranges cur generalizing ranges' with
  | case1 => cases h
  | case2 ranges cur rest hr =>
    obtain ⟨hread, rfl⟩ := Prod.mk.inj h
    obtain rfl := Except.ok.inj hread
    exact ⟨ranges', readItems_close hr, hranges⟩
  | case3 => cases h
  | case4 ranges cur c rest hc hr item behind hi ih =>
    obtain ⟨item', hi', hitem⟩ := readItem_sameAscii hi e'
    obtain ⟨rs', hrs, hsame⟩ := ih (hitem.append hranges) h
    refine ⟨rs', ?_, hsame⟩
    rw [readItems_item hr hc, hi']
    exact hrs

/-! ## ASCII texts -/

/-- Whether two sets of texts have the same ASCII texts. -/
def Texts.SameAscii (texts texts' : Texts) : Prop := ∀ text, (∀ c ∈ text, c.toNat < 0x80) →
  (text ∈ texts ↔ text ∈ texts')

/-- Whether two terms are the same, but for texts that are not ASCII. -/
inductive Term.SameAscii : Option Term → Option Term → Prop
  | refl (term : Option Term) : Term.SameAscii term term
  | choice {texts texts' : Texts} (negated : Bool) (h : texts.SameAscii texts') :
    Term.SameAscii (some (.choice texts negated)) (some (.choice texts' negated))

/-- Whether two tokens are the same, but for their places and for texts that are not ASCII. -/
structure Token.SameAscii (t u : Token) : Prop where
  terminal : u.terminal = t.terminal
  term : Term.SameAscii t.term u.term

theorem Token.SameAscii.refl (t : Token) : t.SameAscii t := ⟨rfl, .refl t.term⟩

theorem Texts.sameAscii_singles {s s' : CharClass} (h : PatternAutomata.SameAscii s.ranges s'.ranges) :
    Texts.SameAscii (Std.ExtTreeSet.ofList (s.chars.map fun c => [c]))
      (Std.ExtTreeSet.ofList (s'.chars.map fun c => [c])) := by
  intro text htext
  simp only [Std.ExtTreeSet.mem_ofList, List.contains_iff_mem, List.mem_map, CharClass.mem_chars]
  refine exists_congr fun c => and_congr_left fun hc => ?_
  obtain rfl := hc
  exact h c (htext c (List.mem_singleton_self c))

namespace Scanner
variable {config : Config} {term term' : Term}

theorem termOfClass_eq (hfold : config.caseInsensitive = false) {members : CharClass}
    {negated : Bool} (h : termOfClass config origin members negated = .ok term) :
    term = .choice (Std.ExtTreeSet.ofList (members.chars.map fun c => [c])) negated := by
  simp only [termOfClass, hfold, Bool.false_eq_true, if_false] at h
  split at h
  · cases h
  · exact (Except.ok.inj h).symm

/-- A class is read from its brackets and what stands between them. -/
theorem exists_items_of_readClass (h : (readClass config origin cur).1 = .ok term) :
    ∃ r rs, readItems config.encoding origin [] (openClass cur).2 =
        (.ok (r :: rs), (readClass config origin cur).2) ∧
      termOfClass config origin (.ofRanges (r :: rs)) (openClass cur).1 = .ok term := by
  unfold readClass at h ⊢
  dsimp only at h ⊢
  split at h
  · cases h
  · cases h
  · next r rs after hitems => exact ⟨r, rs, hitems, h⟩

theorem openClass_taken (cur : Cursor) :
    ∃ taken, cur.rest = taken ++ (openClass cur).2.rest ∧ '\\' ∉ taken := by
  unfold openClass
  split
  · next rest hr => exact ⟨['^'], hr, by simp⟩
  · exact ⟨[], rfl, by simp⟩

/-- A class is read to the same place under every encoding. It has the same ASCII members, if it is
not folded, and is the same altogether if there is no complement in it. -/
theorem readClass_sameAscii (h : (readClass config origin cur).1 = .ok term)
    (h' : (readClass { config with encoding := e } origin cur).1 = .ok term')
    (hplain : config.caseInsensitive = false ∨ ∀ taken,
      cur.rest = taken ++ (readClass config origin cur).2.rest →
        mentionsComplement taken = false) :
    (readClass { config with encoding := e } origin cur).2 = (readClass config origin cur).2 ∧
      Term.SameAscii (some term) (some term') := by
  obtain ⟨r, rs, hitems, hterm⟩ := exists_items_of_readClass h
  obtain ⟨r', rs', hitems', hterm'⟩ := exists_items_of_readClass h'
  rcases hplain with hfold | hplain
  · obtain ⟨_, hsame, hranges⟩ := readItems_sameAscii (SameAscii.refl []) hitems e
    obtain ⟨heq, hafter⟩ := Prod.mk.inj (hitems'.symm.trans hsame)
    obtain rfl := Except.ok.inj heq
    refine ⟨hafter, ?_⟩
    rw [termOfClass_eq hfold hterm, termOfClass_eq hfold hterm']
    refine .choice _ (Texts.sameAscii_singles fun c hc => ?_)
    change (CharClass.ofRanges _).contains c = true ↔ (CharClass.ofRanges _).contains c = true
    rw [CharClass.contains_ofRanges, CharClass.contains_ofRanges]
    exact hranges c hc
  · obtain ⟨front, hfront, hcaret⟩ := openClass_taken cur
    obtain ⟨taken, htaken, hall⟩ := readItems_taken hitems
    have hnone : mentionsComplement taken = false := by
      rw [← mentionsComplement_append hcaret]
      exact hplain _ (by rw [hfront, htaken, List.append_assoc])
    obtain ⟨heq, hafter⟩ := Prod.mk.inj (hitems'.symm.trans (hall hnone e))
    rw [Except.ok.inj heq] at hterm'
    obtain rfl := Except.ok.inj (hterm'.symm.trans hterm)
    exact ⟨hafter, .refl _⟩

/-! ## Tokens under other encodings -/

/-- The same scanner under another encoding. -/
def reencoded (e : Encoding) (s : Scanner) : Scanner :=
  { s with config := { s.config with encoding := e } }

/-- Only classes in brackets depend on the encoding. -/
theorem next_reencoded (e : Encoding) {s : Scanner} (h : ∀ rest, s.cursor.rest ≠ '[' :: rest) :
    (s.reencoded e).next = (s.next.1, s.next.2.reencoded e) := by
  have hcount : readCount { s.config with encoding := e } = readCount s.config := rfl
  have hescaped : readEscaped { s.config with encoding := e } = readEscaped s.config := rfl
  have hletter : termOfLetter { s.config with encoding := e } = termOfLetter s.config := rfl
  fun_cases next s
  case case15 rest _ hr _ => exact absurd hr (h rest)
  case case6 rest hr _ _ hdeep =>
    exact (next_openParen (s := s.reencoded e) hr).trans (if_neg hdeep)
  all_goals simp_all +zetaDelta [reencoded, next]

section
variable {s s' z z' : Scanner} {t u last last' : Token} {ts us : List Token} {piece : List Char}

/-- Whether the ASCII characters of a token do not depend on the encoding: nothing is folded, or no
complement stands in a class that is. -/
def FoldsEvenly (config : Config) (piece : List Char) : Prop :=
  config.caseInsensitive = false ∨ ∀ body, piece = '[' :: body → mentionsComplement body = false

theorem next_sameAscii (hconfig : z.config = { s.config with encoding := e })
    (hcursor : z.cursor = s.cursor) (hs : s.next = (.ok t, s')) (hz : z.next = (.ok u, z'))
    (hreach : s.cursor.Reaches piece s'.cursor) (hpiece : FoldsEvenly s.config piece) :
    t.SameAscii u ∧ z'.cursor = s'.cursor := by
  by_cases hbracket : ∃ rest, s.cursor.rest = '[' :: rest
  · obtain ⟨rest, hr⟩ := hbracket
    rw [next_bracket hr] at hs
    rw [next_bracket (hcursor ▸ hr)] at hz
    obtain ⟨hread, rfl⟩ := Prod.mk.inj hs
    obtain ⟨term, hterm, rfl⟩ := of_map_eq_ok hread
    obtain ⟨hread', rfl⟩ := Prod.mk.inj hz
    obtain ⟨term', hterm', rfl⟩ := of_map_eq_ok hread'
    rw [hconfig, hcursor] at hterm'
    have hbody : s.config.caseInsensitive = false ∨ ∀ taken,
        rest = taken ++ (readClass s.config s.cursor.offset (s.cursor.past '[' rest)).2.rest →
          mentionsComplement taken = false := by
      refine hpiece.imp_right fun hpiece taken htaken => hpiece taken ?_
      have hsplit := (hreach.1.symm.trans hr).trans (congrArg (List.cons '[') htaken)
      exact List.append_cancel_right hsplit
    obtain ⟨hafter, hsame⟩ := readClass_sameAscii hterm hterm' hbody
    rw [hconfig, hcursor]
    exact ⟨⟨rfl, hsame⟩, hafter⟩
  · obtain ⟨rfl, hcursor'⟩ := next_unique (s := s.reencoded e) hconfig hcursor
      ((next_reencoded e (not_exists.mp hbracket)).trans (by rw [hs])) hz
    exact ⟨.refl u, hcursor'⟩

/-- A text has the same tokens under every encoding, but for texts that are not ASCII. -/
theorem scan_sameAscii (hconfig : z.config = { s.config with encoding := e })
    (hcursor : z.cursor = s.cursor) (hs : s.scan = (ts, .ok last)) (hz : z.scan = (us, .ok last'))
    (hpieces : ∀ p ∈ s.pieces, FoldsEvenly s.config p.2) :
    List.Forall₂ Token.SameAscii ts us := by
  induction ts generalizing s z us with
  | nil =>
    obtain ⟨t, s', hnext, ⟨ht, -, -⟩ | ⟨-, us, hnil, -⟩⟩ := next_of_scan hs
    · obtain rfl := scan_end hz (hcursor ▸ rest_of_eof hnext ht)
      exact .nil
    · simp at hnil
  | cons t ts ih =>
    obtain ⟨_, s', hnext, ⟨-, hnil, -⟩ | ⟨ht, _, hcons, hs'⟩⟩ := next_of_scan hs
    · simp at hnil
    · obtain ⟨rfl, rfl⟩ := List.cons.inj hcons
      obtain ⟨piece, hreach, -⟩ := exists_piece hnext ht
      rw [pieces_further hnext ht hreach, List.forall_mem_cons] at hpieces
      obtain ⟨u, z', hnext', hu⟩ := next_of_scan hz
      obtain ⟨hsame, hcursor'⟩ := next_sameAscii hconfig hcursor hnext hnext' hreach hpieces.1
      obtain ⟨heof, -⟩ | ⟨-, us, rfl, hz'⟩ := hu
      · exact absurd (hsame.terminal.symm.trans heof) ht
      · have hconfig' : z'.config = { s'.config with encoding := e } := by
          rw [config_of_next hnext', config_of_next hnext, hconfig]
        have hpieces' : ∀ p ∈ s'.pieces, FoldsEvenly s'.config p.2 := by
          rw [config_of_next hnext]
          exact hpieces.2
        exact .cons hsame (ih hconfig' hcursor' hs' hz' hpieces')

end

end Scanner

end PatternAutomata
