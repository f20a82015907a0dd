import PatternAutomata.Proofs.Scanner.Depth

/-!
# Seams between texts

The characters of a token tell what it is, whatever follows them. So a text that is scanned to its
end is scanned in the same way with another text behind it, and that one as if it stood alone. Only
the number of open parentheses crosses the seam.
-/
namespace PatternAutomata

/-- Whether a reader that reads `v` takes some characters that are read in the same way whatever
follows them. -/
def Read.Local {α : Type} (reader : Cursor → Read α) (cur : Cursor) (v : α) (after : Cursor) :
    Prop :=
  ∃ taken, cur.Reaches taken after ∧
    ∀ more, reader ⟨taken ++ more, cur.offset⟩ = (.ok v, ⟨more, after.offset⟩)

section
variable {α : Type} {origin : Nat} {cur after : Cursor}

theorem Read.local_of_char {reader : Cursor → Read α} {v : α} {c : Char} {rest : List Char}
    (hr : cur.rest = c :: rest)
    (h : ∀ more, reader ⟨c :: more, cur.offset⟩ = (.ok v, ⟨more, cur.offset + c.utf8Size⟩)) :
    Read.Local reader cur v (cur.past c rest) :=
  ⟨[c], Cursor.reaches_past hr, h⟩

/-! ## Escapes and counts -/

theorem readEscape_local {m : Escape} (h : readEscape origin cur = (.ok m, after)) :
    Read.Local (readEscape origin) cur m after := by
  have hread := h
  revert h
  fun_cases readEscape origin cur <;> intro h
  case case8 rest hr place read | case9 rest hr place read =>
    rcases readEscape_numeric_cases origin hr (by simp) with
      ⟨body, c, place, hnumeric, hreach, hok⟩ | hfailed
    · obtain ⟨hm, rfl⟩ := Prod.mk.inj (hok.symm.trans hread)
      obtain rfl := Except.ok.inj hm
      refine ⟨body, hreach, fun more => ?_⟩
      exact readEscape_of_numericEscape hnumeric ⟨rfl, hreach.2⟩
    · simp [hread] at hfailed
  all_goals
    obtain ⟨hm, hafter⟩ := Prod.mk.inj h
    cases hm
    try
      rw [← hafter]
      refine Read.local_of_char ‹cur.rest = _› fun more => ?_
      simp_all [readEscape, Cursor.past]

theorem readBounds_local {bounds : Nat × Bound} (h : readBounds origin cur = (.ok bounds, after)) :
    Read.Local (readBounds origin) cur bounds after := by
  obtain ⟨body, hbody, hle, hreach⟩ := body_of_readBounds h
  exact ⟨body, hreach, fun more => readBounds_of_body hbody hle ⟨rfl, hreach.2⟩⟩

/-! ## Quoted texts -/

theorem readQuoted_local {text read : List Char}
    (h : readQuoted origin text cur = (.ok read, after)) :
    Read.Local (readQuoted origin text) cur read after := by
  revert h
  fun_induction readQuoted origin text cur with
  | case1 =>
    intro h
    cases h
  | case2 text cur rest hr =>
    intro h
    cases h
    exact Read.local_of_char hr fun more => readQuoted_close rfl
  | case3 =>
    intro h
    cases h
  | case4 =>
    intro h
    cases h
  | case5 text cur rest hr c place he ih =>
    intro h
    obtain ⟨escape, hescape, hread⟩ := readEscape_local he
    obtain ⟨taken, htaken, hfurther⟩ := ih h
    refine ⟨'\\' :: (escape ++ taken), ?_, fun more => ?_⟩
    · exact (Cursor.reaches_past hr).trans (hescape.trans htaken)
    · have hchar := hread (taken ++ more)
      rw [List.cons_append, List.append_assoc, readQuoted_escape rfl]
      simp only [Cursor.past] at hchar ⊢
      rw [hchar]
      exact hfurther more
  | case6 text cur c rest hc hc' hr ih =>
    intro h
    obtain ⟨taken, htaken, hfurther⟩ := ih h
    refine ⟨c :: taken, (Cursor.reaches_past hr).trans htaken, fun more => ?_⟩
    rw [List.cons_append, readQuoted_char rfl hc hc']
    exact hfurther more

/-! ## Classes -/

theorem readMember_local {m : Escape} (h : readMember origin cur = (.ok m, after)) :
    Read.Local (readMember origin) cur m after := by
  revert h
  fun_cases readMember origin cur <;> intro h
  case case1 => cases h
  case case2 rest hr =>
    obtain ⟨escape, hescape, hread⟩ := readEscape_local h
    refine ⟨'\\' :: escape, (Cursor.reaches_past hr).trans hescape, fun more => ?_⟩
    exact hread more
  case case3 c rest hc hr =>
    cases h
    refine Read.local_of_char hr fun more => ?_
    simp_all [readMember, Cursor.past]

theorem ne_nil_of_readMember {taken : List Char} {offset : Nat} {m : Escape}
    (h : readMember origin ⟨taken ++ [], offset⟩ = (.ok m, after)) : taken ≠ [] := by
  rintro rfl
  cases h

/-- Two characters tell whether a range goes on, unless the first of them is the last one. -/
theorem RangeNext.append {taken more : List Char} (h : RangeNext (taken ++ more))
    (hne : taken ≠ []) (hdash : taken ≠ ['-']) (rest : List Char) : RangeNext (taken ++ rest) := by
  obtain ⟨c, behind, heq, hc⟩ := h
  match taken with
  | [] => exact absurd rfl hne
  | [x] =>
    obtain ⟨rfl, -⟩ := List.cons.inj heq
    exact absurd rfl hdash
  | x :: y :: taken =>
    obtain ⟨rfl, rfl, -⟩ : x = '-' ∧ y = c ∧ taken ++ more = behind := by simpa using heq
    exact ⟨y, taken ++ rest, rfl, hc⟩

theorem readRangeEnd_local {item : Nat} {lo : Char} {r : CharRange}
    (h : readRangeEnd origin item lo cur = (.ok r, after)) :
    ∃ taken, cur.Reaches taken after ∧ ∀ more, (RangeNext more → RangeNext after.rest) →
      readRangeEnd origin item lo ⟨taken ++ more, cur.offset⟩ = (.ok r, ⟨more, after.offset⟩) := by
  by_cases hnext : RangeNext cur.rest
  · obtain ⟨c, rest, hr, hc⟩ := hnext
    have hpast := Cursor.reaches_past hr
    simp only [readRangeEnd, hr, if_neg hc] at h
    rcases hm : readMember origin (cur.past '-' (c :: rest)) with
      ⟨err | ⟨hi⟩ | ⟨members, negated⟩, place⟩
    · simp [hm] at h
    · simp only [hm] at h
      by_cases hlt : hi < lo
      · simp [hlt] at h
      · rw [if_neg hlt] at h
        cases h
        obtain ⟨member, hmember, hread⟩ := readMember_local hm
        obtain ⟨d, taken, rfl⟩ := List.exists_cons_of_ne_nil (ne_nil_of_readMember (hread []))
        obtain ⟨rfl, -⟩ := List.cons.inj hmember.1
        refine ⟨'-' :: c :: taken, hpast.trans hmember, fun more _ => ?_⟩
        have hother := hread more
        simp only [Cursor.past, List.cons_append] at hother
        simp only [readRangeEnd, List.cons_append, Cursor.past, if_neg hc, hother, if_neg hlt]
    · simp [hm] at h
  · rw [readRangeEnd_alone hnext] at h
    cases h
    refine ⟨[], .refl _, fun more hmore => ?_⟩
    exact readRangeEnd_alone (mt hmore hnext)

theorem readItem_local {e : Encoding} {item : List CharRange}
    (h : readItem e origin cur = (.ok item, after)) :
    ∃ taken ≠ [], cur.Reaches taken after ∧ ∀ more, (RangeNext more → RangeNext after.rest) →
      readItem e origin ⟨taken ++ more, cur.offset⟩ = (.ok item, ⟨more, after.offset⟩) := by
  revert h
  fun_cases readItem e origin cur <;> intro h
  case case1 => cases h
  case case2 hm =>
    cases h
    obtain ⟨member, hmember, hread⟩ := readMember_local hm
    refine ⟨member, ne_nil_of_readMember (hread []), hmember, fun more _ => ?_⟩
    simp only [readItem, hread]
  case case3 lo place hm read =>
    obtain ⟨member, hmember, hread⟩ := readMember_local hm
    obtain ⟨hitem, hafter⟩ := Prod.mk.inj h
    obtain ⟨r, hr, rfl⟩ := of_map_eq_ok hitem
    have hend : readRangeEnd origin cur.offset lo place = (.ok r, after) := Prod.ext hr hafter
    obtain ⟨taken, htaken, hfurther⟩ := readRangeEnd_local hend
    have hne : member ++ taken ≠ [] := by simp [ne_nil_of_readMember (hread [])]
    refine ⟨member ++ taken, hne, hmember.trans htaken, fun more hmore => ?_⟩
    simp only [readItem, List.append_assoc, hread, hfurther more hmore]
    rfl

/-- The closing bracket ends the last item, so nothing behind it makes a range. -/
theorem readItems_local {e : Encoding} {ranges rs : List CharRange}
    (h : readItems e origin ranges cur = (.ok rs, after)) :
    Read.Local (readItems e origin ranges) cur rs after := by
  revert h
  fun_induction readItems e origin ranges cur with
  | case1 =>
    intro h
    cases h
  | case2 ranges cur rest hr =>
    intro h
    cases h
    exact Read.local_of_char hr fun more => readItems_close rfl
  | case3 =>
    intro h
    cases h
  | case4 ranges cur c rest hc hr item place hi ih =>
    intro h
    obtain ⟨first, hfirstne, hfirst, hread⟩ := readItem_local hi
    obtain ⟨d, first, rfl⟩ := List.exists_cons_of_ne_nil hfirstne
    obtain ⟨rfl, -⟩ := List.cons.inj (hr.symm.trans hfirst.1)
    obtain ⟨taken, htaken, hfurther⟩ := ih h
    obtain ⟨hne, hdash⟩ := rest_of_readItems (hfurther [])
    rw [List.append_nil] at hne hdash
    refine ⟨c :: first ++ taken, hfirst.trans htaken, fun more => ?_⟩
    have hitem := hread (taken ++ more) fun hmore => by
      rw [htaken.1]
      exact hmore.append hne hdash _
    rw [List.append_assoc, readItems_item (by rfl) hc, hitem]
    exact hfurther more

/-! ## Tokens -/

namespace Scanner
variable {config : Config} {term : Term} {s s' z : Scanner} {t : Token} {rest : List Char}

theorem openClass_plain (h : ∀ rest, cur.rest ≠ '^' :: rest) : openClass cur = (false, cur) := by
  unfold openClass
  split
  · next rest hr => exact absurd hr (h rest)
  · rfl

theorem readClass_local (h : readClass config origin cur = (.ok term, after)) :
    Read.Local (readClass config origin) cur term after := by
  rcases hitems : readItems config.encoding origin [] (openClass cur).2 with
    ⟨err | ⟨_ | ⟨r, ranges⟩⟩, place⟩
  · simp [readClass, hitems] at h
  · simp [readClass, hitems] at h
  · simp only [readClass, hitems] at h
    obtain ⟨hterm, rfl⟩ := Prod.mk.inj h
    obtain ⟨taken, htaken, hread⟩ := readItems_local hitems
    by_cases hcaret : ∃ rest, cur.rest = '^' :: rest
    · obtain ⟨rest, hr⟩ := hcaret
      have hopen : openClass cur = (true, cur.past '^' rest) := by simp [openClass, hr]
      rw [hopen] at htaken hread hterm
      refine ⟨'^' :: taken, (Cursor.reaches_past hr).trans htaken, fun more => ?_⟩
      have hmore := hread more
      simp only [Cursor.past] at hmore
      simp only [readClass, openClass, List.cons_append, Cursor.past, hmore, hterm]
    · have hplain : ∀ rest, cur.rest ≠ '^' :: rest := fun rest hr => hcaret ⟨rest, hr⟩
      rw [openClass_plain hplain] at htaken hread hterm
      obtain ⟨hne, -⟩ := rest_of_readItems (hread [])
      rw [List.append_nil] at hne
      refine ⟨taken, htaken, fun more => ?_⟩
      have hopen : openClass ⟨taken ++ more, cur.offset⟩ =
          (false, ⟨taken ++ more, cur.offset⟩) := by
        refine openClass_plain fun rest hr => ?_
        obtain ⟨d, taken, rfl⟩ := List.exists_cons_of_ne_nil hne
        obtain ⟨rfl, -⟩ := List.cons.inj hr
        exact hplain _ htaken.1
      simp only [readClass, hopen, hread more, hterm]

theorem readLiteral_local (h : readLiteral origin cur = (.ok term, after)) :
    Read.Local (readLiteral origin) cur term after := by
  obtain ⟨hterm, rfl⟩ := Prod.mk.inj h
  obtain ⟨read, hread, rfl⟩ := of_map_eq_ok hterm
  obtain ⟨taken, htaken, hfurther⟩ := readQuoted_local (Prod.ext hread rfl)
  refine ⟨taken, htaken, fun more => ?_⟩
  simp only [readLiteral, hfurther more]
  rfl

theorem readEscaped_local (h : readEscaped config origin cur = (.ok term, after)) :
    Read.Local (readEscaped config origin) cur term after := by
  rcases he : readEscape origin cur with ⟨err | m, place⟩
  · simp [readEscaped, he] at h
  · obtain ⟨taken, htaken, hread⟩ := readEscape_local he
    cases m with
    | char c =>
      simp only [readEscaped, he] at h
      cases h
      refine ⟨taken, htaken, fun more => ?_⟩
      simp only [readEscaped, hread more]
    | shorthand members negated =>
      simp only [readEscaped, he] at h
      obtain ⟨hterm, rfl⟩ := Prod.mk.inj h
      refine ⟨taken, htaken, fun more => ?_⟩
      simp only [readEscaped, hread more, hterm]

theorem readCount_local (h : readCount config origin cur = (.ok term, after)) :
    Read.Local (readCount config origin) cur term after := by
  rcases hb : readBounds origin cur with ⟨err | bounds, place⟩
  · simp [readCount, hb] at h
  · simp only [readCount, hb] at h
    obtain ⟨hterm, rfl⟩ := Prod.mk.inj h
    obtain ⟨taken, htaken, hread⟩ := readBounds_local hb
    refine ⟨taken, htaken, fun more => ?_⟩
    simp only [readCount, hread more, hterm]

/-- The same scanner before another text. -/
def before (text : List Char) (s : Scanner) : Scanner :=
  { s with cursor := ⟨text, s.cursor.offset⟩ }

theorem readBy_local {reader : Config → Nat → Cursor → Read Term} {terminal : Terminal} {c : Char}
    (hreader : ∀ {config origin cur term after}, reader config origin cur = (.ok term, after) →
      Read.Local (reader config origin) cur term after)
    (h : s.readBy reader terminal c rest = (.ok t, s')) :
    ∃ taken, (s.cursor.past c rest).Reaches taken s'.cursor ∧ ∀ more,
      (s.before (c :: (taken ++ more))).readBy reader terminal c (taken ++ more) =
        (.ok t, s'.before more) := by
  obtain ⟨ht, rfl⟩ := Prod.mk.inj h
  obtain ⟨term, hterm, rfl⟩ := of_map_eq_ok ht
  obtain ⟨taken, htaken, hread⟩ := hreader (Prod.ext hterm rfl)
  refine ⟨taken, htaken, fun more => ?_⟩
  have hmore := hread more
  simp only [Cursor.past] at hmore
  simp only [readBy, before, Cursor.past, hmore]
  rfl

theorem taken_of_char {c : Char} (hr : s.cursor.rest = c :: rest)
    (h : s.next.2.cursor = s.cursor.past c rest) : s.taken = [c] := by
  refine taken_eq ?_
  rw [h]
  exact Cursor.reaches_past hr

theorem next_local_of_readBy {reader : Config → Nat → Cursor → Read Term} {terminal : Terminal}
    {c : Char}
    (hnext : ∀ {s : Scanner} {rest : List Char}, s.cursor.rest = c :: rest →
      s.next = s.readBy reader terminal c rest)
    (hreader : ∀ {config origin cur term after}, reader config origin cur = (.ok term, after) →
      Read.Local (reader config origin) cur term after)
    (hr : s.cursor.rest = c :: rest) (h : s.next = (.ok t, s')) (more : List Char) :
    (s.before (s.taken ++ more)).next = (.ok t, s'.before more) := by
  obtain ⟨taken, htaken, hread⟩ := readBy_local hreader ((hnext hr).symm.trans h)
  have heq : s.taken = [c] ++ taken := by
    refine taken_eq ?_
    rw [h]
    exact (Cursor.reaches_past hr).trans htaken
  rw [heq, List.append_assoc, List.singleton_append, hnext rfl]
  exact hread more

/-- No call looks beyond the last character of its token. -/
theorem next_local (h : s.next = (.ok t, s')) (ht : t.terminal ≠ .eof) (more : List Char) :
    (s.before (s.taken ++ more)).next = (.ok t, s'.before more) := by
  have hnext := h
  revert hnext
  fun_cases next s <;> intro hnext
  case case14 rest _ hr _ => exact next_local_of_readBy next_brace readCount_local hr h more
  case case15 rest _ hr _ => exact next_local_of_readBy next_bracket readClass_local hr h more
  case case16 rest _ hr _ => exact next_local_of_readBy next_quote readLiteral_local hr h more
  case case17 rest _ hr _ => exact next_local_of_readBy next_backslash readEscaped_local hr h more
  case case1 =>
    cases hnext
    exact absurd rfl ht
  case case6 rest hr _ _ hdeep =>
    have hlimit : ¬ s.config.nestLimit < s.depth + 1 := hdeep
    rw [next_openParen hr, if_neg hlimit] at h
    cases h
    rw [taken_of_char hr (by simp [next_openParen hr, hlimit]), next_openParen rfl]
    exact if_neg hlimit
  all_goals
    obtain ⟨hx, hs'⟩ := Prod.mk.inj hnext
    cases hx
  all_goals
    have htaken := taken_of_char ‹s.cursor.rest = _› (by rw [h, ← hs'])
    rw [htaken, ← hs']
    clear hs' hnext h htaken
    simp_all +zetaDelta [next, before, Cursor.past]

/-! ## Texts behind each other -/

/-- The scan of a text, `n` bytes later. -/
theorem scan_moved (n : Nat) (s : Scanner) :
    (s.moved n []).scan = (s.scan.1.map (·.moved n), movedToken n s.scan.2) := by
  fun_induction scan s with
  | case1 s err s' h =>
    have hmoved := next_moved (s := s) (n := n) (.inl rfl)
    rw [h] at hmoved
    rw [scan_failed hmoved]
    rfl
  | case2 s t s' h ht =>
    have hmoved := next_moved (s := s) (n := n) (.inl rfl)
    rw [h] at hmoved
    exact scan_last hmoved ht
  | case3 s t s' h ht _ ih =>
    have hmoved := next_moved (s := s) (n := n) (.inl rfl)
    rw [h] at hmoved
    rw [scan_further hmoved ht, ih]
    rfl

/-- A text that is scanned to its end is scanned in the same way with more text behind it. What is
left there is that text, behind as many open parentheses as there are at the end. -/
theorem scan_more {ts : List Token} {last : Token} (h : s.scan = (ts, .ok last))
    (more : List Char) : ∃ z : Scanner, z.config = s.config ∧
      z.cursor = ⟨more, s.cursor.offset + utf8Length s.cursor.rest⟩ ∧
      (s.moved 0 more).scan = (ts ++ z.scan.1, z.scan.2) := by
  induction ts generalizing s with
  | nil =>
    obtain ⟨t, s', hnext, ⟨ht, -, -⟩ | ⟨-, us, hnil, -⟩⟩ := next_of_scan h
    · refine ⟨s.moved 0 more, rfl, ?_, rfl⟩
      simp [moved, Cursor.moved, rest_of_eof hnext ht]
    · simp at hnil
  | cons t ts ih =>
    obtain ⟨_, s', hnext, ⟨-, hnil, -⟩ | ⟨ht, _, hcons, hs'⟩⟩ := next_of_scan h
    · simp at hnil
    · obtain ⟨rfl, rfl⟩ := List.cons.inj hcons
      obtain ⟨z, hconfig, hcursor, hscan⟩ := ih hs'
      have hmoved : (s.moved 0 more).next = _ := next_moved (.inr ⟨t, s', hnext, ht⟩)
      have hreach := s.reaches_taken
      rw [hnext] at hmoved hreach
      refine ⟨z, hconfig.trans (config_of_next hnext), ?_, ?_⟩
      · rw [hcursor, hreach.2, hreach.1, utf8Length_append, Nat.add_assoc]
      · rw [scan_further hmoved ht, hscan]
        rfl

/-- The same place in the same text, where no more parentheses are open. -/
structure Shallower (z s : Scanner) : Prop where
  config : z.config = s.config
  cursor : z.cursor = s.cursor
  depth : z.depth ≤ s.depth

/-- With fewer parentheses open the same token is read, unless there are too many. -/
theorem Shallower.next (h : z.Shallower s) {result : Except LexError Token}
    (hnext : s.next = (result, s')) (hkept : ∀ err, result = .error err → err.Unnested) :
    ∃ z', z.next = (result, z') ∧ z'.Shallower s' := by
  obtain ⟨_, _, depth, atoms⟩ := z
  obtain ⟨hconfig, hcursor, hdepth⟩ := h
  dsimp only at hconfig hcursor hdepth
  subst hconfig hcursor
  by_cases hopen : ∃ rest, s.cursor.rest = '(' :: rest
  · obtain ⟨rest, hr⟩ := hopen
    rw [next_openParen hr] at hnext
    by_cases hdeep : s.config.nestLimit < s.depth + 1
    · rw [if_pos hdeep] at hnext
      cases hnext
      exact absurd rfl (hkept _ rfl s.config.nestLimit)
    · rw [if_neg hdeep] at hnext
      cases hnext
      have hother : ¬ s.config.nestLimit < depth + 1 := by omega
      rw [next_openParen (s := ⟨s.config, s.cursor, depth, atoms⟩) hr, if_neg hother]
      exact ⟨_, rfl, rfl, rfl, Nat.succ_le_succ hdepth⟩
  · have hr : ∀ rest, s.cursor.rest ≠ '(' :: rest := fun rest hr => hopen ⟨rest, hr⟩
    have hs' : s'.depth = if s.cursor.rest.head? = some ')' then s.depth - 1 else s.depth :=
      (congrArg (·.2.depth) hnext).symm.trans
        (congrArg (·.2.depth) (next_withDepth hr s.depth s.atoms))
    rw [next_withDepth hr depth atoms, hnext]
    refine ⟨_, rfl, rfl, rfl, ?_⟩
    rw [hs']
    by_cases hclose : s.cursor.rest.head? = some ')'
    · simpa only [if_pos hclose] using Nat.sub_le_sub_right hdepth 1
    · simpa only [if_neg hclose] using hdepth

/-- The number of open parentheses makes no difference to a scan as long as there are not too many.
-/
theorem Shallower.scan (h : z.Shallower s) (hkept : ∀ err, s.scan.2 = .error err → err.Unnested) :
    z.scan = s.scan := by
  induction s using scan.induct generalizing z with
  | case1 s err s' hnext =>
    rw [scan_failed hnext] at hkept ⊢
    obtain ⟨z', heq, -⟩ := h.next hnext hkept
    exact scan_failed heq
  | case2 s t s' hnext ht =>
    rw [scan_last hnext ht]
    obtain ⟨z', heq, -⟩ := h.next hnext (by simp)
    exact scan_last heq ht
  | case3 s t s' hnext ht ih =>
    rw [scan_further hnext ht] at hkept ⊢
    obtain ⟨z', heq, hfurther⟩ := h.next hnext (by simp)
    rw [scan_further heq ht, ih hfurther hkept]

/-- A text that is scanned to its end, with another one behind it, has its own tokens and then those
of the other one with their offsets moved, and it ends or fails where the other one does. This holds
as long as the parentheses that the first text leaves open are not too many for the second one. So
a token is told by its own characters, whatever stands behind them. -/
theorem scan_append_law (config : Config) {p : String} {ts : List Token} {last : Token}
    (hp : (ofText config p).scan = (ts, .ok last)) :
    (∀ q : String,
      (∀ err, (ofText config (p ++ q)).scan.2 = .error err → err.Unnested) →
      (ofText config (p ++ q)).scan =
        (ts ++ (ofText config q).scan.1.map (·.moved p.utf8ByteSize),
          movedToken p.utf8ByteSize (ofText config q).scan.2)) ∧
    ∀ (s s' : Scanner) (t : Token), s.next = (.ok t, s') → t.terminal ≠ .eof → ∀ more,
      (s.before (s.taken ++ more)).next = (.ok t, s'.before more) := by
  refine ⟨?seam, fun s s' t => next_local⟩
  case seam =>
    intro q hkept
    obtain ⟨z, hconfig, hcursor, hscan⟩ := scan_more hp q.toList
    have hjoined : ofText config (p ++ q) = (ofText config p).moved 0 q.toList := by
      simp [ofText, moved, Cursor.moved]
    have hshallower : ((ofText config q).moved p.utf8ByteSize []).Shallower z := by
      refine ⟨hconfig.symm, ?_, Nat.zero_le _⟩
      have hsize : p.utf8ByteSize = utf8Length p.toList := by
        rw [← utf8ByteSize_ofList, String.ofList_toList]
      rw [hcursor, hsize]
      simp [ofText, moved, Cursor.moved]
    rw [hjoined, hscan] at hkept ⊢
    rw [← hshallower.scan hkept, scan_moved]

/-- The second text closes a parenthesis of the first one, and fails. -/
theorem scan_append_law_group :
    let letter (c : Char) (offset : Nat) : Token := ⟨.letters, some (.ofChars [c]), offset⟩
    (ofText {} "(é").scan = ([⟨.openParen, none, 0⟩, letter 'é' 1], .ok ⟨.eof, none, 3⟩) ∧
      (ofText {} "b)\\").scan =
        ([letter 'b' 0, ⟨.closeParen, none, 1⟩], .error ⟨2, .unterminatedEscape⟩) ∧
      (ofText {} ("(é" ++ "b)\\")).scan =
        ([⟨.openParen, none, 0⟩, letter 'é' 1, letter 'b' 3, ⟨.closeParen, none, 4⟩],
          .error ⟨5, .unterminatedEscape⟩) ∧
      ((ofText {} "(é").before "(|".toList).next =
        (.ok ⟨.openParen, none, 0⟩, { ofText {} "|" with cursor := ⟨['|'], 1⟩, depth := 1 }) := by
  intro letter
  have hp : (ofText {} "(é").scan =
      ([⟨.openParen, none, 0⟩, letter 'é' 1], .ok ⟨.eof, none, 3⟩) := by decide +kernel
  have hq : (ofText {} "b)\\").scan =
      ([letter 'b' 0, ⟨.closeParen, none, 1⟩], .error ⟨2, .unterminatedEscape⟩) := by decide +kernel
  have hresult : (ofText {} ("(é" ++ "b)\\")).scan.2 = .error ⟨5, .unterminatedEscape⟩ := by
    decide +kernel
  obtain ⟨hseam, hlocal⟩ := scan_append_law {} hp
  have hjoined := hseam "b)\\" <| by
    intro err herr
    rw [hresult] at herr
    cases herr
    simp [LexError.Unnested]
  have htaken : (ofText {} "(é").taken = ['('] := by decide +kernel
  have hnext := hlocal (ofText {} "(é") _ ⟨.openParen, none, 0⟩ rfl (by decide) ['|']
  rw [htaken] at hnext
  refine ⟨hp, hq, ?_, hnext⟩
  rw [hjoined, hq]
  rfl

end Scanner

end

end PatternAutomata
