import PatternAutomata.Proofs.Scanner.Tiling

/-!
# Open parentheses

The scanner counts the parentheses that are open. Its count is told by the tokens that it has
returned, and only an opening parenthesis can exceed the limit of nesting.
-/
namespace PatternAutomata

/-- How many parentheses are open behind a token, of which `depth` are open before it. A closing one
that closes nothing does not count. -/
def Terminal.depthAfter (depth : Nat) : Terminal → Nat
  | .openParen => depth + 1
  | .closeParen => depth - 1
  | _ => depth

theorem Terminal.depthAfter_le {k : Terminal} (hk : k ≠ .openParen) (depth : Nat) :
    k.depthAfter depth ≤ depth := by
  cases k with
  | openParen => exact absurd rfl hk
  | closeParen => exact Nat.sub_le _ _
  | _ => exact Nat.le_refl _

/-- How many parentheses are open behind some tokens, of which `depth` are open before them. -/
def depthBehind (depth : Nat) (ks : List Terminal) : Nat := ks.foldl Terminal.depthAfter depth

@[simp] theorem depthBehind_nil (depth : Nat) : depthBehind depth [] = depth := rfl

@[simp] theorem depthBehind_cons (depth : Nat) (k : Terminal) (ks : List Terminal) :
    depthBehind depth (k :: ks) = depthBehind (k.depthAfter depth) ks := rfl

@[simp] theorem depthBehind_append (depth : Nat) (ks ls : List Terminal) :
    depthBehind depth (ks ++ ls) = depthBehind (depthBehind depth ks) ls := List.foldl_append

/-! ## Failures that are not about nesting -/

/-- Whether a failure is about something else than the limit of nesting. -/
def LexError.Unnested (err : LexError) : Prop := ∀ limit, err.cause ≠ .nestLimitExceeded limit

section
variable {origin : Nat} {cur after : Cursor} {err : LexError}

theorem unnested_of_readEscape (h : (readEscape origin cur).1 = .error err) : err.Unnested := by
  revert h
  fun_cases readEscape origin cur <;> intro h
  case case8 =>
    rw [error_of_readHexPair (of_map_eq_error h)]
    simp [LexError.Unnested]
  case case9 =>
    rw [error_of_readCodepoint (of_map_eq_error h)]
    simp [LexError.Unnested]
  all_goals
    cases h
    try simp [LexError.Unnested]

theorem unnested_of_readMember (h : (readMember origin cur).1 = .error err) : err.Unnested := by
  revert h
  fun_cases readMember origin cur <;> intro h
  case case2 => exact unnested_of_readEscape h
  all_goals
    cases h
    try simp [LexError.Unnested]

theorem unnested_of_readRangeEnd {item : Nat} {lo : Char}
    (h : (readRangeEnd origin item lo cur).1 = .error err) : err.Unnested := by
  revert h
  fun_cases readRangeEnd origin item lo cur <;> intro h
  case case2 hm =>
    cases h
    exact unnested_of_readMember (congrArg Prod.fst hm)
  all_goals
    cases h
    try simp [LexError.Unnested]

theorem unnested_of_readItem {e : Encoding} (h : (readItem e origin cur).1 = .error err) :
    err.Unnested := by
  revert h
  fun_cases readItem e origin cur <;> intro h
  case case1 hm =>
    cases h
    exact unnested_of_readMember (congrArg Prod.fst hm)
  case case2 => cases h
  case case3 => exact unnested_of_readRangeEnd (of_map_eq_error h)

theorem unnested_of_readItems {e : Encoding} {ranges : List CharRange}
    (h : (readItems e origin ranges cur).1 = .error err) : err.Unnested := by
  revert h
  fun_induction readItems e origin ranges cur <;> intro h
  case case1 =>
    cases h
    simp [LexError.Unnested]
  case case2 => cases h
  case case3 hi =>
    cases h
    exact unnested_of_readItem (congrArg Prod.fst hi)
  case case4 ih => exact ih h

theorem unnested_of_readQuoted {text : List Char}
    (h : (readQuoted origin text cur).1 = .error err) : err.Unnested := by
  revert h
  fun_induction readQuoted origin text cur <;> intro h
  case case2 => cases h
  case case3 he =>
    cases h
    exact unnested_of_readEscape (congrArg Prod.fst he)
  case case5 ih | case6 ih => exact ih h
  all_goals
    cases h
    simp [LexError.Unnested]

namespace Scanner
variable {config : Config} {s s' z : Scanner} {t : Token} {limit : Nat}

theorem unnested_of_termOfClass {members : CharClass} {negated : Bool}
    (h : termOfClass config origin members negated = .error err) : err.Unnested := by
  unfold termOfClass at h
  dsimp only at h
  generalize (if config.caseInsensitive then members.foldCase else members) = members at h
  split at h
  · cases h
    simp [LexError.Unnested]
  · cases h

theorem unnested_of_readClass (h : (readClass config origin cur).1 = .error err) :
    err.Unnested := by
  revert h
  fun_cases readClass config origin cur <;> intro h
  case case1 hitems =>
    cases h
    exact unnested_of_readItems (congrArg Prod.fst hitems)
  case case2 =>
    cases h
    simp [LexError.Unnested]
  case case3 => exact unnested_of_termOfClass h

theorem unnested_of_readEscaped (h : (readEscaped config origin cur).1 = .error err) :
    err.Unnested := by
  revert h
  fun_cases readEscaped config origin cur <;> intro h
  case case1 he =>
    cases h
    exact unnested_of_readEscape (congrArg Prod.fst he)
  case case2 => cases h
  case case3 => exact unnested_of_termOfClass h

theorem unnested_of_readCount (h : (readCount config origin cur).1 = .error err) :
    err.Unnested := by
  revert h
  fun_cases readCount config origin cur <;> intro h
  case case1 hb =>
    cases h
    rw [error_of_readBounds hb]
    simp [LexError.Unnested]
  case case2 least most after hb =>
    have hcheck := of_map_eq_error h
    rcases checkBounds_cases origin config.repetitionLimit least most with
      ⟨-, hfailed⟩ | ⟨-, -, hread⟩ | ⟨-, n, -, -, hfailed⟩
    · rw [hfailed] at hcheck
      cases hcheck
      simp [LexError.Unnested]
    · rw [hread] at hcheck
      cases hcheck
    · rw [hfailed] at hcheck
      cases hcheck
      simp [LexError.Unnested]

/-! ## One call -/

/-- Where no parenthesis opens, no failure is about nesting. -/
theorem unnested_of_next (hr : s.cursor.rest.head? ≠ some '(') (h : s.next.1 = .error err) :
    err.Unnested := by
  revert h
  fun_cases next s <;> intro h
  case case5 hrest _ _ _ => simp [hrest] at hr
  case case14 => exact unnested_of_readCount (of_map_eq_error h)
  case case15 => exact unnested_of_readClass (of_map_eq_error h)
  case case16 => exact unnested_of_readQuoted (of_map_eq_error (of_map_eq_error h))
  case case17 => exact unnested_of_readEscaped (of_map_eq_error h)
  all_goals cases h

/-- The limit of nesting is exceeded exactly where one more parenthesis opens than may be open. -/
theorem nestLimitExceeded_iff : s.next.1 = .error ⟨origin, .nestLimitExceeded limit⟩ ↔
    s.cursor.rest.head? = some '(' ∧ s.config.nestLimit < s.depth + 1 ∧
      origin = s.cursor.offset ∧ limit = s.config.nestLimit := by
  by_cases hr : s.cursor.rest.head? = some '('
  · obtain ⟨rest, hrest⟩ := List.head?_eq_some_iff.mp hr
    rw [next_openParen hrest]
    by_cases hdeep : s.config.nestLimit < s.depth + 1
    · simp [hr, hdeep, eq_comm]
    · simp [hdeep]
  · constructor
    · intro h
      exact absurd rfl (unnested_of_next hr h limit)
    · rintro ⟨hopen, -⟩
      exact absurd hopen hr

/-- The kind of the token tells how many parentheses are open behind it. -/
theorem depth_of_next (h : s.next = (.ok t, s')) : s'.depth = t.terminal.depthAfter s.depth := by
  revert h
  fun_cases next s <;> intro h
  case case14 | case15 | case16 | case17 =>
    obtain ⟨ht, rfl⟩ := Prod.mk.inj h
    obtain ⟨_, -, rfl⟩ := of_map_eq_ok ht
    rfl
  all_goals
    obtain ⟨ht, rfl⟩ := Prod.mk.inj h
    cases ht
    try rfl

theorem exists_rest_of_sign {c : Char} {kind : Terminal} (hc : sign? c = some kind)
    (h : s.next = (.ok t, s')) (ht : t.terminal = kind) : ∃ rest, s.cursor.rest = c :: rest := by
  unfold sign? at hc
  split at hc
  case h_6 => cases hc
  all_goals
    cases hc
    revert h
    fun_cases next s <;> intro h
    case case14 | case15 | case16 | case17 =>
      obtain ⟨_, -, rfl⟩ := of_map_eq_ok (Prod.mk.inj h).1
      cases ht
    all_goals cases (Prod.mk.inj h).1 <;> simp_all

/-- No more parentheses are ever open than may be. -/
theorem depth_le_of_next (h : s.next = (.ok t, s')) (hs : s.depth ≤ s.config.nestLimit) :
    s'.depth ≤ s.config.nestLimit := by
  by_cases ht : t.terminal = .openParen
  · obtain ⟨rest, hr⟩ := exists_rest_of_sign (c := '(') rfl h ht
    rw [next_openParen hr] at h
    by_cases hdeep : s.config.nestLimit < s.depth + 1
    · simp [hdeep] at h
    · rw [if_neg hdeep] at h
      cases h
      exact Nat.le_of_not_lt hdeep
  · rw [depth_of_next h]
    exact le_trans (Terminal.depthAfter_le ht s.depth) hs

/-- A token is a sign if and only if that is all that is read. So a sign within a class, a quoted
text or an escape is no token. -/
theorem terminal_eq_sign_iff {c : Char} {kind : Terminal} (hc : sign? c = some kind)
    (h : s.next = (.ok t, s')) : t.terminal = kind ↔ s.taken = [c] := by
  have hreach := s.reaches_taken
  rw [h] at hreach
  constructor
  · intro ht
    obtain ⟨rest, hr⟩ := exists_rest_of_sign hc h ht
    have htaken : [c] ++ rest = s.taken ++ rest := by
      rw [← (next_sign hc hr h).2.2, ← hreach.1, hr, (next_sign hc hr h).2.2]
      rfl
    exact (List.append_cancel_right htaken).symm
  · intro htaken
    rw [htaken] at hreach
    exact (next_sign hc hreach.1 h).1

end Scanner

end

end PatternAutomata
