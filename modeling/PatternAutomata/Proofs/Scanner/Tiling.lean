import PatternAutomata.Proofs.Scanner.Bounds
import PatternAutomata.Proofs.Scanner.NumericEscape
import PatternAutomata.Proofs.Scanner.Position
import PatternAutomata.Proofs.Scanner.Tokens

/-!
# Calls behind each other

However often a scanner is asked for a token, and whatever comes of it, the calls share the text
among them: each one reads on from where the last one stopped, and reads a character at least as
long as there is one. A token stands where its call began, and a failure is blamed on a character
that the failed call has read.
-/
namespace PatternAutomata
variable {origin : Nat} {cur after : Cursor} {err : LexError}

/-! ## Where failures are blamed -/

namespace Cursor
variable {c d e : Cursor} {x : Char} {rest s : List Char} {offset : Nat}

/-- Whether a character begins at a byte offset between two places of a text. -/
def Covers (c d : Cursor) (offset : Nat) : Prop :=
  ∃ before x behind, c.Reaches (before ++ x :: behind) d ∧ offset = c.offset + utf8Length before

theorem covers_first (hr : c.rest = x :: rest) (h : (c.past x rest).Reaches s d) :
    c.Covers d c.offset :=
  ⟨[], x, s, (reaches_past hr).trans h, rfl⟩

theorem Reaches.covers (h : c.Reaches s d) (hc : d.Covers e offset) : c.Covers e offset := by
  obtain ⟨before, x, behind, hd, rfl⟩ := hc
  refine ⟨s ++ before, x, behind, ?_, ?_⟩
  · rw [List.append_assoc]
    exact h.trans hd
  · rw [h.2, utf8Length_append, Nat.add_assoc]

end Cursor

/-- A bad escape is blamed on its backslash. -/
theorem offset_of_readEscape (h : (readEscape origin cur).1 = .error err) :
    err.offset = origin := by
  revert h
  fun_cases readEscape origin cur <;> intro h
  case case8 => rw [error_of_readHexPair (of_map_eq_error h)]
  case case9 => rw [error_of_readCodepoint (of_map_eq_error h)]
  all_goals cases h <;> rfl

/-- Whatever comes of an escape, its backslash is read. -/
theorem covers_readEscape {rest : List Char} {result : Except LexError Escape}
    (hr : cur.rest = '\\' :: rest)
    (h : readEscape cur.offset (cur.past '\\' rest) = (result, after)) :
    cur.Covers after cur.offset := by
  obtain ⟨taken, hreach⟩ := reaches_readEscape cur.offset (cur.past '\\' rest)
  rw [h] at hreach
  exact Cursor.covers_first hr hreach

theorem offset_of_checkBounds {limit least : Nat} {most : Bound}
    (h : checkBounds origin limit least most = .error err) : err.offset = origin := by
  revert h
  fun_cases checkBounds origin limit least most <;> intro h <;> cases h <;> rfl

/-- A character that cannot be read is one that ends the text, or a bad escape. -/
theorem blame_readMember (h : readMember origin cur = (.error err, after)) :
    err.offset = origin ∨ cur.Covers after err.offset := by
  revert h
  fun_cases readMember origin cur <;> intro h
  case case1 =>
    cases h
    exact .inl rfl
  case case2 rest hr =>
    rw [offset_of_readEscape (congrArg Prod.fst h)]
    exact .inr (covers_readEscape hr h)
  case case3 => cases h

theorem blame_readRangeEnd {item : Nat} {lo : Char}
    (h : readRangeEnd origin item lo cur = (.error err, after)) :
    err.offset = origin ∨ err.offset = item ∨ cur.Covers after err.offset := by
  revert h
  fun_cases readRangeEnd origin item lo cur <;> intro h
  case case2 c rest hr _ _ _ hm =>
    cases h
    exact (blame_readMember hm).imp_right fun hc => .inr ((Cursor.reaches_past hr).covers hc)
  case case3 | case4 =>
    cases h
    exact .inr (.inl rfl)
  all_goals cases h

theorem blame_readItem {e : Encoding} (hne : cur.rest ≠ [])
    (h : readItem e origin cur = (.error err, after)) :
    err.offset = origin ∨ cur.Covers after err.offset := by
  obtain ⟨taken, hreach, htaken⟩ := reaches_readMember origin cur
  revert h
  fun_cases readItem e origin cur <;> intro h
  case case1 hm =>
    cases h
    exact blame_readMember hm
  case case2 => cases h
  case case3 lo place hm read =>
    rw [hm] at hreach
    obtain ⟨herr, rfl⟩ := Prod.mk.inj h
    have hend : readRangeEnd origin cur.offset lo place = (.error err, read.2) :=
      Prod.ext (of_map_eq_error herr) rfl
    rcases blame_readRangeEnd hend with horigin | hitem | hcovers
    · exact .inl horigin
    · obtain ⟨x, behind, rfl⟩ := List.exists_cons_of_ne_nil (htaken hne)
      obtain ⟨taken', hreach'⟩ := reaches_readRangeEnd origin cur.offset lo place
      exact .inr ⟨[], x, _, hreach.trans hreach', hitem⟩
    · exact .inr (hreach.covers hcovers)

theorem blame_readItems {e : Encoding} {ranges : List CharRange}
    (h : readItems e origin ranges cur = (.error err, after)) :
    err.offset = origin ∨ cur.Covers after err.offset := by
  revert h
  fun_induction readItems e origin ranges cur with
  | case1 =>
    intro h
    cases h
    exact .inl rfl
  | case2 =>
    intro h
    cases h
  | case3 ranges cur c rest hc hr err after hi =>
    intro h
    cases h
    exact blame_readItem (by simp [hr]) hi
  | case4 ranges cur c rest hc hr item place hi ih =>
    intro h
    obtain ⟨taken, hreach, -⟩ := reaches_readItem e origin cur
    rw [hi] at hreach
    exact (ih h).imp_right hreach.covers

theorem blame_readQuoted {text : List Char} (h : readQuoted origin text cur = (.error err, after)) :
    err.offset = origin ∨ cur.Covers after err.offset := by
  revert h
  fun_induction readQuoted origin text cur with
  | case1 =>
    intro h
    cases h
    exact .inl rfl
  | case2 =>
    intro h
    cases h
  | case3 text cur rest hr _ _ he =>
    intro h
    cases h
    rw [offset_of_readEscape (congrArg Prod.fst he)]
    exact .inr (covers_readEscape hr he)
  | case4 text cur rest hr _ _ _ he =>
    intro h
    cases h
    exact .inr (covers_readEscape hr he)
  | case5 text cur rest hr _ _ he ih =>
    intro h
    obtain ⟨taken, hreach⟩ := reaches_readEscape cur.offset (cur.past '\\' rest)
    rw [he] at hreach
    exact (ih h).imp_right ((Cursor.reaches_past hr).trans hreach).covers
  | case6 text cur c rest _ _ hr ih =>
    intro h
    exact (ih h).imp_right (Cursor.reaches_past hr).covers

namespace Scanner
variable {config : Config} {s s' : Scanner} {t : Token}

theorem offset_of_termOfClass {members : CharClass} {negated : Bool}
    (h : termOfClass config origin members negated = .error err) : err.offset = origin := by
  unfold termOfClass at h
  dsimp only at h
  generalize (if config.caseInsensitive then members.foldCase else members) = members at h
  split at h
  · cases h
    rfl
  · cases h

theorem blame_readClass (h : readClass config origin cur = (.error err, after)) :
    err.offset = origin ∨ cur.Covers after err.offset := by
  obtain ⟨taken, hreach⟩ := reaches_openClass cur
  unfold readClass at h
  dsimp only at h
  split at h
  · next hitems =>
    cases h
    exact (blame_readItems hitems).imp_right hreach.covers
  · cases h
    exact .inl rfl
  · exact .inl (offset_of_termOfClass (Prod.mk.inj h).1)

theorem blame_readLiteral (h : readLiteral origin cur = (.error err, after)) :
    err.offset = origin ∨ cur.Covers after err.offset := by
  obtain ⟨herr, rfl⟩ := Prod.mk.inj h
  exact blame_readQuoted (Prod.ext (of_map_eq_error herr) rfl)

theorem offset_of_readEscaped (h : readEscaped config origin cur = (.error err, after)) :
    err.offset = origin := by
  unfold readEscaped at h
  split at h
  · next he =>
    cases h
    exact offset_of_readEscape (congrArg Prod.fst he)
  · cases h
  · exact offset_of_termOfClass (Prod.mk.inj h).1

theorem offset_of_readCount (h : readCount config origin cur = (.error err, after)) :
    err.offset = origin := by
  unfold readCount at h
  split at h
  · next hb =>
    cases h
    rw [error_of_readBounds hb]
  · exact offset_of_checkBounds (of_map_eq_error (Prod.mk.inj h).1)

/-- Whatever a token begins with, it is read behind that character, and a failure to read it is
blamed on that character or on one behind it. -/
theorem covers_readBy {reader : Config → Nat → Cursor → Read Term} {terminal : Terminal} {c : Char}
    {rest : List Char} (hr : s.cursor.rest = c :: rest)
    (hreach : ∃ taken, (s.cursor.past c rest).Reaches taken
      (reader s.config s.cursor.offset (s.cursor.past c rest)).2)
    (hblame : ∀ err after,
      reader s.config s.cursor.offset (s.cursor.past c rest) = (.error err, after) →
        err.offset = s.cursor.offset ∨ (s.cursor.past c rest).Covers after err.offset)
    (h : s.readBy reader terminal c rest = (.error err, s')) :
    s.cursor.Covers s'.cursor err.offset := by
  obtain ⟨taken, hreach⟩ := hreach
  obtain ⟨herr, rfl⟩ := Prod.mk.inj h
  rcases hblame err _ (Prod.ext (of_map_eq_error herr) rfl) with horigin | hcovers
  · rw [horigin]
    exact Cursor.covers_first hr hreach
  · exact (Cursor.reaches_past hr).covers hcovers

/-- A failure is blamed on a character that was read before it. -/
theorem covers_of_next (h : s.next = (.error err, s')) : s.cursor.Covers s'.cursor err.offset := by
  have hnext := h
  revert hnext
  fun_cases next s <;> intro hnext
  case case14 hr _ =>
    rw [next_brace hr] at h
    exact covers_readBy hr (reaches_readCount _ _ _) (fun _ _ h => .inl (offset_of_readCount h)) h
  case case15 hr _ =>
    rw [next_bracket hr] at h
    exact covers_readBy hr (reaches_readClass _ _ _) (fun _ _ => blame_readClass) h
  case case16 hr _ =>
    rw [next_quote hr] at h
    exact covers_readBy hr (reaches_readQuoted _ _ _) (fun _ _ => blame_readLiteral) h
  case case17 hr _ =>
    rw [next_backslash hr] at h
    exact covers_readBy hr (reaches_readEscaped _ _ _)
      (fun _ _ h => .inl (offset_of_readEscaped h)) h
  case case5 hr _ _ _ =>
    obtain ⟨herr, rfl⟩ := Prod.mk.inj hnext
    cases herr
    exact Cursor.covers_first hr (.refl _)
  all_goals cases (Prod.mk.inj hnext).1

/-! ## One call -/

/-- The characters that the next call reads, whatever comes of it. -/
def taken (s : Scanner) : List Char :=
  s.cursor.rest.take (s.cursor.rest.length - s.next.2.cursor.rest.length)

theorem taken_eq {read : List Char} (h : s.cursor.Reaches read s.next.2.cursor) :
    s.taken = read := h.take_eq

theorem reaches_taken (s : Scanner) : s.cursor.Reaches s.taken s.next.2.cursor := by
  obtain ⟨read, hreach, -⟩ := s.reaches_next
  rwa [taken_eq hreach]

/-- Only at the end of the text there is nothing to read. -/
theorem taken_eq_nil_iff : s.taken = [] ↔ s.cursor.rest = [] := by
  obtain ⟨read, hreach, hne⟩ := s.reaches_next
  constructor
  · intro htaken
    by_contra hrest
    exact hne hrest ((taken_eq hreach).symm.trans htaken)
  · intro hrest
    rw [taken, hrest, List.take_nil]

theorem offset_eq_of_next (h : s.next.1 = .ok t) : t.offset = s.cursor.offset := by
  revert h
  fun_cases next s <;> intro h
  case case14 | case15 | case16 | case17 =>
    obtain ⟨_, -, rfl⟩ := of_map_eq_ok h
    rfl
  all_goals cases h <;> rfl

/-- What comes of a call that reads some characters behind a byte offset. The end of the text is
told without reading, where it is. Any other token stands where the call began, and a failure is
blamed on one of the characters. -/
inductive Answer (start : Nat) : List Char → Except LexError Token → Prop
  | finished : Answer start [] (.ok ⟨.eof, none, start⟩)
  | token {read : List Char} {t : Token} (hne : read ≠ []) (ht : t.terminal ≠ .eof)
      (hstart : t.offset = start) : Answer start read (.ok t)
  | failure (before : List Char) (c : Char) (behind : List Char) (cause : LexCause) :
      Answer start (before ++ c :: behind) (.error ⟨start + utf8Length before, cause⟩)

theorem answer_next (s : Scanner) : Answer s.cursor.offset s.taken s.next.1 := by
  by_cases hrest : s.cursor.rest = []
  · rw [taken_eq_nil_iff.mpr hrest, next_of_rest_nil hrest]
    exact .finished
  · rcases hnext : s.next with ⟨err | t, s'⟩
    · obtain ⟨before, c, behind, hreach, hoffset⟩ := covers_of_next hnext
      obtain ⟨offset, cause⟩ := err
      obtain rfl : offset = _ := hoffset
      rw [taken_eq (by rwa [hnext])]
      exact .failure before c behind cause
    · refine .token (mt taken_eq_nil_iff.mp hrest) (fun ht => hrest (rest_of_eof hnext ht)) ?_
      exact offset_eq_of_next (congrArg Prod.fst hnext)

/-! ## Many calls -/

/-- The characters that so many calls in a row read. -/
def takenBy (s : Scanner) (n : Nat) : List Char := (List.range n).flatMap fun i => (s.skip i).taken

theorem takenBy_succ (s : Scanner) (n : Nat) :
    s.takenBy (n + 1) = s.takenBy n ++ (s.skip n).taken := by
  simp [takenBy, List.range_succ]

/-- Every call reads on from where the one before it stopped. -/
theorem reaches_takenBy (s : Scanner) (n : Nat) :
    s.cursor.Reaches (s.takenBy n) (s.skip n).cursor := by
  induction n with
  | zero => exact .refl _
  | succ n ih =>
    rw [takenBy_succ]
    exact ih.trans (s.skip n).reaches_taken

/-- As long as something is left, every call takes at least a character of it. -/
theorem length_rest_skip_le (s : Scanner) (n : Nat) :
    (s.skip n).cursor.rest.length ≤ s.cursor.rest.length - n := by
  induction n with
  | zero => exact Nat.le_refl _
  | succ n ih =>
    have hlength := (s.skip n).reaches_taken.length
    change (s.skip n).next.2.cursor.rest.length ≤ _
    by_cases hrest : (s.skip n).cursor.rest = []
    · have := List.length_eq_zero_iff.mpr hrest
      omega
    · have := List.length_pos_iff.mpr (mt taken_eq_nil_iff.mp hrest)
      omega

theorem skip_add (s : Scanner) (m n : Nat) : s.skip (m + n) = (s.skip m).skip n := by
  induction n with
  | zero => rfl
  | succ n ih => exact congrArg (fun z => z.next.2) ih

/-- With a call for every character, and more, the end of the text is reached. -/
theorem next_skip_length (config : Config) (text : String) (more : Nat) :
    let s := (ofText config text).skip (text.length + more)
    s.next = (.ok ⟨.eof, none, text.utf8ByteSize⟩, s) := by
  intro s
  have hrest : s.cursor.rest = [] := by
    have hlength : s.cursor.rest.length ≤ text.toList.length - (text.length + more) :=
      length_rest_skip_le _ _
    rw [String.length_toList] at hlength
    exact List.length_eq_zero_iff.mp (by omega)
  obtain ⟨hall, hoffset⟩ := (ofText config text).reaches_takenBy (text.length + more)
  have hend : s.cursor.offset = text.utf8ByteSize := by
    rw [hrest, List.append_nil] at hall
    rw [hoffset, ← hall, ← utf8ByteSize_ofList]
    change 0 + (String.ofList text.toList).utf8ByteSize = _
    rw [Nat.zero_add, String.ofList_toList]
  rw [next_of_rest_nil hrest, hend]

/-- After any number of calls, failed ones among them, a scanner stands between two characters of
its text, behind all that these calls have read. The next call reads nothing only at the end;
otherwise it returns a token that stands right there, or blames a character that it reads. So the
text between two tokens is what the calls from the one to the other have read. With as many calls as
characters, nothing is left but the end. -/
theorem calls_tile (config : Config) (text : String) (n : Nat) :
    let s (i : Nat) := (ofText config text).skip i
    (text.toList = (s 0).takenBy n ++ (s n).cursor.rest ∧
        (s n).cursor.offset = utf8Length ((s 0).takenBy n) ∧
        String.Pos.Raw.IsValid text ⟨(s n).cursor.offset⟩ ∧
        (s n).cursor.offset ≤ text.utf8ByteSize) ∧
      (Answer (s n).cursor.offset (s n).taken (s n).next.1 ∧
        (s (n + 1)).cursor.offset = (s n).cursor.offset + utf8Length (s n).taken) ∧
      (∀ k t t', (s n).next.1 = .ok t → (s (n + k)).next.1 = .ok t' →
        part? text t.offset t'.offset = some (String.ofList ((s n).takenBy k))) ∧
      ∀ more, (s (text.length + more)).next =
        (.ok ⟨.eof, none, text.utf8ByteSize⟩, s (text.length + more)) := by
  intro s
  have hplace : (s n).cursor.In text := ((within_ofText config text).skip n).place
  have hstretch := (s 0).reaches_takenBy n
  refine ⟨⟨hstretch.1, ?_, ?_, hplace.offset_le⟩,
    ⟨(s n).answer_next, (s n).reaches_taken.2⟩, ?_, next_skip_length config text⟩
  · exact hstretch.2.trans (Nat.zero_add _)
  · obtain ⟨before, htext, hoffset⟩ := hplace.text_eq
    exact String.Pos.Raw.isValid_iff_exists_append.mpr ⟨_, _, htext, String.Pos.Raw.ext hoffset⟩
  · intro k t t' ht ht'
    have hk := (s n).reaches_takenBy k
    rw [offset_eq_of_next ht, offset_eq_of_next ht',
      show s (n + k) = (s n).skip k from skip_add _ n k]
    exact hplace.part?_eq hk

/-- Two calls fail. One blames a character in the middle of what it reads, the other one the first
character. -/
theorem calls_tile_failures :
    let text := "é[z-a]\\x€b"
    let s (i : Nat) := (ofText {} text).skip i
    (s 1).next.1 = .error ⟨3, .invalidClassRange⟩ ∧ (s 1).taken = ['[', 'z', '-', 'a'] ∧
    Answer (s 1).cursor.offset ['[', 'z', '-', 'a'] (.error ⟨3, .invalidClassRange⟩) ∧
    (s 2).next.1 = .ok ⟨.letters, some (.ofChars [']']), 6⟩ ∧
    (s 3).next.1 = .error ⟨7, .invalidCodepoint⟩ ∧
    (s 4).next.1 = .ok ⟨.letters, some (.ofChars ['b']), 12⟩ ∧
    part? text 6 12 = some "]\\x€" ∧
    ∀ more, (s (text.length + more)).next.1 = .ok ⟨.eof, none, text.utf8ByteSize⟩ := by
  intro text s
  have hfailure : (s 1).next.1 = .error ⟨3, .invalidClassRange⟩ := by decide +kernel
  have htaken : (s 1).taken = ['[', 'z', '-', 'a'] := by decide +kernel
  have hfirst : (s 2).next.1 = .ok ⟨.letters, some (.ofChars [']']), 6⟩ := by decide +kernel
  have hsecond : (s 4).next.1 = .ok ⟨.letters, some (.ofChars ['b']), 12⟩ := by decide +kernel
  have hread : (s 2).takenBy 2 = "]\\x€".toList := by decide +kernel
  have hanswer : Answer (s 1).cursor.offset (s 1).taken (s 1).next.1 := (calls_tile {} text 1).2.1.1
  obtain ⟨-, -, hparts, hend⟩ := calls_tile {} text 2
  have hpart : part? text 6 12 = some (String.ofList ((s 2).takenBy 2)) :=
    hparts 2 _ _ hfirst hsecond
  rw [hfailure, htaken] at hanswer
  rw [hread] at hpart
  exact ⟨hfailure, htaken, hanswer, hfirst, by decide +kernel, hsecond, hpart,
    fun more => congrArg Prod.fst (hend more)⟩

end Scanner

end PatternAutomata
