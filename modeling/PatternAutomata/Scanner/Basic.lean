import PatternAutomata.CharClass.CaseFold
import PatternAutomata.Pattern.Config
import PatternAutomata.Pattern.Token
import PatternAutomata.Scanner.Bracket
import PatternAutomata.Scanner.Count
import PatternAutomata.Scanner.Quoted

/-!
# The scanner

Reads a pattern text token by token. It keeps track of open parentheses and counts the atoms that
the grammar completes. After a failure it stands where reading stopped, and can go on from there.
-/
namespace PatternAutomata

/-- A pattern text that is being read. -/
structure Scanner where
  config : Config
  cursor : Cursor
  /-- How many parentheses are open. -/
  depth : Nat := 0
  /-- How many atoms have been completed. -/
  atoms : Nat := 0

namespace Scanner

/-- A scanner at the beginning of a text. -/
def ofText (config : Config) (text : String) : Scanner :=
  { config := config, cursor := ⟨text.toList, 0⟩ }

/-- The term of a class, with case folds if they are asked for, unless it is too large. -/
def termOfClass (config : Config) (origin : Nat) (members : CharClass) (negated : Bool) :
    Except LexError Term :=
  let members := if config.caseInsensitive then members.foldCase else members
  if config.classLimit < members.size then .error ⟨origin, .classTooLarge config.classLimit⟩
  else .ok (.choice (Std.ExtTreeSet.ofList (members.chars.map fun c => [c])) negated)

/-- The term of a single letter, with case folds if they are asked for. -/
def termOfLetter (config : Config) (c : Char) : Term :=
  if config.caseInsensitive then .ofChars (CharClass.singleton c).foldCase.chars else .ofChars [c]

/-- Whether a class is negated, and the place where its items begin. -/
def openClass (cur : Cursor) : Bool × Cursor :=
  match cur.rest with
  | '^' :: rest => (true, cur.past '^' rest)
  | _ => (false, cur)

/-- The term of a class whose opening bracket, at `origin`, has just been read. -/
def readClass (config : Config) (origin : Nat) (cur : Cursor) : Read Term :=
  let opened := openClass cur
  match readItems config.encoding origin [] opened.2 with
  | (.error e, after) => (.error e, after)
  | (.ok [], after) => (.error ⟨origin, .emptyClass⟩, after)
  | (.ok (r :: rs), after) => (termOfClass config origin (.ofRanges (r :: rs)) opened.1, after)

/-- The term of a text whose opening quotation mark, at `origin`, has just been read. -/
def readLiteral (origin : Nat) (cur : Cursor) : Read Term :=
  let read := readQuoted origin [] cur
  (read.1.map .literal, read.2)

/-- The term of an escape whose backslash, at `origin`, has just been read. -/
def readEscaped (config : Config) (origin : Nat) (cur : Cursor) : Read Term :=
  match readEscape origin cur with
  | (.error e, after) => (.error e, after)
  | (.ok (.char c), after) => (.ok (termOfLetter config c), after)
  | (.ok (.shorthand members negated), after) => (termOfClass config origin members negated, after)

/-- The term of a count whose opening brace, at `origin`, has just been read. -/
def readCount (config : Config) (origin : Nat) (cur : Cursor) : Read Term :=
  match readBounds origin cur with
  | (.error e, after) => (.error e, after)
  | (.ok (least, most), after) =>
    ((checkBounds origin config.repetitionLimit least most).map fun b => .count b.1 b.2, after)

/-- Read one token. -/
def next (s : Scanner) : Except LexError Token × Scanner :=
  let origin := s.cursor.offset
  match s.cursor.rest with
  | [] => (.ok ⟨.eof, none, origin⟩, s)
  | c :: rest =>
    let cur := s.cursor.past c rest
    let bare (terminal : Terminal) : Except LexError Token × Scanner :=
      (.ok ⟨terminal, none, origin⟩, { s with cursor := cur })
    let meaning (terminal : Terminal) (term : Term) : Except LexError Token × Scanner :=
      (.ok ⟨terminal, some term, origin⟩, { s with cursor := cur })
    let reading (terminal : Terminal) (read : Read Term) : Except LexError Token × Scanner :=
      (read.1.map fun term => ⟨terminal, some term, origin⟩, { s with cursor := read.2 })
    match c with
    | '|' => bare .pipe
    | '&' => bare .amp
    | '!' => bare .bang
    | '(' =>
      let deeper := { s with cursor := cur, depth := s.depth + 1 }
      if s.config.nestLimit < deeper.depth then
        (.error ⟨origin, .nestLimitExceeded s.config.nestLimit⟩, deeper)
      else (.ok ⟨.openParen, none, origin⟩, deeper)
    | ')' =>
      (.ok ⟨.closeParen, none, origin⟩, { s with cursor := cur, depth := s.depth - 1 })
    | '.' => meaning .dot .dot
    | '^' => meaning .caret (.anchor .textStart)
    | '$' => meaning .dollar (.anchor .textEnd)
    | '*' => meaning .count (.count 0 .infinity)
    | '+' => meaning .count (.count 1 .infinity)
    | '?' => meaning .count (.count 0 (.finite 1))
    | '\x7b' => reading .count (readCount s.config origin cur)
    | '[' => reading .letters (readClass s.config origin cur)
    | '"' => reading .letters (readLiteral origin cur)
    | '\\' => reading .letters (readEscaped s.config origin cur)
    | c => meaning .letters (termOfLetter s.config c)

theorem reaches_openClass (cur : Cursor) : ∃ taken, cur.Reaches taken (openClass cur).2 := by
  unfold openClass
  split
  · next hr => exact ⟨_, Cursor.reaches_past hr⟩
  · exact ⟨_, .refl _⟩

theorem reaches_readClass (config : Config) (origin : Nat) (cur : Cursor) :
    ∃ taken, cur.Reaches taken (readClass config origin cur).2 := by
  obtain ⟨taken, h⟩ := reaches_openClass cur
  obtain ⟨taken', h'⟩ := reaches_readItems config.encoding origin [] (openClass cur).2
  have h'' := h.trans h'
  unfold readClass
  dsimp only
  split <;> next hr => rw [hr] at h''; exact ⟨_, h''⟩

theorem reaches_readEscaped (config : Config) (origin : Nat) (cur : Cursor) :
    ∃ taken, cur.Reaches taken (readEscaped config origin cur).2 := by
  obtain ⟨taken, h⟩ := reaches_readEscape origin cur
  unfold readEscaped
  split <;> next hr => rw [hr] at h; exact ⟨_, h⟩

theorem reaches_readCount (config : Config) (origin : Nat) (cur : Cursor) :
    ∃ taken, cur.Reaches taken (readCount config origin cur).2 := by
  obtain ⟨taken, h⟩ := reaches_readBounds origin cur
  unfold readCount
  split <;> next hr => rw [hr] at h; exact ⟨_, h⟩

/-- Reading a token moves the cursor forward, except at the end. -/
theorem reaches_next (s : Scanner) :
    ∃ taken, s.cursor.Reaches taken s.next.2.cursor ∧ (s.cursor.rest ≠ [] → taken ≠ []) := by
  unfold next
  dsimp only
  split
  · next hr => exact ⟨_, .refl _, fun h => absurd hr h⟩
  · next c rest hr =>
    have h := Cursor.reaches_past hr
    have further {taken : List Char} {d : Cursor} (h' : (s.cursor.past c rest).Reaches taken d) :
        ∃ taken, s.cursor.Reaches taken d ∧ (s.cursor.rest ≠ [] → taken ≠ []) :=
      ⟨_, h.trans h', by simp⟩
    split
    case h_4 => split <;> exact further (.refl _)
    case h_12 => exact further (reaches_readCount s.config _ _).choose_spec
    case h_13 => exact further (reaches_readClass s.config _ _).choose_spec
    case h_14 => exact further (reaches_readQuoted _ [] _).choose_spec
    case h_15 => exact further (reaches_readEscaped s.config _ _).choose_spec
    all_goals exact further (.refl _)

theorem rest_next_le (s : Scanner) : s.next.2.cursor.rest.length ≤ s.cursor.rest.length := by
  obtain ⟨taken, h, -⟩ := s.reaches_next
  have := h.length
  omega

theorem rest_next_lt (s : Scanner) (t : Token) (h : s.next.1 = .ok t) (ht : t.terminal ≠ .eof) :
    s.next.2.cursor.rest.length < s.cursor.rest.length := by
  obtain ⟨taken, hreach, hne⟩ := s.reaches_next
  have hlen := hreach.length
  by_cases hr : s.cursor.rest = []
  · unfold next at h
    dsimp only at h
    rw [hr] at h
    obtain rfl := Except.ok.inj h
    exact absurd rfl ht
  · have := List.length_pos_iff.mpr (hne hr)
    omega

/-- The scanner as a source of tokens. Every completed atom is counted and kept as it is. -/
def source : TokenSource Scanner where
  next := next
  encoding s := s.config.encoding
  onAtom a s := (a, { s with atoms := s.atoms + 1 })
  remaining s := s.cursor.rest.length
  next_le := rest_next_le
  next_lt := rest_next_lt
  onAtom_le _ _ := Nat.le_refl _

end Scanner

end PatternAutomata
