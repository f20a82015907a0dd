import PatternAutomata.Proofs.Scanner.Spelling
import PatternAutomata.Proofs.Scanner.Tokens

/-!
# Writing tokens down

Every token can be written down in a canonical way that needs to know nothing of its neighbours.
When the spellings of some tokens stand one behind the other, the scanner reads these tokens again,
as long as each of them keeps within the limits.
-/
namespace PatternAutomata

/-- The characters that mean something outside of classes and quoted texts. -/
def metaChars : List Char :=
  ['\\', '|', '&', '!', '(', ')', '[', ']', '\x7b', '\x7d', '*', '+', '?', '.', '^', '$', '"']

/-- What can be written down: a sign, an anchor, the dot, a single letter, a quoted text, a count,
or a class with its members in the order in which they are written. -/
inductive Lexeme where
  | pipe
  | amp
  | bang
  | openParen
  | closeParen
  | caret
  | dollar
  | dot
  | letter (c : Char)
  | quoted (text : List Char)
  | count (least : Nat) (most : Bound)
  | charClass (members : List Char) (negated : Bool)

namespace Lexeme

/-- The kind of the token. -/
def terminal : Lexeme → Terminal
  | pipe => .pipe
  | amp => .amp
  | bang => .bang
  | openParen => .openParen
  | closeParen => .closeParen
  | caret => .caret
  | dollar => .dollar
  | dot => .dot
  | letter _ | quoted _ | charClass _ _ => .letters
  | count _ _ => .count

/-- The meaning of the token. -/
def term : Lexeme → Option Term
  | pipe | amp | bang | openParen | closeParen => none
  | caret => some (.anchor .textStart)
  | dollar => some (.anchor .textEnd)
  | dot => some .dot
  | letter c => some (.ofChars [c])
  | quoted text => some (.literal text)
  | count least most => some (.count least most)
  | charClass members negated =>
    some (.choice (Std.ExtTreeSet.ofList (members.map fun c => [c])) negated)

/-- How the token is written. -/
def spelling : Lexeme → List Char
  | pipe => ['|']
  | amp => ['&']
  | bang => ['!']
  | openParen => ['(']
  | closeParen => [')']
  | caret => ['^']
  | dollar => ['$']
  | dot => ['.']
  | letter c => if c ∈ metaChars then ['\\', c] else [c]
  | quoted text => '"' :: text.flatMap quotedSpelling ++ ['"']
  | count least most => '\x7b' :: boundsSpelling least most ++ ['\x7d']
  | charClass members negated => '[' :: classSpelling members negated ++ [']']

/-- How many parentheses are open behind the token, of which `depth` are open before it. A closing
one that closes nothing does not count. -/
def depthAfter (depth : Nat) : Lexeme → Nat
  | openParen => depth + 1
  | closeParen => depth - 1
  | _ => depth

/-- How many parentheses are open behind some tokens. -/
def openAfter (xs : List Lexeme) : Nat := xs.foldl depthAfter 0

/-- Whether the token keeps within the limits: the bounds of a count are in order and not too large,
and a class has members, but not too many of them. -/
def Fits (config : Config) : Lexeme → Prop
  | count least most => most.Allows least ∧ least ≤ config.repetitionLimit ∧
      ∀ n, most = .finite n → n ≤ config.repetitionLimit
  | charClass members _ => members ≠ [] ∧ members.length ≤ config.classLimit
  | _ => True

/-- The tokens of some lexemes whose spellings stand one behind the other. -/
def layout (offset : Nat) : List Lexeme → List Token
  | [] => []
  | x :: xs => ⟨x.terminal, x.term, offset⟩ :: layout (offset + utf8Length x.spelling) xs

theorem content_layout (offset : Nat) (xs : List Lexeme) :
    (layout offset xs).map (fun t => (t.terminal, t.term)) =
      xs.map fun x => (x.terminal, x.term) := by
  induction xs generalizing offset with
  | nil => rfl
  | cons x xs ih => rw [layout, List.map_cons, List.map_cons, ih]

theorem terminal_ne_eof (x : Lexeme) : x.terminal ≠ .eof := by
  cases x <;> simp [terminal]

/-! ## One token -/

section
variable {s : Scanner} {rest : List Char}

/-- Whether the scanner reads the token next and stops behind its spelling. -/
def ReadNext (x : Lexeme) (s : Scanner) (rest : List Char) : Prop :=
  ∃ s', s.next = (.ok ⟨x.terminal, x.term, s.cursor.offset⟩, s') ∧ s'.cursor.rest = rest ∧
    s'.depth = x.depthAfter s.depth

theorem readBy_yields {reader : Config → Nat → Cursor → Read Term} {terminal : Terminal} {c : Char}
    {behind : List Char} {term : Term}
    (h : (reader s.config s.cursor.offset (s.cursor.past c behind)).Yields term rest) :
    ∃ s', s.readBy reader terminal c behind =
      (.ok ⟨terminal, some term, s.cursor.offset⟩, s') ∧ s'.cursor.rest = rest ∧
        s'.depth = s.depth := by
  obtain ⟨after, hread, hrest⟩ := h
  rw [Scanner.readBy, hread]
  exact ⟨_, rfl, hrest, rfl⟩

theorem next_plain {c : Char} (hc : c ∉ metaChars) (hr : s.cursor.rest = c :: rest) :
    s.next = (.ok ⟨.letters, some (Scanner.termOfLetter s.config c), s.cursor.offset⟩,
      { s with cursor := s.cursor.past c rest }) := by
  simp only [metaChars, List.mem_cons, not_or] at hc
  unfold Scanner.next
  rw [hr]
  dsimp only
  split
  case h_16 => rfl
  all_goals simp at hc

theorem isPunctuation_of_meta {c : Char} (hc : c ∈ metaChars) : isPunctuation c = true := by
  have hall : metaChars.all isPunctuation = true := by decide
  exact List.all_eq_true.mp hall c hc

theorem readNext_letter {c : Char} (hfold : s.config.caseInsensitive = false)
    (hr : s.cursor.rest = (letter c).spelling ++ rest) : (letter c).ReadNext s rest := by
  have hterm : Scanner.termOfLetter s.config c = .ofChars [c] := by
    simp [Scanner.termOfLetter, hfold]
  by_cases hc : c ∈ metaChars
  · rw [spelling, if_pos hc, List.cons_append, List.singleton_append] at hr
    obtain ⟨after, hescape, hafter⟩ := @readEscape_punctuation s.cursor.offset
      (s.cursor.past '\\' (c :: rest)) _ _ (isPunctuation_of_meta hc) rfl
    rw [ReadNext, Scanner.next_backslash hr]
    refine readBy_yields ⟨after, ?_, hafter⟩
    simp only [Scanner.readEscaped, hescape, hterm]
  · rw [spelling, if_neg hc, List.singleton_append] at hr
    rw [ReadNext, next_plain hc hr, hterm]
    exact ⟨_, rfl, rfl, rfl⟩

theorem enclosed_append (first last : Char) (text rest : List Char) :
    first :: text ++ [last] ++ rest = first :: (text ++ last :: rest) := by simp

theorem readNext_quoted {text : List Char} (hr : s.cursor.rest = (quoted text).spelling ++ rest) :
    (quoted text).ReadNext s rest := by
  rw [spelling, enclosed_append] at hr
  rw [ReadNext, Scanner.next_quote hr]
  exact readBy_yields ((readQuoted_spelling s.cursor.offset rfl).map Term.literal)

theorem readNext_charClass {members : List Char} {negated : Bool}
    (hfold : s.config.caseInsensitive = false) (hx : (charClass members negated).Fits s.config)
    (hr : s.cursor.rest = (charClass members negated).spelling ++ rest) :
    (charClass members negated).ReadNext s rest := by
  rw [spelling, enclosed_append] at hr
  rw [ReadNext, Scanner.next_bracket hr]
  exact readBy_yields (readClass_spelling s.cursor.offset hfold hx.1 hx.2 rfl)

theorem readNext_count {least : Nat} {most : Bound}
    (hceiling : s.config.repetitionLimit ≤ Automaton.countCeiling)
    (hx : (count least most).Fits s.config)
    (hr : s.cursor.rest = (count least most).spelling ++ rest) :
    (count least most).ReadNext s rest := by
  rw [spelling, enclosed_append] at hr
  obtain ⟨horder, hlimit⟩ := hx
  have hle : most.UpTo Automaton.countCeiling least :=
    ⟨hlimit.1.trans hceiling, fun n hn => (hlimit.2 n hn).trans hceiling⟩
  have hbody : boundsSpelling least most ++ '\x7d' :: rest =
      (boundsSpelling least most ++ ['\x7d']) ++ rest := by simp
  rw [ReadNext, Scanner.next_of_count hr hbody (countBody_boundsSpelling least most) hle hlimit
    horder]
  exact ⟨_, rfl, rfl, rfl⟩

/-- Whatever is written next is read next, and no more than its spelling is taken. -/
theorem readNext_spelling {x : Lexeme} (hfold : s.config.caseInsensitive = false)
    (hceiling : s.config.repetitionLimit ≤ Automaton.countCeiling) (hx : x.Fits s.config)
    (hdepth : x.depthAfter s.depth ≤ s.config.nestLimit)
    (hr : s.cursor.rest = x.spelling ++ rest) : x.ReadNext s rest := by
  cases x with
  | letter c => exact readNext_letter hfold hr
  | quoted text => exact readNext_quoted hr
  | count least most => exact readNext_count hceiling hx hr
  | charClass members negated => exact readNext_charClass hfold hx hr
  | openParen =>
    have hdeep : ¬ s.config.nestLimit < s.depth + 1 := Nat.not_lt.mpr hdepth
    rw [ReadNext, Scanner.next_openParen hr, if_neg hdeep]
    exact ⟨_, rfl, rfl, rfl⟩
  | pipe | amp | bang | closeParen | caret | dollar | dot =>
    simp only [spelling, List.singleton_append] at hr
    simp only [ReadNext, Scanner.next, hr]
    exact ⟨_, rfl, rfl, rfl⟩

/-- What is read of the text tells how far the scanner has come. -/
theorem offset_of_next {s' : Scanner} {t : Token} {text : List Char}
    (hr : s.cursor.rest = text ++ rest) (hnext : s.next = (.ok t, s'))
    (hrest : s'.cursor.rest = rest) :
    s'.cursor.offset = s.cursor.offset + utf8Length text := by
  obtain ⟨taken, hreach, -⟩ := s.reaches_next
  rw [hnext] at hreach
  have htaken : taken ++ rest = text ++ rest := by rw [← hr, hreach.1, hrest]
  rw [← List.append_cancel_right htaken]
  exact hreach.2

end

/-! ## Many tokens -/

/-- A scan of spellings that stand one behind the other gives the tokens where they stand, and then
the end of the text. -/
theorem scan_layout {xs : List Lexeme} {s : Scanner} (hfold : s.config.caseInsensitive = false)
    (hceiling : s.config.repetitionLimit ≤ Automaton.countCeiling)
    (hxs : ∀ x ∈ xs, x.Fits s.config)
    (hdepth : ∀ part, part <+: xs → part.foldl depthAfter s.depth ≤ s.config.nestLimit)
    (hr : s.cursor.rest = xs.flatMap spelling) :
    s.scan = (layout s.cursor.offset xs,
      .ok ⟨.eof, none, s.cursor.offset + utf8Length (xs.flatMap spelling)⟩) := by
  induction xs generalizing s with
  | nil => exact Scanner.scan_last (Scanner.next_of_rest_nil hr) rfl
  | cons x xs ih =>
    rw [List.flatMap_cons] at hr
    have hx : x.Fits s.config := hxs x List.mem_cons_self
    have hdeep : x.depthAfter s.depth ≤ s.config.nestLimit :=
      hdepth [x] (List.cons_prefix_cons.mpr ⟨rfl, List.nil_prefix⟩)
    obtain ⟨s', hnext, hrest, hs'⟩ := readNext_spelling hfold hceiling hx hdeep hr
    have hconfig : s'.config = s.config := Scanner.config_of_next hnext
    have hoffset := offset_of_next hr hnext hrest
    have hfurther : s'.scan = (layout s'.cursor.offset xs,
        .ok ⟨.eof, none, s'.cursor.offset + utf8Length (xs.flatMap spelling)⟩) := by
      apply ih
      · rw [hconfig, hfold]
      · rw [hconfig]
        exact hceiling
      · intro y hy
        rw [hconfig]
        exact hxs y (List.mem_cons_of_mem x hy)
      · intro part hpart
        rw [hconfig, hs']
        exact hdepth (x :: part) (List.cons_prefix_cons.mpr ⟨rfl, hpart⟩)
      · exact hrest
    rw [Scanner.scan_further hnext x.terminal_ne_eof, hfurther, hoffset, layout, List.flatMap_cons,
      utf8Length_append, Nat.add_assoc]

/-- Without case folds, tokens within the limits that are written down one behind the other are read
back as they are, and nothing but the end of the text follows. The largest bound of a count has to
be a number of 32 bits, like every bound that is read. -/
theorem scan_written (config : Config) (xs : List Lexeme) (hfold : config.caseInsensitive = false)
    (hceiling : config.repetitionLimit ≤ Automaton.countCeiling) (hxs : ∀ x ∈ xs, x.Fits config)
    (hdepth : ∀ part, part <+: xs → openAfter part ≤ config.nestLimit) :
    ∃ ts, (Scanner.ofText config (String.ofList (xs.flatMap spelling))).scan =
        (ts, .ok ⟨.eof, none, utf8Length (xs.flatMap spelling)⟩) ∧
      ts.map (fun t => (t.terminal, t.term)) = xs.map fun x => (x.terminal, x.term) := by
  refine ⟨layout 0 xs, ?_, content_layout 0 xs⟩
  have hscan : (Scanner.ofText config (String.ofList (xs.flatMap spelling))).scan = _ :=
    scan_layout hfold hceiling hxs hdepth String.toList_ofList
  rw [hscan]
  simp [Scanner.ofText]

/-- Neighbours that would be read otherwise if a spelling took more or less than its own. -/
def delicate : List Lexeme :=
  [.openParen, .letter '*', .quoted ['"', '^', '\\'], .charClass ['-', ']', '^'] true,
    .count 2 (.finite 12), .letter '2', .letter ',', .letter '\x7d', .closeParen, .closeParen,
    .count 3 .infinity]

theorem scan_delicate :
    delicate.flatMap spelling =
      ("(\\*\"\\\"^\\\\\"[^\\u\x7b2d\x7d\\u\x7b5d\x7d\\u\x7b5e\x7d]\x7b2,12\x7d" ++
        "2,\\\x7d))\x7b3,\x7d").toList ∧
    ∃ ts, (Scanner.ofText {} (String.ofList (delicate.flatMap spelling))).scan =
        (ts, .ok ⟨.eof, none, utf8Length (delicate.flatMap spelling)⟩) ∧
      ts.map (fun t => (t.terminal, t.term)) = delicate.map fun x => (x.terminal, x.term) := by
  refine ⟨by decide, scan_written {} delicate rfl (by decide) ?_ ?_⟩
  · simp [delicate, Fits, Bound.Allows]
  · intro part hpart
    rw [← List.mem_inits] at hpart
    revert part
    decide

end Lexeme

end PatternAutomata
