import PatternAutomata.Parser.Table
import PatternAutomata.Pattern.Token

/-!
# Derivation trees

A tree of the grammar has a node for each rule and the tokens of the pattern as its leaves, so what
it derives is read off its leaves. The parser visits its nodes bottom up and from left to right. The
moves on the way, together with the leaves, tell the tree.
-/
namespace PatternAutomata

/-- A token of a given kind. -/
abbrev Leaf (t : Terminal) := { token : Token // token.terminal = t }

instance (t : Terminal) : Inhabited (Leaf t) := ⟨⟨⟨t, none, 0⟩, rfl⟩⟩

/-- The kinds of tokens that are atoms by themselves. -/
inductive Single where
  | letters
  | dot
  | caret
  | dollar
deriving DecidableEq, Repr

namespace Single

/-- The kind of the token. -/
def terminal : Single → Terminal
  | .letters => .letters
  | .dot => .dot
  | .caret => .caret
  | .dollar => .dollar

/-- The rule that makes an atom of the token. -/
def rule : Single → Rule
  | .letters => .letters
  | .dot => .dot
  | .caret => .caret
  | .dollar => .dollar

/-- Where the parser stands behind the token. -/
def place : Single → Place
  | .letters => .letters
  | .dot => .dot
  | .caret => .caret
  | .dollar => .dollar

theorem rule_ne_group (k : Single) : k.rule ≠ .group := by
  cases k <;> decide

theorem rule_inj {k k' : Single} (h : k.rule = k'.rule) : k = k' := by
  cases k <;> cases k' <;> first | rfl | exact absurd h (by decide)

end Single

/-- The derivation trees of a symbol. -/
inductive Tree : Symbol → Type where
  | pattern (whole : Tree .alternative) : Tree .pattern
  | firstAlternative (c : Tree .conjunction) : Tree .alternative
  | nextAlternative (l : Tree .alternative) (bar : Leaf .pipe) (r : Tree .conjunction) :
    Tree .alternative
  | firstConjunct (n : Tree .negation) : Tree .conjunction
  | nextConjunct (l : Tree .conjunction) (sign : Leaf .amp) (r : Tree .negation) : Tree .conjunction
  | plain (s : Tree .sequence) : Tree .negation
  | negated (sign : Leaf .bang) (s : Tree .sequence) : Tree .negation
  | emptySequence : Tree .sequence
  | nextItem (s : Tree .sequence) (i : Tree .item) : Tree .sequence
  | once (a : Tree .atom) : Tree .item
  | counted (a : Tree .atom) (count : Leaf .count) : Tree .item
  | single (k : Single) (leaf : Leaf k.terminal) : Tree .atom
  | group (opening : Leaf .openParen) (inner : Tree .alternative) (closing : Leaf .closeParen) :
    Tree .atom

/-- What a parser does next: read a token, or apply a rule. -/
inductive Move where
  | read
  | reduce (rule : Rule)
deriving DecidableEq, Repr

namespace Tree
variable {s : Symbol}

/-- The leaves of a tree, from left to right. -/
def tokens : {s : Symbol} → Tree s → List Token
  | _, .pattern whole => whole.tokens
  | _, .firstAlternative c => c.tokens
  | _, .nextAlternative l bar r => l.tokens ++ [bar.1] ++ r.tokens
  | _, .firstConjunct n => n.tokens
  | _, .nextConjunct l sign r => l.tokens ++ [sign.1] ++ r.tokens
  | _, .plain s => s.tokens
  | _, .negated sign s => [sign.1] ++ s.tokens
  | _, .emptySequence => []
  | _, .nextItem s i => s.tokens ++ i.tokens
  | _, .once a => a.tokens
  | _, .counted a count => a.tokens ++ [count.1]
  | _, .single _ leaf => [leaf.1]
  | _, .group opening inner closing => [opening.1] ++ inner.tokens ++ [closing.1]

/-- The kinds of the leaves. -/
def kinds (tree : Tree s) : List Terminal := tree.tokens.map (·.terminal)

/-- The moves of a parser that reads the leaves and applies the rules of the nodes. -/
def moves : {s : Symbol} → Tree s → List Move
  | _, .pattern whole => whole.moves ++ [.reduce .pattern]
  | _, .firstAlternative c => c.moves ++ [.reduce .firstAlternative]
  | _, .nextAlternative l _ r => l.moves ++ [.read] ++ r.moves ++ [.reduce .nextAlternative]
  | _, .firstConjunct n => n.moves ++ [.reduce .firstConjunct]
  | _, .nextConjunct l _ r => l.moves ++ [.read] ++ r.moves ++ [.reduce .nextConjunct]
  | _, .plain s => s.moves ++ [.reduce .plain]
  | _, .negated _ s => [.read] ++ s.moves ++ [.reduce .negated]
  | _, .emptySequence => [.reduce .emptySequence]
  | _, .nextItem s i => s.moves ++ i.moves ++ [.reduce .nextItem]
  | _, .once a => a.moves ++ [.reduce .once]
  | _, .counted a _ => a.moves ++ [.read] ++ [.reduce .counted]
  | _, .single k _ => [.read] ++ [.reduce k.rule]
  | _, .group _ inner _ => [.read] ++ inner.moves ++ [.read] ++ [.reduce .group]

/-- The rule of the root. -/
def root : {s : Symbol} → Tree s → Rule
  | _, .pattern _ => .pattern
  | _, .firstAlternative _ => .firstAlternative
  | _, .nextAlternative _ _ _ => .nextAlternative
  | _, .firstConjunct _ => .firstConjunct
  | _, .nextConjunct _ _ _ => .nextConjunct
  | _, .plain _ => .plain
  | _, .negated _ _ => .negated
  | _, .emptySequence => .emptySequence
  | _, .nextItem _ _ => .nextItem
  | _, .once _ => .once
  | _, .counted _ _ => .counted
  | _, .single k _ => k.rule
  | _, .group _ _ _ => .group

/-- The root is the last node that is visited. -/
theorem exists_moves_eq (tree : Tree s) : ∃ ms, tree.moves = ms ++ [.reduce tree.root] := by
  cases tree with
  | emptySequence => exact ⟨[], rfl⟩
  | _ => exact ⟨_, rfl⟩

@[simp] theorem kinds_nextAlternative (l : Tree .alternative) (bar : Leaf .pipe)
    (r : Tree .conjunction) : (nextAlternative l bar r).kinds = l.kinds ++ .pipe :: r.kinds := by
  simp [kinds, tokens, bar.2]

@[simp] theorem kinds_nextConjunct (l : Tree .conjunction) (sign : Leaf .amp) (r : Tree .negation) :
    (nextConjunct l sign r).kinds = l.kinds ++ .amp :: r.kinds := by
  simp [kinds, tokens, sign.2]

@[simp] theorem kinds_negated (sign : Leaf .bang) (s : Tree .sequence) :
    (negated sign s).kinds = .bang :: s.kinds := by
  simp [kinds, tokens, sign.2]

@[simp] theorem kinds_nextItem (s : Tree .sequence) (i : Tree .item) :
    (nextItem s i).kinds = s.kinds ++ i.kinds := by
  simp [kinds, tokens]

@[simp] theorem kinds_counted (a : Tree .atom) (count : Leaf .count) :
    (counted a count).kinds = a.kinds ++ [.count] := by
  simp [kinds, tokens, count.2]

@[simp] theorem kinds_single (k : Single) (leaf : Leaf k.terminal) :
    (single k leaf).kinds = [k.terminal] := by
  simp [kinds, tokens, leaf.2]

@[simp] theorem kinds_group (opening : Leaf .openParen) (inner : Tree .alternative)
    (closing : Leaf .closeParen) :
    (group opening inner closing).kinds = .openParen :: (inner.kinds ++ [.closeParen]) := by
  simp [kinds, tokens, opening.2, closing.2]

variable {ms ms' : List Move} {ts ts' : List Token}

theorem root_eq {t t' : Tree s} (hm : ms ++ t.moves = ms' ++ t'.moves) : t.root = t'.root := by
  obtain ⟨ns, hns⟩ := t.exists_moves_eq
  obtain ⟨ns', hns'⟩ := t'.exists_moves_eq
  rw [hns, hns', ← List.append_assoc, ← List.append_assoc, List.append_singleton_inj] at hm
  exact Move.reduce.inj hm.2

/-- The moves and the leaves of a tree tell the tree, read backwards from any end. -/
theorem eq_of_suffix (t t' : Tree s) (hm : ms ++ t.moves = ms' ++ t'.moves)
    (ht : ts ++ t.tokens = ts' ++ t'.tokens) : t = t' ∧ ms = ms' ∧ ts = ts' := by
  induction t generalizing ms ms' ts ts' with
  | pattern whole ih =>
    cases t' with
    | pattern whole' =>
      simp only [moves, tokens, ← List.append_assoc, List.append_singleton_inj] at hm ht
      obtain ⟨rfl, rfl, rfl⟩ := ih whole' hm.1 ht
      exact ⟨rfl, rfl, rfl⟩
  | firstAlternative c ih =>
    cases t' with
    | firstAlternative c' =>
      simp only [moves, tokens, ← List.append_assoc, List.append_singleton_inj] at hm ht
      obtain ⟨rfl, rfl, rfl⟩ := ih c' hm.1 ht
      exact ⟨rfl, rfl, rfl⟩
    | _ => exact nomatch root_eq hm
  | nextAlternative l bar r ihl ihr =>
    cases t' with
    | nextAlternative l' bar' r' =>
      simp only [moves, tokens, ← List.append_assoc, List.append_singleton_inj] at hm ht
      obtain ⟨rfl, hm, ht⟩ := ihr r' hm.1 ht
      rw [List.append_singleton_inj] at hm ht
      obtain ⟨rfl, rfl, rfl⟩ := ihl l' hm.1 ht.1
      exact ⟨by rw [Subtype.ext ht.2], rfl, rfl⟩
    | _ => exact nomatch root_eq hm
  | firstConjunct n ih =>
    cases t' with
    | firstConjunct n' =>
      simp only [moves, tokens, ← List.append_assoc, List.append_singleton_inj] at hm ht
      obtain ⟨rfl, rfl, rfl⟩ := ih n' hm.1 ht
      exact ⟨rfl, rfl, rfl⟩
    | _ => exact nomatch root_eq hm
  | nextConjunct l sign r ihl ihr =>
    cases t' with
    | nextConjunct l' sign' r' =>
      simp only [moves, tokens, ← List.append_assoc, List.append_singleton_inj] at hm ht
      obtain ⟨rfl, hm, ht⟩ := ihr r' hm.1 ht
      rw [List.append_singleton_inj] at hm ht
      obtain ⟨rfl, rfl, rfl⟩ := ihl l' hm.1 ht.1
      exact ⟨by rw [Subtype.ext ht.2], rfl, rfl⟩
    | _ => exact nomatch root_eq hm
  | plain s ih =>
    cases t' with
    | plain s' =>
      simp only [moves, tokens, ← List.append_assoc, List.append_singleton_inj] at hm ht
      obtain ⟨rfl, rfl, rfl⟩ := ih s' hm.1 ht
      exact ⟨rfl, rfl, rfl⟩
    | _ => exact nomatch root_eq hm
  | negated sign s ih =>
    cases t' with
    | negated sign' s' =>
      simp only [moves, tokens, ← List.append_assoc, List.append_singleton_inj] at hm ht
      obtain ⟨rfl, hm, ht⟩ := ih s' hm.1 ht
      rw [List.append_singleton_inj] at hm ht
      exact ⟨by rw [Subtype.ext ht.2], hm.1, ht.1⟩
    | _ => exact nomatch root_eq hm
  | emptySequence =>
    cases t' with
    | emptySequence =>
      simp only [moves, tokens, List.append_singleton_inj, List.append_nil] at hm ht
      exact ⟨rfl, hm.1, ht⟩
    | _ => exact nomatch root_eq hm
  | nextItem s i ihs ihi =>
    cases t' with
    | nextItem s' i' =>
      simp only [moves, tokens, ← List.append_assoc, List.append_singleton_inj] at hm ht
      obtain ⟨rfl, hm, ht⟩ := ihi i' hm.1 ht
      obtain ⟨rfl, rfl, rfl⟩ := ihs s' hm ht
      exact ⟨rfl, rfl, rfl⟩
    | _ => exact nomatch root_eq hm
  | once a ih =>
    cases t' with
    | once a' =>
      simp only [moves, tokens, ← List.append_assoc, List.append_singleton_inj] at hm ht
      obtain ⟨rfl, rfl, rfl⟩ := ih a' hm.1 ht
      exact ⟨rfl, rfl, rfl⟩
    | _ => exact nomatch root_eq hm
  | counted a count ih =>
    cases t' with
    | counted a' count' =>
      simp only [moves, tokens, ← List.append_assoc, List.append_singleton_inj] at hm ht
      obtain ⟨rfl, rfl, rfl⟩ := ih a' hm.1.1 ht.1
      exact ⟨by rw [Subtype.ext ht.2], rfl, rfl⟩
    | _ => exact nomatch root_eq hm
  | single k leaf =>
    cases t' with
    | single k' leaf' =>
      obtain rfl := Single.rule_inj (root_eq hm)
      simp only [moves, tokens, ← List.append_assoc, List.append_singleton_inj] at hm ht
      exact ⟨by rw [Subtype.ext ht.2], hm.1.1, ht.1⟩
    | group => exact absurd (root_eq hm) k.rule_ne_group
  | group opening inner closing ih =>
    cases t' with
    | single k' => exact absurd (root_eq hm).symm k'.rule_ne_group
    | group opening' inner' closing' =>
      simp only [moves, tokens, ← List.append_assoc, List.append_singleton_inj] at hm ht
      obtain ⟨rfl, hm, hts⟩ := ih inner' hm.1.1 ht.1
      rw [List.append_singleton_inj] at hm hts
      exact ⟨by rw [Subtype.ext ht.2, Subtype.ext hts.2], hm.1, hts.1⟩

end Tree

/-- Whether the kinds of some tokens are derived by the grammar. -/
def Sentence (ks : List Terminal) : Prop := ∃ tree : Tree .pattern, tree.kinds = ks

/-- Whether a sentence begins with the given kinds. -/
def Viable (ks : List Terminal) : Prop := ∃ rest, Sentence (ks ++ rest)

/-- Whether a token of the given kind can come next. The end of the pattern can come behind a
sentence. -/
def CanFollow (ks : List Terminal) (t : Terminal) : Prop :=
  if t = .eof then Sentence ks else Viable (ks ++ [t])

theorem Viable.of_append {ks : List Terminal} (rest : List Terminal) (h : Viable (ks ++ rest)) :
    Viable ks := by
  obtain ⟨more, h⟩ := h
  exact ⟨rest ++ more, by rwa [← List.append_assoc]⟩

end PatternAutomata
