import PatternAutomata.Pattern.Terminal

/-!
# The grammar and its table

```text
pattern     → alternative
alternative → conjunction | alternative '|' conjunction
conjunction → negation | conjunction '&' negation
negation    → sequence | '!' sequence
sequence    → ε | sequence item
item        → atom | atom count
atom        → letters | dot | '^' | '$' | '(' alternative ')'
```

The parser stands at one of 22 places, each named for the symbol that led there. `action` says what
to do there on the next token, `goto` where to stand after a reduction. The `rank` of the place goes
down with every reduction, so only a few of them can follow one another.
-/
namespace PatternAutomata

/-- The symbols that the rules of the grammar define. -/
inductive Symbol where
  | pattern
  | alternative
  | conjunction
  | negation
  | sequence
  | item
  | atom
deriving DecidableEq, Repr

/-- The rules of the grammar. -/
inductive Rule where
  | pattern
  | firstAlternative
  | nextAlternative
  | firstConjunct
  | nextConjunct
  | plain
  | negated
  | emptySequence
  | nextItem
  | once
  | counted
  | letters
  | dot
  | caret
  | dollar
  | group
deriving DecidableEq, Repr

namespace Rule

/-- The number of symbols that the rule reduces. -/
def arity : Rule → Nat
  | .emptySequence => 0
  | .pattern | .firstAlternative | .firstConjunct | .plain | .once | .letters | .dot | .caret
  | .dollar => 1
  | .negated | .nextItem | .counted => 2
  | .nextAlternative | .nextConjunct | .group => 3

/-- The symbol that the rule defines. -/
def symbol : Rule → Symbol
  | .pattern => .pattern
  | .firstAlternative | .nextAlternative => .alternative
  | .firstConjunct | .nextConjunct => .conjunction
  | .plain | .negated => .negation
  | .emptySequence | .nextItem => .sequence
  | .once | .counted => .item
  | .letters | .dot | .caret | .dollar | .group => .atom

/-- What a rule is called in reports. -/
def name : Rule → String
  | .pattern => "Pattern"
  | .firstAlternative => "AltSingle"
  | .nextAlternative => "AltUnion"
  | .firstConjunct => "ConjSingle"
  | .nextConjunct => "ConjIntersect"
  | .plain => "NegPlain"
  | .negated => "NegComplement"
  | .emptySequence => "ConcatEmpty"
  | .nextItem => "ConcatAppend"
  | .once => "IterPlain"
  | .counted => "IterCount"
  | .letters => "TermLetters"
  | .dot => "TermDot"
  | .caret => "TermBegin"
  | .dollar => "TermEnd"
  | .group => "TermGroup"

/-- Whether the rule completes an atom of which the token source is told. -/
def completesAtom : Rule → Bool
  | .counted | .group => true
  | _ => false

end Rule

/-- Where the parser stands. -/
inductive Place where
  | start
  /-- Behind the whole pattern. -/
  | finished
  | alternative
  | conjunction
  | negation
  | sequence
  | bang
  | pipe
  | amp
  | item
  | atom
  | letters
  | dot
  | caret
  | dollar
  | openParen
  /-- Behind a sequence with `!` before it. -/
  | negated
  /-- Behind a conjunction with an alternative and `|` before it. -/
  | united
  /-- Behind a negation with a conjunction and `&` before it. -/
  | intersected
  /-- Behind an atom and its count. -/
  | counted
  /-- Behind an alternative with `(` before it. -/
  | grouped
  | closeParen
deriving DecidableEq, Repr

/-- An upper bound of the number of reductions before the next token is read. -/
def Place.rank : Place → Nat
  | .finished => 0
  | .alternative | .grouped => 1
  | .conjunction | .united => 2
  | .negation | .intersected => 3
  | .sequence | .negated => 4
  | .item | .start | .bang | .pipe | .amp | .openParen => 5
  | .atom | .counted => 6
  | .letters | .dot | .caret | .dollar | .closeParen => 7

/-- What to do on the next token. -/
inductive Action where
  | shift (place : Place)
  | reduce (rule : Rule)
  | accept
  | reject
deriving DecidableEq, Repr

namespace Terminal

/-- Whether an atom can begin with the token. -/
def startsAtom : Terminal → Bool
  | .letters | .dot | .caret | .dollar | .openParen => true
  | _ => false

/-- Whether the token can follow a negation. -/
def followsNegation : Terminal → Bool
  | .pipe | .amp | .closeParen | .eof => true
  | _ => false

/-- Whether the token can follow an item. -/
def followsItem (t : Terminal) : Bool := t.startsAtom || t.followsNegation

end Terminal

/-- Read the first token of an atom. -/
def shiftAtom : Terminal → Action
  | .letters => .shift .letters
  | .dot => .shift .dot
  | .caret => .shift .caret
  | .dollar => .shift .dollar
  | .openParen => .shift .openParen
  | _ => .reject

/-- Reduce under a condition. -/
def reduceIf (condition : Bool) (rule : Rule) : Action :=
  if condition then .reduce rule else .reject

/-- What to do at a place on the next token. -/
def action (place : Place) (t : Terminal) : Action :=
  match place with
  | .start =>
    match t with
    | .bang => .shift .bang
    | .closeParen | .count => .reject
    | _ => .reduce .emptySequence
  | .pipe | .amp | .openParen =>
    match t with
    | .bang => .shift .bang
    | _ => reduceIf t.followsItem .emptySequence
  | .bang => reduceIf t.followsItem .emptySequence
  | .finished =>
    match t with
    | .eof => .accept
    | _ => .reject
  | .alternative =>
    match t with
    | .pipe => .shift .pipe
    | .eof => .reduce .pattern
    | _ => .reject
  | .conjunction =>
    match t with
    | .amp => .shift .amp
    | .pipe | .closeParen | .eof => .reduce .firstAlternative
    | _ => .reject
  | .united =>
    match t with
    | .amp => .shift .amp
    | .pipe | .closeParen | .eof => .reduce .nextAlternative
    | _ => .reject
  | .negation => reduceIf t.followsNegation .firstConjunct
  | .intersected => reduceIf t.followsNegation .nextConjunct
  | .sequence => if t.startsAtom then shiftAtom t else reduceIf t.followsNegation .plain
  | .negated => if t.startsAtom then shiftAtom t else reduceIf t.followsNegation .negated
  | .item => reduceIf t.followsItem .nextItem
  | .atom =>
    match t with
    | .count => .shift .counted
    | _ => reduceIf t.followsItem .once
  | .counted => reduceIf t.followsItem .counted
  | .letters => reduceIf (t.followsItem || t = .count) .letters
  | .dot => reduceIf (t.followsItem || t = .count) .dot
  | .caret => reduceIf (t.followsItem || t = .count) .caret
  | .dollar => reduceIf (t.followsItem || t = .count) .dollar
  | .closeParen => reduceIf (t.followsItem || t = .count) .group
  | .grouped =>
    match t with
    | .closeParen => .shift .closeParen
    | .pipe => .shift .pipe
    | _ => .reject

/-- Where to stand after a symbol has been put behind a place. -/
def goto (place : Place) (symbol : Symbol) : Option Place :=
  match symbol, place with
  | .pattern, .start => some .finished
  | .alternative, .start => some .alternative
  | .alternative, .openParen => some .grouped
  | .conjunction, .start | .conjunction, .openParen => some .conjunction
  | .conjunction, .pipe => some .united
  | .negation, .start | .negation, .openParen | .negation, .pipe => some .negation
  | .negation, .amp => some .intersected
  | .sequence, .start | .sequence, .openParen | .sequence, .pipe | .sequence, .amp =>
    some .sequence
  | .sequence, .bang => some .negated
  | .item, .sequence | .item, .negated => some .item
  | .atom, .sequence | .atom, .negated => some .atom
  | _, _ => none

theorem ne_eof_of_action_shift {place next : Place} {t : Terminal}
    (h : action place t = .shift next) : t ≠ .eof := by
  rintro rfl
  cases place <;> simp [action, reduceIf, Terminal.followsItem, Terminal.startsAtom,
    Terminal.followsNegation] at h

theorem rank_goto_lt {place below next : Place} {t : Terminal} {rule : Rule}
    (h : action place t = .reduce rule) (hg : goto below rule.symbol = some next) :
    next.rank < place.rank := by
  have bound (symbol : Symbol) : ∀ below next, goto below symbol = some next →
      next.rank ≤ match symbol with
        | .pattern => 0
        | .alternative => 1
        | .conjunction => 2
        | .negation => 3
        | .sequence => 4
        | .item => 5
        | .atom => 6 := by
    intro below next h
    cases symbol <;> cases below <;> simp [goto] at h <;> subst h <;> decide
  refine Nat.lt_of_le_of_lt (bound _ _ _ hg) ?_
  clear bound hg
  revert h
  cases place <;> cases t <;> simp +decide [action, reduceIf, shiftAtom] <;> rintro rfl <;> decide

end PatternAutomata
