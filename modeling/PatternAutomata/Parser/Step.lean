import PatternAutomata.Parser.Combine
import PatternAutomata.Pattern.Token

/-!
# One move of the parser

A shift-reduce parser: tokens and meanings of reduced symbols lie on a stack, and the table says
what to do next. No automaton is put on the stack that has more states than allowed.
-/
namespace PatternAutomata

/-- A symbol on the stack: where the parser stood behind it, and its meaning if it has one. -/
structure Slot where
  place : Place
  value : Option Operand

/-- A moment of a parse: the token ahead, the stack with its top first, and the source's state. -/
structure Configuration (σ : Type) where
  token : Token
  stack : List Slot
  state : σ

/-- What a move leads to. -/
inductive Progress (σ : Type) where
  | running (c : Configuration σ)
  | finished (result : Except Error Automaton) (state : σ)

variable {σ : Type}

/-- Tell the source of a completed atom, which it may replace. -/
def announce (source : TokenSource σ) (rule : Rule) (v : Operand) (s : σ) : Operand × σ :=
  match v with
  | .automaton a =>
    if rule.completesAtom then
      let noted := source.onAtom a s
      (.automaton noted.1, noted.2)
    else (.automaton a, s)
  | .term t => (.term t, s)

/-- Refuse an automaton of more than `limit` states. -/
def guardOperand (limit : Nat) : Operand → Except Error Operand
  | .automaton a => if limit < a.size then .error (.tooLarge limit) else .ok (.automaton a)
  | .term t => .ok (.term t)

/-- Take slots off the stack. Their values come out in the order in which they were put on it,
before the values taken off so far. -/
def popValues : Nat → List Slot → List (Option Operand) → List (Option Operand) × List Slot
  | 0, stack, values => (values, stack)
  | _ + 1, [], values => (values, [])
  | n + 1, slot :: below, values => popValues n below (slot.value :: values)

/-- The stack after a reduction: the symbols of the rule give way to the one that it defines. There
has to be something below them. -/
def reduce (source : TokenSource σ) (limit : Nat) (rule : Rule) (stack : List Slot) (s : σ) :
    Except Error (List Slot) × σ :=
  let popped := popValues rule.arity stack []
  match popped.2 with
  | [] => (.error (.internal (.shortStack rule)), s)
  | top :: below =>
    match combine limit (source.encoding s) rule popped.1 with
    | .error e => (.error e, s)
    | .ok v =>
      let announced := announce source rule v s
      match guardOperand limit announced.1 with
      | .error e => (.error e, announced.2)
      | .ok v =>
        match goto top.place rule.symbol with
        | none => (.error (.broken .noTransition), announced.2)
        | some place => (.ok (⟨place, some v⟩ :: top :: below), announced.2)

/-- Make the move that the table prescribes. -/
def step (source : TokenSource σ) (limit : Nat) : Configuration σ → Progress σ
  | ⟨_, [], s⟩ => .finished (.error (.internal .emptyStack)) s
  | ⟨token, top :: below, s⟩ =>
    match action top.place token.terminal with
    | .shift place =>
      match source.next s with
      | (.error e, s') => .finished (.error (.lexical e)) s'
      | (.ok next, s') => .running ⟨next, ⟨place, token.term.map .term⟩ :: top :: below, s'⟩
    | .reduce rule =>
      match reduce source limit rule (top :: below) s with
      | (.error e, s') => .finished (.error e) s'
      | (.ok stack, s') => .running ⟨token, stack, s'⟩
    | .accept =>
      .finished ((needed top.value).bind (·.toAutomaton (source.encoding s))) s
    | .reject => .finished (.error (.unexpected token.offset token.terminal)) s

end PatternAutomata
