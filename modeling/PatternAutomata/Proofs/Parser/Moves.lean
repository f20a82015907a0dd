import PatternAutomata.Proofs.Parser.Evaluation
import PatternAutomata.Proofs.Parser.Lockstep

/-!
# Single moves of the parser

What one move does, in terms of the values on the stack. A reduction settles the value of its rule,
with the source of the tokens as the hook. A source can be watched: the watched source behaves as
before, and keeps a record of the tokens pulled and of the atoms shown to it.
-/
namespace PatternAutomata

variable {σ : Type} {source : TokenSource σ} {limit : Nat}

/-! ## Reductions -/

/-- The places of a stack. -/
def places (stack : List Slot) : List Place := stack.map (·.place)

/-- The values of a stack. -/
def values (stack : List Slot) : List (Option Operand) := stack.map (·.value)

theorem places_cons (slot : Slot) (below : List Slot) :
    places (slot :: below) = slot.place :: places below := rfl

theorem drop_of_places {stack : List Slot} {n : Nat} {p : Place} {below : List Place}
    (h : (places stack).drop n = p :: below) :
    ∃ slot slots, stack.drop n = slot :: slots ∧ slot.place = p ∧ places slots = below := by
  rw [places, ← List.map_drop] at h
  exact List.map_eq_cons_iff.mp h

theorem drop_values {stack below : List Slot} {n : Nat} (h : stack.drop n = below) :
    (values stack).drop n = values below := by
  rw [values, ← List.map_drop, h, values]

theorem popValues_eq (n : Nat) (stack : List Slot) (vs : List (Option Operand)) :
    popValues n stack vs = (((values stack).take n).reverse ++ vs, stack.drop n) := by
  induction n generalizing stack vs with
  | zero => rfl
  | succ n ih =>
    cases stack with
    | nil => rfl
    | cons slot below =>
      rw [popValues, ih]
      simp [values]

theorem run_announced (source : TokenSource σ) (rule : Rule) (v : Operand) (s : σ) :
    (announced source.onAtom rule v).run s =
      (.ok (announce source rule v s).1, (announce source rule v s).2) := by
  cases v with
  | term => rfl
  | automaton a =>
    unfold announced announce
    cases rule.completesAtom <;> rfl

/-- A reduction settles the value of the rule, in the encoding of the moment. -/
theorem reduce_eq {stack below : List Slot} {slot : Slot} {rule : Rule} {q : Place} (s : σ)
    (hdrop : stack.drop rule.arity = slot :: below) (hgoto : goto slot.place rule.symbol = some q) :
    reduce source limit rule stack s =
      match (settle limit (source.encoding s) source.onAtom rule
        ((values stack).take rule.arity).reverse).run s with
      | (.error err, s') => (.error err, s')
      | (.ok v, s') => (.ok (⟨q, some v⟩ :: slot :: below), s') := by
  simp only [reduce, settle, popValues_eq, List.append_nil, hdrop, hgoto]
  cases combine limit (source.encoding s) rule ((values stack).take rule.arity).reverse with
  | error err => rfl
  | ok v =>
    simp only [Eval.lift_ok_bind, Eval.run_bind, run_announced, Eval.run_lift]
    cases guardOperand limit (announce source rule v s).1 <;> rfl

/-! ## Moves -/

section
variable (source limit) {token : Token} {slot slot' : Slot} (below : List Slot) {below' : List Slot}
  {q : Place} {rule : Rule}

theorem step_shift (s : σ) (h : action slot.place token.terminal = .shift q) :
    step source limit ⟨token, slot :: below, s⟩ =
      match source.next s with
      | (.error err, s') => .finished (.error (.lexical err)) s'
      | (.ok next, s') => .running ⟨next, ⟨q, token.term.map .term⟩ :: slot :: below, s'⟩ := by
  rcases hnext : source.next s with ⟨_ | next, s'⟩ <;> simp only [step, h, hnext]

theorem step_reduce (s : σ) (h : action slot.place token.terminal = .reduce rule)
    (hdrop : (slot :: below).drop rule.arity = slot' :: below')
    (hgoto : goto slot'.place rule.symbol = some q) :
    step source limit ⟨token, slot :: below, s⟩ =
      match (settle limit (source.encoding s) source.onAtom rule
        ((values (slot :: below)).take rule.arity).reverse).run s with
      | (.error err, s') => .finished (.error err) s'
      | (.ok v, s') => .running ⟨token, ⟨q, some v⟩ :: slot' :: below', s'⟩ := by
  simp only [step, h, reduce_eq s hdrop hgoto]
  rcases (settle limit (source.encoding s) source.onAtom rule
    ((values (slot :: below)).take rule.arity).reverse).run s with ⟨_ | v, s'⟩ <;> rfl

theorem step_accept (s : σ) (h : action slot.place token.terminal = .accept) :
    step source limit ⟨token, slot :: below, s⟩ =
      .finished ((needed slot.value).bind (·.toAutomaton (source.encoding s))) s := by
  simp only [step, h]

theorem step_reject (s : σ) (h : action slot.place token.terminal = .reject) :
    step source limit ⟨token, slot :: below, s⟩ =
      .finished (.error (.unexpected token.offset token.terminal)) s := by
  simp only [step, h]

end

/-! ## Watching a source -/

/-- What a source was asked for. -/
structure Record where
  /-- The answers to the pulls, the first one first. -/
  pulls : List (Except LexError Token) := []
  /-- The atoms shown to the source, the first one first. -/
  atoms : List Automaton := []

/-- A source that keeps a record. -/
def TokenSource.watched (source : TokenSource σ) : TokenSource (σ × Record) where
  next s := ((source.next s.1).1, (source.next s.1).2,
    { s.2 with pulls := s.2.pulls ++ [(source.next s.1).1] })
  encoding s := source.encoding s.1
  onAtom a s := ((source.onAtom a s.1).1, (source.onAtom a s.1).2,
    { s.2 with atoms := s.2.atoms ++ [a] })
  remaining s := source.remaining s.1
  next_le s := source.next_le s.1
  next_lt s := source.next_lt s.1
  onAtom_le a s := source.onAtom_le a s.1

theorem echoes_watched (source : TokenSource σ) {s : σ} {s' : σ × Record} (h : s'.1 = s) :
    source.Echoes source.watched (fun _ => False) (fun s s' => s'.1 = s) s s' := by
  subst h
  exact ⟨rfl, rfl, .same _ rfl, fun _ => ⟨rfl, rfl⟩⟩

/-- Watching a parse does not change it. -/
theorem parse_watched (source : TokenSource σ) (limit : Nat) (s : σ) (record : Record) :
    ∃ record', parse source.watched limit (s, record) =
      ((parse source limit s).1, (parse source limit s).2, record') := by
  have h := parse_together (fun _ _ => echoes_watched source) (.refl _ limit)
    (rfl : (s, record).1 = s)
  generalize parse source limit s = x at h ⊢
  generalize parse source.watched limit (s, record) = y at h ⊢
  cases h with
  | refused h => exact h.elim
  | same result hs =>
    subst hs
    exact ⟨_, rfl⟩

end PatternAutomata
