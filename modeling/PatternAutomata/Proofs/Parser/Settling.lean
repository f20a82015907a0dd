import PatternAutomata.Proofs.Parser.SizeLimit

/-!
# Evaluation under changing encodings

The encoding in force may be another one behind each token. Only what is made of terms depends on
it: a term has no automaton of its own until it is put behind a sequence or repeated. When that is
done, the last token pulled is the first one behind the term and its count.
-/
namespace PatternAutomata

/-- The values of a symbol. Items and atoms can be terms, everything else is an automaton. -/
@[reducible] def Symbol.Value : Symbol → Type
  | .item | .atom => Operand
  | .pattern | .alternative | .conjunction | .negation | .sequence => Automaton

/-- A value as it lies on the stack. -/
def Symbol.operand : (s : Symbol) → s.Value → Operand
  | .item, v | .atom, v => v
  | .pattern, a | .alternative, a | .conjunction, a | .negation, a | .sequence, a => .automaton a

/-- Refuse an automaton of more than `limit` states. -/
def guardAutomaton (limit : Nat) (a : Automaton) : Except Error Automaton :=
  if limit < a.size then .error (.tooLarge limit) else .ok a

namespace Tree

/-- The tokens behind which the terms of a tree are turned into bytes: for each term the first token
behind it and its count. There are `n` tokens before the tree. -/
def settling : {s : Symbol} → Tree s → (n : Nat) → List Nat
  | _, .pattern whole, n => whole.settling n
  | _, .firstAlternative c, n => c.settling n
  | _, .nextAlternative l _ r, n => l.settling n ++ r.settling (n + l.tokens.length + 1)
  | _, .firstConjunct c, n => c.settling n
  | _, .nextConjunct l _ r, n => l.settling n ++ r.settling (n + l.tokens.length + 1)
  | _, .plain s, n => s.settling n
  | _, .negated _ s, n => s.settling (n + 1)
  | _, .emptySequence, _ => []
  | _, .nextItem s i, n => s.settling n ++ i.settling (n + s.tokens.length)
  | _, .once a, n => a.settling n
  | _, .counted (.single _ _) _, n => [n + 2]
  | _, .counted (.group _ inner _) _, n => inner.settling (n + 1)
  | _, .single _ _, n => [n + 1]
  | _, .group _ inner _, n => inner.settling (n + 1)

section
variable {η : Type} (limit : Nat) (under : Nat → Encoding) (hook : Hook η)

/-- The value of a tree with `n` tokens before it, where the encoding in force behind the pull of
the `i`-th token is `under i`. -/
def evaluateUnder : {s : Symbol} → Tree s → (n : Nat) → Eval η s.Value
  | _, .pattern whole, n => do guardAutomaton limit (← whole.evaluateUnder n)
  | _, .firstAlternative c, n => do guardAutomaton limit (← c.evaluateUnder n)
  | _, .nextAlternative l _ r, n => do
    let a ← l.evaluateUnder n
    let b ← r.evaluateUnder (n + l.tokens.length + 1)
    guardAutomaton limit (a.union b)
  | _, .firstConjunct c, n => do guardAutomaton limit (← c.evaluateUnder n)
  | _, .nextConjunct l _ r, n => do
    let a ← l.evaluateUnder n
    let b ← r.evaluateUnder (n + l.tokens.length + 1)
    guardAutomaton limit (← liftM ((a.intersectUpTo b limit).mapError Error.ofBuild))
  | _, .plain s, n => do guardAutomaton limit (← s.evaluateUnder n)
  | _, .negated _ s, n => do
    let a ← s.evaluateUnder (n + 1)
    guardAutomaton limit (← liftM ((a.complementUpTo limit).mapError Error.ofBuild))
  | _, .emptySequence, _ => guardAutomaton limit .emptyText
  | _, .nextItem s i, n => do
    let a ← s.evaluateUnder n
    let item ← i.evaluateUnder (n + s.tokens.length)
    guardAutomaton limit (← item.appendTo a (under (n + s.tokens.length + i.tokens.length)))
  | _, .once a, n => do guardOperand limit (← a.evaluateUnder n)
  | _, .counted a count, n => do
    let item ← a.evaluateUnder n
    let count ← needed (count.1.term.map .term)
    let repeated ← repeatOperand limit (under (n + a.tokens.length + 1)) item count
    guardOperand limit (.automaton (← Eval.tell hook repeated))
  | _, .single _ leaf, _ => do guardOperand limit (← needed (leaf.1.term.map .term))
  | _, .group _ inner _, n => do
    let a ← inner.evaluateUnder (n + 1)
    guardOperand limit (.automaton (← Eval.tell hook a))

end

end Tree

section
variable {η : Type} (limit : Nat) (under : Nat → Encoding) (hook : Hook η)

/-- Carry out moves on a stack of values, each one in the encoding of its moment, with `n` tokens
read before. -/
def execUnder : List Move → (n : Nat) → List Token → List (Option Operand) →
    Eval η (List Token × List (Option Operand))
  | [], _, ts, vs => pure (ts, vs)
  | m :: ms, n, ts, vs => do
    let (ts, vs) ← exec limit (under n) hook [m] ts vs
    execUnder ms (n + [m].count .read) ts vs

variable {limit under hook}

theorem execUnder_append (ms ms' : List Move) (n : Nat) (ts : List Token)
    (vs : List (Option Operand)) :
    execUnder limit under hook (ms ++ ms') n ts vs =
      execUnder limit under hook ms n ts vs >>= fun r =>
        execUnder limit under hook ms' (n + ms.count .read) r.1 r.2 := by
  induction ms generalizing n ts vs with
  | nil => rfl
  | cons m ms ih =>
    have hcount : (m :: ms).count .read = [m].count .read + ms.count .read := by
      rw [← List.singleton_append, List.count_append]
    simp only [List.cons_append, execUnder, ih, bind_assoc, hcount, Nat.add_assoc]

section
variable {ms : List Move} {n : Nat} {ts : List Token} {vs : List (Option Operand)}

theorem execUnder_read (t : Token) :
    execUnder limit under hook (.read :: ms) n (t :: ts) vs =
      execUnder limit under hook ms (n + 1) ts (t.term.map .term :: vs) := rfl

theorem execUnder_reduce (rule : Rule) : execUnder limit under hook (.reduce rule :: ms) n ts vs =
    exec limit (under n) hook [.reduce rule] ts vs >>= fun r =>
      execUnder limit under hook ms n r.1 r.2 := rfl

theorem exec_nil (e : Encoding) : exec limit e hook [] ts vs = pure (ts, vs) := rfl

theorem guardOperand_bind {α : Type} (a : Automaton) (f : Operand → Eval η α) :
    ((liftM (guardOperand limit (.automaton a)) : Eval η Operand) >>= f) =
      (liftM (guardAutomaton limit a) : Eval η Automaton) >>= fun a => f (.automaton a) := by
  simp only [guardOperand, guardAutomaton]
  split <;> rfl

end

/-- The moves of a tree put its value on the stack. -/
theorem execUnder_tree (limit : Nat) (under : Nat → Encoding) (hook : Hook η) {s : Symbol}
    (tree : Tree s) (ms : List Move) (n : Nat) (ts : List Token) (vs : List (Option Operand)) :
    execUnder limit under hook (tree.moves ++ ms) n (tree.tokens ++ ts) vs =
      tree.evaluateUnder limit under hook n >>= fun v =>
        execUnder limit under hook ms (n + tree.tokens.length) ts (some (s.operand v) :: vs) := by
  induction tree generalizing ms n ts vs with
  | pattern whole ih =>
    simp only [Tree.moves, Tree.tokens, Tree.evaluateUnder, List.append_assoc, List.cons_append,
      List.nil_append, ih, execUnder_reduce, exec_reduce_one .pattern rfl, exec_nil,
      settle_pattern, Symbol.operand, Operand.toAutomaton, Eval.lift_ok_bind, guardOperand_bind,
      bind_assoc, pure_bind]
  | firstAlternative c ih =>
    simp only [Tree.moves, Tree.tokens, Tree.evaluateUnder, List.append_assoc, List.cons_append,
      List.nil_append, ih, execUnder_reduce, exec_passing .firstAlternative, exec_nil, needed,
      Symbol.operand, Eval.lift_ok_bind, guardOperand_bind, bind_assoc, pure_bind]
  | nextAlternative l bar r ihl ihr =>
    simp only [Tree.moves, Tree.tokens, Tree.evaluateUnder, List.append_assoc, List.cons_append,
      List.nil_append, ihl, ihr, execUnder_read, execUnder_reduce,
      exec_reduce_three .nextAlternative rfl, exec_nil, settle_nextAlternative, Symbol.operand,
      Operand.toAutomaton, Eval.lift_ok_bind, guardOperand_bind, bind_assoc, pure_bind,
      List.length_append, List.length_cons, Nat.add_assoc, Nat.add_comm 1]
  | firstConjunct c ih =>
    simp only [Tree.moves, Tree.tokens, Tree.evaluateUnder, List.append_assoc, List.cons_append,
      List.nil_append, ih, execUnder_reduce, exec_passing .firstConjunct, exec_nil, needed,
      Symbol.operand, Eval.lift_ok_bind, guardOperand_bind, bind_assoc, pure_bind]
  | nextConjunct l sign r ihl ihr =>
    simp only [Tree.moves, Tree.tokens, Tree.evaluateUnder, List.append_assoc, List.cons_append,
      List.nil_append, ihl, ihr, execUnder_read, execUnder_reduce,
      exec_reduce_three .nextConjunct rfl, exec_nil, settle_nextConjunct, Symbol.operand,
      Operand.toAutomaton, Eval.lift_ok_bind, guardOperand_bind, bind_assoc, pure_bind,
      List.length_append, List.length_cons, Nat.add_assoc, Nat.add_comm 1]
  | plain s ih =>
    simp only [Tree.moves, Tree.tokens, Tree.evaluateUnder, List.append_assoc, List.cons_append,
      List.nil_append, ih, execUnder_reduce, exec_passing .plain, exec_nil, needed,
      Symbol.operand, Eval.lift_ok_bind, guardOperand_bind, bind_assoc, pure_bind]
  | negated sign s ih =>
    simp only [Tree.moves, Tree.tokens, Tree.evaluateUnder, List.append_assoc, List.cons_append,
      List.nil_append, ih, execUnder_read, execUnder_reduce, exec_reduce_two .negated rfl,
      exec_nil, settle_negated, Symbol.operand, Operand.toAutomaton, Eval.lift_ok_bind,
      guardOperand_bind, bind_assoc, pure_bind, List.length_cons, Nat.add_assoc, Nat.add_comm 1]
  | emptySequence =>
    simp only [Tree.moves, Tree.tokens, Tree.evaluateUnder, List.cons_append, List.nil_append,
      execUnder_reduce, exec_reduce .emptySequence, exec_nil, bind_assoc, pure_bind]
    exact guardOperand_bind _ _
  | nextItem s i ihs ihi =>
    simp only [Tree.moves, Tree.tokens, Tree.evaluateUnder, List.append_assoc, List.cons_append,
      List.nil_append, ihs, ihi, execUnder_reduce, exec_reduce_two .nextItem rfl, exec_nil,
      settle_nextItem, Symbol.operand, Operand.toAutomaton, Eval.lift_ok_bind, guardOperand_bind,
      bind_assoc, pure_bind, List.length_append, Nat.add_assoc]
  | once a ih =>
    simp only [Tree.moves, Tree.tokens, Tree.evaluateUnder, List.append_assoc, List.cons_append,
      List.nil_append, ih, execUnder_reduce, exec_passing .once, exec_nil, needed,
      Symbol.operand, Eval.lift_ok_bind, bind_assoc, pure_bind]
  | counted a count ih =>
    simp only [Tree.moves, Tree.tokens, Tree.evaluateUnder, List.append_assoc, List.cons_append,
      List.nil_append, ih, execUnder_read, execUnder_reduce, exec_reduce_two .counted rfl,
      exec_nil, settle_counted, Symbol.operand, bind_assoc, pure_bind, List.length_append,
      List.length_cons, List.length_nil, Nat.add_assoc]
  | single k leaf =>
    simp only [Tree.moves, Tree.tokens, Tree.evaluateUnder, List.cons_append, List.nil_append,
      execUnder_read, execUnder_reduce, exec_passing (.single k), exec_nil, Symbol.operand,
      bind_assoc, pure_bind, List.length_cons, List.length_nil]
  | group opening inner closing ih =>
    simp only [Tree.moves, Tree.tokens, Tree.evaluateUnder, List.append_assoc, List.cons_append,
      List.nil_append, ih, execUnder_read, execUnder_reduce, exec_reduce_three .group rfl, exec_nil,
      settle_group, Symbol.operand, Operand.toAutomaton, Eval.lift_ok_bind, bind_assoc,
      pure_bind, List.length_append, List.length_cons, List.length_nil, Nat.add_assoc,
      Nat.add_comm 1]

/-! ## The encodings that matter -/

theorem isBuilt_of_guardOperand {a : Automaton} {v : Operand}
    (h : guardOperand limit (.automaton a) = .ok v) : v.isBuilt = true := by
  rw [(guardOperand_eq_ok h).1]
  rfl

namespace Operand
variable {v : Operand}

/-- What is an automaton already does not depend on the encoding. -/
theorem toAutomaton_of_isBuilt (h : v.isBuilt = true) (e e' : Encoding) :
    v.toAutomaton e = v.toAutomaton e' := by
  cases v with
  | term => cases h
  | automaton => rfl

theorem appendTo_of_isBuilt (h : v.isBuilt = true) (a : Automaton) (e e' : Encoding) :
    v.appendTo a e = v.appendTo a e' := by
  cases v with
  | term => cases h
  | automaton => rfl

end Operand

namespace Tree
variable {under' : Nat → Encoding} {n : Nat}

theorem settling_le {s : Symbol} (tree : Tree s) {i : Nat} (h : i ∈ tree.settling n) :
    i ≤ n + tree.tokens.length := by
  induction tree generalizing n with
  | pattern whole ih => exact ih h
  | firstAlternative c ih => exact ih h
  | nextAlternative l bar r ihl ihr =>
    simp only [tokens, List.length_append, List.length_singleton]
    rcases List.mem_append.mp h with h | h
    · have := ihl h
      omega
    · have := ihr h
      omega
  | firstConjunct c ih => exact ih h
  | nextConjunct l sign r ihl ihr =>
    simp only [tokens, List.length_append, List.length_singleton]
    rcases List.mem_append.mp h with h | h
    · have := ihl h
      omega
    · have := ihr h
      omega
  | plain s ih => exact ih h
  | negated sign s ih =>
    have := ih h
    simp only [tokens, List.length_append, List.length_singleton]
    omega
  | emptySequence => cases h
  | nextItem s i ihs ihi =>
    simp only [tokens, List.length_append]
    rcases List.mem_append.mp h with h | h
    · have := ihs h
      omega
    · have := ihi h
      omega
  | once a ih => exact ih h
  | counted a count ih =>
    simp only [tokens, List.length_append, List.length_singleton]
    cases a with
    | single k leaf => exact Nat.le_of_eq (List.mem_singleton.mp h)
    | group opening inner closing => exact Nat.le_succ_of_le (ih h)
  | single k leaf => exact Nat.le_of_eq (List.mem_singleton.mp h)
  | group opening inner closing ih =>
    have := ih h
    simp only [tokens, List.length_append, List.length_singleton]
    omega

/-- What comes of a group is an automaton. -/
theorem ensures_group (opening : Leaf .openParen) (inner : Tree .alternative)
    (closing : Leaf .closeParen) :
    ((group opening inner closing).evaluateUnder limit under hook n).Ensures (·.isBuilt = true) :=
  Eval.ensures_bind _ fun _ => Eval.ensures_bind _ fun _ => Eval.ensures_lift fun _ =>
    isBuilt_of_guardOperand

theorem ensures_counted (a : Tree .atom) (count : Leaf .count) :
    ((counted a count).evaluateUnder limit under hook n).Ensures (·.isBuilt = true) :=
  Eval.ensures_bind _ fun _ => Eval.ensures_bind _ fun _ => Eval.ensures_bind _ fun _ =>
    Eval.ensures_bind _ fun _ => Eval.ensures_lift fun _ => isBuilt_of_guardOperand

/-- An item is put behind a sequence in the same way, if its term has the same encoding. -/
theorem ensures_appendTo (i : Tree .item) (h : ∀ j ∈ i.settling n, under j = under' j) :
    (i.evaluateUnder limit under hook n).Ensures fun v => ∀ a,
      v.appendTo a (under (n + i.tokens.length)) = v.appendTo a (under' (n + i.tokens.length)) := by
  cases i with
  | once a =>
    cases a with
    | single k leaf =>
      exact Eval.ensures_of_forall _ fun v a => congrArg (v.appendTo a) (h _ (.head _))
    | group opening inner closing =>
      refine (ensures_group opening inner closing).bind fun v hv => Eval.ensures_lift fun w hw => ?_
      rw [(guardOperand_eq_ok hw).1]
      exact fun a => Operand.appendTo_of_isBuilt hv a _ _
  | counted a count =>
    intro s v hv b
    exact Operand.appendTo_of_isBuilt (ensures_counted a count s v hv) b _ _

/-- An atom is repeated in the same way, if its term has the same encoding. -/
theorem ensures_repeatOperand (a : Tree .atom) (count : Leaf .count)
    (h : ∀ j ∈ (counted a count).settling n, under j = under' j) :
    (a.evaluateUnder limit under hook n).Ensures fun v => ∀ o,
      repeatOperand limit (under (n + a.tokens.length + 1)) v o =
        repeatOperand limit (under' (n + a.tokens.length + 1)) v o := by
  cases a with
  | single k leaf =>
    exact Eval.ensures_of_forall _ fun v o =>
      congrArg (repeatOperand limit · v o) (h _ (.head _))
  | group opening inner closing =>
    intro s v hv o
    have hbuilt := ensures_group opening inner closing s v hv
    unfold repeatOperand
    rw [Operand.toAutomaton_of_isBuilt hbuilt]

/-- The value of a tree depends on the encodings in which its terms are turned into bytes, and on no
other. -/
theorem evaluateUnder_congr {s : Symbol} (tree : Tree s)
    (h : ∀ i ∈ tree.settling n, under i = under' i) :
    tree.evaluateUnder limit under hook n = tree.evaluateUnder limit under' hook n := by
  induction tree generalizing n with
  | pattern whole ih => simp only [evaluateUnder, ih h]
  | firstAlternative c ih => simp only [evaluateUnder, ih h]
  | nextAlternative l bar r ihl ihr =>
    obtain ⟨hl, hr⟩ := List.forall_mem_append.mp h
    simp only [evaluateUnder, ihl hl, ihr hr]
  | firstConjunct c ih => simp only [evaluateUnder, ih h]
  | nextConjunct l sign r ihl ihr =>
    obtain ⟨hl, hr⟩ := List.forall_mem_append.mp h
    simp only [evaluateUnder, ihl hl, ihr hr]
  | plain s ih => simp only [evaluateUnder, ih h]
  | negated sign s ih => simp only [evaluateUnder, ih h]
  | emptySequence => rfl
  | nextItem s i ihs ihi =>
    obtain ⟨hs, hi⟩ := List.forall_mem_append.mp h
    simp only [evaluateUnder, ihs hs, ← ihi hi]
    refine congrArg (_ >>= ·) (funext fun a => ?_)
    refine (ensures_appendTo i hi).bind_congr fun v hv => ?_
    rw [hv a]
  | once a ih => simp only [evaluateUnder, ih h]
  | counted a count ih =>
    have ha : a.evaluateUnder limit under hook n = a.evaluateUnder limit under' hook n := by
      cases a with
      | single k leaf => rfl
      | group opening inner closing => exact ih h
    simp only [evaluateUnder, ← ha]
    refine (ensures_repeatOperand a count h).bind_congr fun v hv => ?_
    simp only [hv]
  | single k leaf => rfl
  | group opening inner closing ih => simp only [evaluateUnder, ih h]

end Tree

end

end PatternAutomata
