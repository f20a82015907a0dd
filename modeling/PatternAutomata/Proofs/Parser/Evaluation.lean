import PatternAutomata.Parser.Run
import PatternAutomata.Proofs.Parser.Trace

/-!
# Evaluating a derivation tree

A pattern can be evaluated along its derivation tree, bottom up and from left to right. The parser
does the same without a tree: the moves of a tree, carried out on a stack of values, put the value
of the tree on the stack.
-/
namespace PatternAutomata

/-- What is done with a completed atom: it may be replaced, and something may be remembered. -/
abbrev Hook (η : Type) := Automaton → η → Automaton × η

/-- A computation that may fail and may call a hook. What the hook remembers is kept in either case.
-/
structure Eval (η α : Type) where
  run : η → Except Error α × η

namespace Eval
variable {η α β γ : Type}

@[ext] theorem ext {x y : Eval η α} (h : ∀ s, x.run s = y.run s) : x = y := by
  cases x
  cases y
  congr
  exact funext h

instance : Monad (Eval η) where
  pure v := ⟨fun s => (.ok v, s)⟩
  bind x f := ⟨fun s =>
    match x.run s with
    | (.ok v, s) => (f v).run s
    | (.error err, s) => (.error err, s)⟩

instance : MonadLift (Except Error) (Eval η) := ⟨fun x => ⟨fun s => (x, s)⟩⟩

/-- Call the hook. -/
def tell (hook : Hook η) (a : Automaton) : Eval η Automaton :=
  ⟨fun s => (.ok (hook a s).1, (hook a s).2)⟩

@[simp] theorem run_pure (v : α) (s : η) : (pure v : Eval η α).run s = (.ok v, s) := rfl

@[simp] theorem run_lift (x : Except Error α) (s : η) : (liftM x : Eval η α).run s = (x, s) := rfl

@[simp] theorem run_tell (hook : Hook η) (a : Automaton) (s : η) :
    (tell hook a).run s = (.ok (hook a s).1, (hook a s).2) := rfl

theorem run_bind (x : Eval η α) (f : α → Eval η β) (s : η) :
    (x >>= f).run s = match x.run s with
      | (.ok v, s) => (f v).run s
      | (.error err, s) => (.error err, s) := rfl

theorem lift_ok_bind (v : α) (f : α → Eval η β) :
    ((liftM (Except.ok v : Except Error α) : Eval η α) >>= f) = f v := rfl

instance : LawfulMonad (Eval η) := LawfulMonad.mk' _
  (by
    intro α x
    apply ext
    intro s
    change (x >>= pure ∘ id).run s = x.run s
    rw [run_bind]
    rcases x.run s with ⟨_ | v, s'⟩ <;> rfl)
  (by
    intro α β v f
    rfl)
  (by
    intro α β γ x f g
    apply ext
    intro s
    simp only [run_bind]
    rcases x.run s with ⟨_ | v, s'⟩ <;> rfl)

/-- Whether whatever a computation comes to satisfies `post`. It may also fail. -/
def Ensures (post : α → Prop) (x : Eval η α) : Prop := ∀ h v, (x.run h).1 = .ok v → post v

theorem Ensures.bind {x : Eval η α} {f : α → Eval η β} {mid : α → Prop} {post : β → Prop}
    (hx : x.Ensures mid) (hf : ∀ v, mid v → (f v).Ensures post) : (x >>= f).Ensures post := by
  intro h w hw
  have hmid := hx h
  rw [run_bind] at hw
  generalize x.run h = r at hmid hw
  obtain ⟨err | v, h'⟩ := r
  · cases hw
  · exact hf v (hmid v rfl) h' w hw

/-- What is already known need not be ensured. -/
theorem ensures_of_forall {post : α → Prop} (x : Eval η α) (h : ∀ v, post v) : x.Ensures post :=
  fun _ v _ => h v

theorem ensures_bind {f : α → Eval η β} {post : β → Prop} (x : Eval η α)
    (hf : ∀ v, (f v).Ensures post) : (x >>= f).Ensures post :=
  (ensures_of_forall x fun _ => trivial).bind fun v (_ : True) => hf v

theorem ensures_lift {post : α → Prop} {x : Except Error α} (h : ∀ v, x = .ok v → post v) :
    (liftM x : Eval η α).Ensures post :=
  fun _ => h

theorem Ensures.bind_congr {x : Eval η α} {f g : α → Eval η β} {post : α → Prop}
    (hx : x.Ensures post) (h : ∀ v, post v → f v = g v) : (x >>= f) = x >>= g := by
  apply ext
  intro s
  have hpost := hx s
  rw [run_bind, run_bind]
  generalize x.run s = r at hpost
  obtain ⟨err | v, s'⟩ := r
  · rfl
  · exact congrArg (fun y : Eval η β => y.run s') (h v (hpost v rfl))

end Eval

theorem ok_bind {α β : Type} (v : α) (f : α → Except Error β) : (Except.ok v >>= f) = f v := rfl

theorem error_bind {α β : Type} (err : Error) (f : α → Except Error β) :
    (Except.error err >>= f) = .error err := rfl

section
variable {η : Type} (limit : Nat) (e : Encoding) (hook : Hook η)

/-- The value of a tree. No automaton may have more than `limit` states. Groups and repetitions are
shown to the hook, whose answer takes their place. -/
def Tree.evaluate : {s : Symbol} → Tree s → Eval η Operand
  | _, .pattern whole => do
    let v ← whole.evaluate
    guardOperand limit (.automaton (← v.toAutomaton e))
  | _, .firstAlternative c => do guardOperand limit (← c.evaluate)
  | _, .nextAlternative l _ r => do
    let l ← l.evaluate
    let r ← r.evaluate
    guardOperand limit (.automaton ((← l.toAutomaton e).union (← r.toAutomaton e)))
  | _, .firstConjunct n => do guardOperand limit (← n.evaluate)
  | _, .nextConjunct l _ r => do
    let l ← l.evaluate
    let r ← r.evaluate
    let both := (← l.toAutomaton e).intersectUpTo (← r.toAutomaton e) limit
    guardOperand limit (.automaton (← liftM (both.mapError Error.ofBuild)))
  | _, .plain s => do guardOperand limit (← s.evaluate)
  | _, .negated _ s => do
    let v ← s.evaluate
    let others := (← v.toAutomaton e).complementUpTo limit
    guardOperand limit (.automaton (← liftM (others.mapError Error.ofBuild)))
  | _, .emptySequence => guardOperand limit (.automaton .emptyText)
  | _, .nextItem s i => do
    let v ← s.evaluate
    let item ← i.evaluate
    guardOperand limit (.automaton (← item.appendTo (← v.toAutomaton e) e))
  | _, .once a => do guardOperand limit (← a.evaluate)
  | _, .counted a count => do
    let item ← a.evaluate
    let count ← needed (count.1.term.map .term)
    let repeated ← repeatOperand limit e item count
    guardOperand limit (.automaton (← Eval.tell hook repeated))
  | _, .single _ leaf => do guardOperand limit (← needed (leaf.1.term.map .term))
  | _, .group _ inner _ => do
    let v ← inner.evaluate
    guardOperand limit (.automaton (← Eval.tell hook (← v.toAutomaton e)))

/-- The automaton of a whole pattern. -/
def Tree.result (tree : Tree .pattern) : Eval η Automaton := do
  (← tree.evaluate limit e hook).toAutomaton e

/-! ## Moves on a stack of values -/

/-- Show a completed atom to the hook. -/
def announced (rule : Rule) : Operand → Eval η Operand
  | .automaton a => if rule.completesAtom then do return .automaton (← Eval.tell hook a)
    else pure (.automaton a)
  | .term t => pure (.term t)

/-- The value of a rule, from the values of its symbols. -/
def settle (rule : Rule) (values : List (Option Operand)) : Eval η Operand := do
  let v ← combine limit e rule values
  guardOperand limit (← announced hook rule v)

/-- Carry out moves on tokens and a stack of values. -/
def exec : List Move → List Token → List (Option Operand) →
    Eval η (List Token × List (Option Operand))
  | [], ts, vs => pure (ts, vs)
  | .read :: ms, ts, vs =>
    match ts with
    | [] => pure ([], vs)
    | t :: ts => exec ms ts (t.term.map .term :: vs)
  | .reduce rule :: ms, ts, vs => do
    let v ← settle limit e hook rule (vs.take rule.arity).reverse
    exec ms ts (some v :: vs.drop rule.arity)

variable {limit e hook}

theorem settle_nextAlternative (l r : Operand) (bar : Option Operand) :
    settle limit e hook .nextAlternative [some l, bar, some r] = (do
      guardOperand limit (.automaton ((← l.toAutomaton e).union (← r.toAutomaton e)))) := by
  apply Eval.ext
  intro s
  simp only [settle, combine, needed, ok_bind]
  cases l.toAutomaton e <;> cases r.toAutomaton e <;> rfl

theorem settle_nextConjunct (l r : Operand) (sign : Option Operand) :
    settle limit e hook .nextConjunct [some l, sign, some r] = (do
      let both := (← l.toAutomaton e).intersectUpTo (← r.toAutomaton e) limit
      guardOperand limit (.automaton (← liftM (both.mapError Error.ofBuild)))) := by
  apply Eval.ext
  intro s
  simp only [settle, combine, needed, ok_bind]
  cases l.toAutomaton e with
  | error => rfl
  | ok a =>
    cases r.toAutomaton e with
    | error => rfl
    | ok b =>
      simp only [ok_bind, Eval.lift_ok_bind]
      cases (a.intersectUpTo b limit).mapError Error.ofBuild <;> rfl

theorem settle_negated (v : Operand) (sign : Option Operand) :
    settle limit e hook .negated [sign, some v] = (do
      let others := (← v.toAutomaton e).complementUpTo limit
      guardOperand limit (.automaton (← liftM (others.mapError Error.ofBuild)))) := by
  apply Eval.ext
  intro s
  simp only [settle, combine, needed, ok_bind]
  cases v.toAutomaton e with
  | error => rfl
  | ok a =>
    simp only [ok_bind, Eval.lift_ok_bind]
    cases (a.complementUpTo limit).mapError Error.ofBuild <;> rfl

theorem settle_nextItem (v item : Operand) :
    settle limit e hook .nextItem [some v, some item] = (do
      guardOperand limit (.automaton (← item.appendTo (← v.toAutomaton e) e))) := by
  apply Eval.ext
  intro s
  simp only [settle, combine, needed, ok_bind]
  cases v.toAutomaton e with
  | error => rfl
  | ok a =>
    simp only [ok_bind, Eval.lift_ok_bind]
    cases item.appendTo a e <;> rfl

theorem settle_counted (item : Operand) (count : Option Operand) :
    settle limit e hook .counted [some item, count] = (do
      let count ← needed count
      let repeated ← repeatOperand limit e item count
      guardOperand limit (.automaton (← Eval.tell hook repeated))) := by
  apply Eval.ext
  intro s
  simp only [settle, combine, needed, ok_bind]
  cases count with
  | none => rfl
  | some count =>
    simp only [ok_bind, Eval.lift_ok_bind]
    cases repeatOperand limit e item count <;> rfl

theorem settle_group (v : Operand) (opening closing : Option Operand) :
    settle limit e hook .group [opening, some v, closing] = (do
      guardOperand limit (.automaton (← Eval.tell hook (← v.toAutomaton e)))) := by
  apply Eval.ext
  intro s
  simp only [settle, combine, needed, ok_bind]
  cases v.toAutomaton e <;> rfl

theorem settle_pattern (v : Operand) : settle limit e hook .pattern [some v] = (do
    guardOperand limit (.automaton (← v.toAutomaton e))) := by
  apply Eval.ext
  intro s
  simp only [settle, combine, needed, ok_bind]
  cases v.toAutomaton e <;> rfl

theorem settle_emptySequence : settle limit e hook .emptySequence [] =
    (liftM (guardOperand limit (.automaton .emptyText)) : Eval η Operand) := rfl

/-- The rules that hand on the value of their only symbol. -/
inductive Rule.Passing : Rule → Prop
  | firstAlternative : Passing .firstAlternative
  | firstConjunct : Passing .firstConjunct
  | plain : Passing .plain
  | once : Passing .once
  | single (k : Single) : Passing k.rule

theorem settle_passing {rule : Rule} (h : rule.Passing) (v : Option Operand) :
    settle limit e hook rule [v] = (do guardOperand limit (← needed v)) := by
  apply Eval.ext
  intro s
  cases v with
  | none =>
    cases h with
    | single k => cases k <;> rfl
    | _ => rfl
  | some v =>
    cases v <;> cases h with
    | single k => cases k <;> rfl
    | _ => rfl

theorem exec_read (ms : List Move) (t : Token) (ts : List Token) (vs : List (Option Operand)) :
    exec limit e hook (.read :: ms) (t :: ts) vs =
      exec limit e hook ms ts (t.term.map .term :: vs) := rfl

section
variable {ms : List Move} {ts : List Token} {vs : List (Option Operand)} {v₁ v₂ v₃ : Option Operand}

theorem exec_reduce (rule : Rule) : exec limit e hook (.reduce rule :: ms) ts vs =
    settle limit e hook rule (vs.take rule.arity).reverse >>= fun v =>
      exec limit e hook ms ts (some v :: vs.drop rule.arity) := rfl

theorem exec_reduce_one (rule : Rule) (h : rule.arity = 1) :
    exec limit e hook (.reduce rule :: ms) ts (v₁ :: vs) =
      settle limit e hook rule [v₁] >>= fun v => exec limit e hook ms ts (some v :: vs) := by
  rw [exec_reduce, h]
  rfl

theorem exec_passing {rule : Rule} (h : rule.Passing) :
    exec limit e hook (.reduce rule :: ms) ts (v₁ :: vs) =
      (do guardOperand limit (← needed v₁)) >>= fun v =>
        exec limit e hook ms ts (some v :: vs) := by
  have harity : rule.arity = 1 := by
    cases h with
    | single k => cases k <;> rfl
    | _ => rfl
  rw [exec_reduce_one rule harity, settle_passing h]

theorem exec_reduce_two (rule : Rule) (h : rule.arity = 2) :
    exec limit e hook (.reduce rule :: ms) ts (v₂ :: v₁ :: vs) =
      settle limit e hook rule [v₁, v₂] >>= fun v => exec limit e hook ms ts (some v :: vs) := by
  rw [exec_reduce, h]
  rfl

theorem exec_reduce_three (rule : Rule) (h : rule.arity = 3) :
    exec limit e hook (.reduce rule :: ms) ts (v₃ :: v₂ :: v₁ :: vs) =
      settle limit e hook rule [v₁, v₂, v₃] >>= fun v =>
        exec limit e hook ms ts (some v :: vs) := by
  rw [exec_reduce, h]
  rfl

end

/-- The moves of a tree put its value on the stack. -/
theorem exec_tree (limit : Nat) (e : Encoding) (hook : Hook η) {s : Symbol} (tree : Tree s)
    (ms : List Move) (ts : List Token) (vs : List (Option Operand)) :
    exec limit e hook (tree.moves ++ ms) (tree.tokens ++ ts) vs =
      tree.evaluate limit e hook >>= fun v => exec limit e hook ms ts (some v :: vs) := by
  induction tree generalizing ms ts vs with
  | pattern whole ih =>
    simp only [Tree.moves, Tree.tokens, Tree.evaluate, List.append_assoc, List.cons_append,
      List.nil_append, ih, exec_reduce_one .pattern rfl, settle_pattern, bind_assoc]
  | firstAlternative c ih =>
    simp only [Tree.moves, Tree.tokens, Tree.evaluate, List.append_assoc, List.cons_append,
      List.nil_append, ih, exec_passing .firstAlternative, needed, Eval.lift_ok_bind, bind_assoc]
  | nextAlternative l bar r ihl ihr =>
    simp only [Tree.moves, Tree.tokens, Tree.evaluate, List.append_assoc, List.cons_append,
      List.nil_append, ihl, ihr, exec_read, exec_reduce_three .nextAlternative rfl,
      settle_nextAlternative, bind_assoc]
  | firstConjunct n ih =>
    simp only [Tree.moves, Tree.tokens, Tree.evaluate, List.append_assoc, List.cons_append,
      List.nil_append, ih, exec_passing .firstConjunct, needed, Eval.lift_ok_bind, bind_assoc]
  | nextConjunct l sign r ihl ihr =>
    simp only [Tree.moves, Tree.tokens, Tree.evaluate, List.append_assoc, List.cons_append,
      List.nil_append, ihl, ihr, exec_read, exec_reduce_three .nextConjunct rfl,
      settle_nextConjunct, bind_assoc]
  | plain s ih =>
    simp only [Tree.moves, Tree.tokens, Tree.evaluate, List.append_assoc, List.cons_append,
      List.nil_append, ih, exec_passing .plain, needed, Eval.lift_ok_bind, bind_assoc]
  | negated sign s ih =>
    simp only [Tree.moves, Tree.tokens, Tree.evaluate, List.append_assoc, List.cons_append,
      List.nil_append, ih, exec_read, exec_reduce_two .negated rfl, settle_negated, bind_assoc]
  | emptySequence =>
    simp only [Tree.moves, Tree.tokens, Tree.evaluate, List.cons_append, List.nil_append,
      exec_reduce .emptySequence]
    rfl
  | nextItem s i ihs ihi =>
    simp only [Tree.moves, Tree.tokens, Tree.evaluate, List.append_assoc, List.cons_append,
      List.nil_append, ihs, ihi, exec_reduce_two .nextItem rfl, settle_nextItem, bind_assoc]
  | once a ih =>
    simp only [Tree.moves, Tree.tokens, Tree.evaluate, List.append_assoc, List.cons_append,
      List.nil_append, ih, exec_passing .once, needed, Eval.lift_ok_bind, bind_assoc]
  | counted a count ih =>
    simp only [Tree.moves, Tree.tokens, Tree.evaluate, List.append_assoc, List.cons_append,
      List.nil_append, ih, exec_read, exec_reduce_two .counted rfl, settle_counted, bind_assoc]
  | single k leaf =>
    simp only [Tree.moves, Tree.tokens, Tree.evaluate, List.cons_append, List.nil_append,
      exec_read, exec_passing (.single k), bind_assoc]
  | group opening inner closing ih =>
    simp only [Tree.moves, Tree.tokens, Tree.evaluate, List.append_assoc, List.cons_append,
      List.nil_append, ih, exec_read, exec_reduce_three .group rfl, settle_group, bind_assoc]

end

end PatternAutomata
