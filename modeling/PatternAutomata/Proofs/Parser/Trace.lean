import PatternAutomata.Proofs.Parser.Tree

/-!
# Traces of the parser

The table alone decides how the parser moves: the places on its stack and the kinds of the tokens
ahead are all that it looks at. The moves of a derivation tree lead it over the leaves of the tree,
from any place that expects the symbol of the tree. As there is one move at most at any moment, no
second tree has the same leaves.
-/
namespace PatternAutomata

/-- A sequence of moves, from places with the last one first and from the kinds of the tokens ahead.
-/
inductive Traces : List Place → List Terminal → List Move → List Place → List Terminal → Prop
  | done (ps : List Place) (ts : List Terminal) : Traces ps ts [] ps ts
  | read {p q : Place} {t : Terminal} {ps ps' : List Place} {ts ts' : List Terminal}
    {ms : List Move}
    (h : action p t = .shift q) (rest : Traces (q :: p :: ps) ts ms ps' ts') :
    Traces (p :: ps) (t :: ts) (.read :: ms) ps' ts'
  | reduce {p p' q : Place} {t : Terminal} {rule : Rule} {ps below ps' : List Place}
    {ts ts' : List Terminal} {ms : List Move} (h : action p t = .reduce rule)
    (hdrop : (p :: ps).drop rule.arity = p' :: below) (hgoto : goto p' rule.symbol = some q)
    (rest : Traces (q :: p' :: below) (t :: ts) ms ps' ts') :
    Traces (p :: ps) (t :: ts) (.reduce rule :: ms) ps' ts'

namespace Traces
variable {p q : Place} {t : Terminal} {ps ps' ps'' : List Place} {ts ts' ts'' : List Terminal}
  {ms ms' : List Move}

theorem trans (h : Traces ps ts ms ps' ts') (h' : Traces ps' ts' ms' ps'' ts'') :
    Traces ps ts (ms ++ ms') ps'' ts'' := by
  induction h with
  | done => exact h'
  | read h _ ih => exact .read h (ih h')
  | reduce h hdrop hgoto _ ih => exact .reduce h hdrop hgoto (ih h')

/-- Tokens further ahead do not matter. -/
theorem extend (h : Traces ps ts ms ps' ts') (more : List Terminal) :
    Traces ps (ts ++ more) ms ps' (ts' ++ more) := by
  induction h with
  | done => exact .done _ _
  | read h _ ih => exact .read h ih
  | reduce h hdrop hgoto _ ih => exact .reduce h hdrop hgoto ih

end Traces

/-- Whether the parser has no move. -/
def Halted : List Place → List Terminal → Prop
  | p :: _, t :: _ => action p t = .accept ∨ action p t = .reject
  | _, _ => True

theorem Traces.deterministic {ps ps₁ ps₂ : List Place} {ts ts₁ ts₂ : List Terminal}
    {ms₁ ms₂ : List Move} (h₁ : Traces ps ts ms₁ ps₁ ts₁) (h₂ : Traces ps ts ms₂ ps₂ ts₂)
    (hhalt₁ : Halted ps₁ ts₁) (hhalt₂ : Halted ps₂ ts₂) : ms₁ = ms₂ ∧ ps₁ = ps₂ ∧ ts₁ = ts₂ := by
  induction h₁ generalizing ms₂ with
  | done ps ts =>
    cases h₂ with
    | done => exact ⟨rfl, rfl, rfl⟩
    | read h => rcases hhalt₁ with h' | h' <;> simp [h'] at h
    | reduce h => rcases hhalt₁ with h' | h' <;> simp [h'] at h
  | read h _ ih =>
    cases h₂ with
    | done => rcases hhalt₂ with h' | h' <;> simp [h'] at h
    | read h' rest =>
      obtain rfl := Action.shift.inj (h.symm.trans h')
      obtain ⟨rfl, rfl, rfl⟩ := ih rest hhalt₁
      exact ⟨rfl, rfl, rfl⟩
    | reduce h' => simp [h] at h'
  | reduce h hdrop hgoto _ ih =>
    cases h₂ with
    | done => rcases hhalt₂ with h' | h' <;> simp [h'] at h
    | read h' => simp [h] at h'
    | reduce h' hdrop' hgoto' rest =>
      obtain rfl := Action.reduce.inj (h.symm.trans h')
      obtain ⟨rfl, rfl⟩ := List.cons.inj (hdrop.symm.trans hdrop')
      obtain rfl := Option.some.inj (hgoto.symm.trans hgoto')
      obtain ⟨rfl, rfl, rfl⟩ := ih rest hhalt₁
      exact ⟨rfl, rfl, rfl⟩

/-! ## The traces of trees -/

/-- The tokens that may come behind a symbol. -/
def Symbol.followedBy : Symbol → Terminal → Bool
  | .pattern, t => t = .eof
  | .alternative, t => t = .pipe || t = .closeParen || t = .eof
  | .conjunction, t | .negation, t => t.followsNegation
  | .sequence, t | .item, t => t.followsItem
  | .atom, t => t.followsItem || t = .count

/-- Whether a token may come behind a symbol that is put behind a place. At the start no group is
open that could be closed. -/
structure Admits (p : Place) (s : Symbol) (t : Terminal) : Prop where
  follows : s.followedBy t = true
  opened : ¬ (p = .start ∧ t = .closeParen)

section
variable {p q : Place} {s : Symbol} {t : Terminal}

theorem admits_of_ne_start (hp : p ≠ .start) (ht : s.followedBy t = true) : Admits p s t :=
  ⟨ht, fun h => hp h.1⟩

theorem admits_pipe (p : Place) : Admits p .alternative .pipe := ⟨rfl, by simp⟩

theorem admits_amp (p : Place) : Admits p .conjunction .amp := ⟨rfl, by simp⟩

theorem alternative_followedBy_lower (ht : Symbol.followedBy .alternative t = true) :
    Symbol.followedBy .conjunction t = true := by
  cases t <;> first | rfl | simp [Symbol.followedBy] at ht

theorem negation_followedBy_lower (ht : Symbol.followedBy .negation t = true) :
    Symbol.followedBy .sequence t = true := by
  have ht : t.followsNegation = true := ht
  simp [Symbol.followedBy, Terminal.followsItem, ht]

theorem item_followedBy_lower (ht : Symbol.followedBy .item t = true) :
    Symbol.followedBy .atom t = true := by
  have ht : t.followsItem = true := ht
  simp [Symbol.followedBy, ht]

theorem action_conjunction (ht : Symbol.followedBy .alternative t = true) :
    action .conjunction t = .reduce .firstAlternative ∧
      action .united t = .reduce .nextAlternative := by
  cases t <;> first | exact ⟨rfl, rfl⟩ | simp [Symbol.followedBy] at ht

theorem action_negation (ht : Symbol.followedBy .conjunction t = true) :
    action .negation t = .reduce .firstConjunct ∧
      action .intersected t = .reduce .nextConjunct := by
  cases t <;> first | exact ⟨rfl, rfl⟩ | simp [Symbol.followedBy, Terminal.followsNegation] at ht

theorem action_sequence (ht : Symbol.followedBy .negation t = true) :
    action .sequence t = .reduce .plain ∧ action .negated t = .reduce .negated := by
  cases t <;> first | exact ⟨rfl, rfl⟩ | simp [Symbol.followedBy, Terminal.followsNegation] at ht

theorem action_item (ht : Symbol.followedBy .item t = true) :
    action .item t = .reduce .nextItem ∧ action .atom t = .reduce .once ∧
      action .counted t = .reduce .counted := by
  cases t <;> first
    | exact ⟨rfl, rfl, rfl⟩
    | simp [Symbol.followedBy, Terminal.followsItem, Terminal.startsAtom,
        Terminal.followsNegation] at ht

theorem action_atom (ht : Symbol.followedBy .atom t = true) (k : Single) :
    action k.place t = .reduce k.rule ∧ action .closeParen t = .reduce .group := by
  have h : (t.followsItem || t = .count) = true := ht
  cases k <;> simp [action, reduceIf, Single.place, Single.rule, h]

/-- An empty sequence is put wherever a sequence can begin. -/
theorem action_emptySequence (hgoto : goto p .sequence = some q) (ht : Admits p .sequence t) :
    action p t = .reduce .emptySequence := by
  obtain ⟨hfollows, hopened⟩ := ht
  have hfollows : t.followsItem = true := hfollows
  cases p <;> simp [goto] at hgoto
  all_goals
    cases t <;> first
      | rfl
      | exact absurd ⟨rfl, rfl⟩ hopened
      | simp [Terminal.followsItem, Terminal.startsAtom, Terminal.followsNegation] at hfollows

/-- Items are put behind a sequence, and so are atoms and what they begin with. -/
theorem goto_item (hgoto : goto p .item = some q ∨ goto p .atom = some q) :
    p ≠ .start ∧ goto p .item = some .item ∧ goto p .atom = some .atom ∧
      action p .openParen = .shift .openParen ∧
      ∀ k : Single, action p k.terminal = .shift k.place := by
  cases p <;> simp [goto] at hgoto
  all_goals
    refine ⟨by decide, rfl, rfl, rfl, ?_⟩
    intro k
    cases k <;> rfl

theorem goto_sequence (hgoto : goto p .sequence = some q) :
    q ≠ .start ∧ goto q .item = some .item := by
  cases p <;> simp [goto] at hgoto
  all_goals
    subst hgoto
    exact ⟨by decide, rfl⟩

theorem goto_alternative (hgoto : goto p .alternative = some q) :
    goto p .conjunction = some .conjunction ∧ action q .pipe = .shift .pipe := by
  cases p <;> simp [goto] at hgoto
  all_goals
    subst hgoto
    exact ⟨rfl, rfl⟩

theorem goto_conjunction (hgoto : goto p .conjunction = some q) :
    goto p .negation = some .negation ∧ action q .amp = .shift .amp := by
  cases p <;> simp [goto] at hgoto
  all_goals
    subst hgoto
    exact ⟨rfl, rfl⟩

theorem goto_negation (hgoto : goto p .negation = some q) :
    goto p .sequence = some .sequence ∧ action p .bang = .shift .bang := by
  cases p <;> simp [goto] at hgoto
  all_goals exact ⟨rfl, rfl⟩

end

namespace Tree

/-- An atom begins with a token that begins atoms. -/
theorem kinds_atom (tree : Tree .atom) : ∃ t ts, tree.kinds = t :: ts ∧ t.startsAtom = true := by
  cases tree with
  | single k leaf => exact ⟨_, _, kinds_single k leaf, by cases k <;> rfl⟩
  | group opening inner closing => exact ⟨_, _, kinds_group opening inner closing, rfl⟩

theorem kinds_item (tree : Tree .item) : ∃ t ts, tree.kinds = t :: ts ∧ t.startsAtom = true := by
  cases tree with
  | once a => exact a.kinds_atom
  | counted a count =>
    obtain ⟨t, ts, ha, ht⟩ := a.kinds_atom
    exact ⟨t, ts ++ [.count], by rw [kinds_counted, ha]; rfl, ht⟩

/-- The moves of a tree lead over its leaves, and put its symbol behind the place. -/
theorem traces {s : Symbol} (tree : Tree s) (ps : List Place) (ts : List Terminal) {p q : Place}
    {t : Terminal} (hgoto : goto p s = some q) (ht : Admits p s t) :
    Traces (p :: ps) (tree.kinds ++ t :: ts) tree.moves (q :: p :: ps) (t :: ts) := by
  induction tree generalizing p q ps t ts with
  | pattern whole ih =>
    obtain rfl : p = .start := by cases p <;> simp [goto] at hgoto ⊢
    obtain rfl : t = .eof := by simpa [Symbol.followedBy] using ht.follows
    exact (ih ps ts rfl ⟨rfl, ht.opened⟩).trans (.reduce rfl rfl hgoto (.done _ _))
  | firstAlternative c ih =>
    have hc := ih ps ts (goto_alternative hgoto).1
      ⟨alternative_followedBy_lower ht.follows, ht.opened⟩
    exact hc.trans (.reduce (action_conjunction ht.follows).1 rfl hgoto (.done _ _))
  | nextAlternative l bar r ihl ihr =>
    have hl := ihl ps (r.kinds ++ t :: ts) hgoto (admits_pipe p)
    have hr := ihr (q :: p :: ps) ts (show goto .pipe .conjunction = some .united from rfl)
      (admits_of_ne_start (by decide) (alternative_followedBy_lower ht.follows))
    simp only [kinds_nextAlternative, moves, List.append_assoc, List.cons_append, List.nil_append]
    exact hl.trans (.read (goto_alternative hgoto).2
      (hr.trans (.reduce (action_conjunction ht.follows).2 rfl hgoto (.done _ _))))
  | firstConjunct n ih =>
    have hn := ih ps ts (goto_conjunction hgoto).1 ⟨ht.follows, ht.opened⟩
    exact hn.trans (.reduce (action_negation ht.follows).1 rfl hgoto (.done _ _))
  | nextConjunct l sign r ihl ihr =>
    have hl := ihl ps (r.kinds ++ t :: ts) hgoto (admits_amp p)
    have hr := ihr (q :: p :: ps) ts (show goto .amp .negation = some .intersected from rfl)
      (admits_of_ne_start (by decide) ht.follows)
    simp only [kinds_nextConjunct, moves, List.append_assoc, List.cons_append, List.nil_append]
    exact hl.trans (.read (goto_conjunction hgoto).2
      (hr.trans (.reduce (action_negation ht.follows).2 rfl hgoto (.done _ _))))
  | plain s ih =>
    have hs := ih ps ts (goto_negation hgoto).1
      ⟨negation_followedBy_lower ht.follows, ht.opened⟩
    exact hs.trans (.reduce (action_sequence ht.follows).1 rfl hgoto (.done _ _))
  | negated sign s ih =>
    have hs := ih (p :: ps) ts (show goto .bang .sequence = some .negated from rfl)
      (admits_of_ne_start (by decide) (negation_followedBy_lower ht.follows))
    simp only [kinds_negated, moves, List.cons_append, List.nil_append]
    exact .read (goto_negation hgoto).2
      (hs.trans (.reduce (action_sequence ht.follows).2 rfl hgoto (.done _ _)))
  | emptySequence =>
    exact .reduce (action_emptySequence hgoto ht) rfl hgoto (.done _ _)
  | nextItem s i ihs ihi =>
    obtain ⟨t', ts', hkinds, hstarts⟩ := i.kinds_item
    obtain ⟨hne, hitem⟩ := goto_sequence hgoto
    have hadmits : Admits p .sequence t' := by
      refine ⟨by simp [Symbol.followedBy, Terminal.followsItem, hstarts], ?_⟩
      rintro ⟨-, rfl⟩
      simp [Terminal.startsAtom] at hstarts
    have hs := ihs ps (ts' ++ t :: ts) hgoto hadmits
    have hi := ihi (p :: ps) ts hitem (admits_of_ne_start hne ht.follows)
    rw [hkinds] at hi
    simp only [kinds_nextItem, hkinds, moves, List.append_assoc]
    exact hs.trans (hi.trans (.reduce (action_item ht.follows).1 rfl hgoto (.done _ _)))
  | once a ih =>
    obtain ⟨hne, -, hatom, -⟩ := goto_item (.inl hgoto)
    have ha := ih ps ts hatom
      (admits_of_ne_start hne (item_followedBy_lower ht.follows))
    exact ha.trans (.reduce (action_item ht.follows).2.1 rfl hgoto (.done _ _))
  | counted a count ih =>
    obtain ⟨hne, -, hatom, -⟩ := goto_item (.inl hgoto)
    have hcount : Admits p .atom .count := admits_of_ne_start hne rfl
    have ha := ih ps (t :: ts) hatom hcount
    simp only [kinds_counted, moves, List.append_assoc, List.cons_append, List.nil_append]
    exact ha.trans (.read rfl (.reduce (action_item ht.follows).2.2 rfl hgoto (.done _ _)))
  | single k leaf =>
    obtain ⟨-, -, -, -, hread⟩ := goto_item (.inr hgoto)
    simp only [kinds_single, moves, List.cons_append, List.nil_append]
    refine .read (hread k) (.reduce (action_atom ht.follows k).1 ?_ ?_ (.done _ _))
    · cases k <;> rfl
    · cases k <;> exact hgoto
  | group opening inner closing ih =>
    obtain ⟨-, -, -, hread, -⟩ := goto_item (.inr hgoto)
    have hclose : Admits .openParen .alternative .closeParen := admits_of_ne_start (by decide) rfl
    have hinner := ih (p :: ps) (t :: ts)
      (show goto .openParen .alternative = some .grouped from rfl) hclose
    simp only [kinds_group, moves, List.append_assoc, List.cons_append, List.nil_append]
    exact .read hread (hinner.trans
      (.read rfl (.reduce (action_atom ht.follows .letters).2 rfl hgoto (.done _ _))))

/-- The moves of a whole pattern lead from the start to the end. -/
theorem traces_whole (tree : Tree .pattern) :
    Traces [.start] (tree.kinds ++ [.eof]) tree.moves [.finished, .start] [.eof] :=
  tree.traces [] [] rfl ⟨rfl, by simp⟩

theorem halted_whole : Halted [.finished, .start] [.eof] := .inl rfl

/-- A pattern is derived in one way only. -/
theorem eq_of_tokens {tree tree' : Tree .pattern} (h : tree.tokens = tree'.tokens) :
    tree = tree' := by
  have htraces := tree'.traces_whole
  rw [kinds, ← h] at htraces
  obtain ⟨hmoves, -⟩ := tree.traces_whole.deterministic htraces halted_whole halted_whole
  exact (eq_of_suffix tree tree' (congrArg ([] ++ ·) hmoves) (congrArg ([] ++ ·) h)).1

end Tree

end PatternAutomata
