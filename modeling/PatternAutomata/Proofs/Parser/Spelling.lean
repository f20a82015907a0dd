import PatternAutomata.Proofs.Parser.Tree

/-!
# What a stack spells

Each place on the stack was put there by a token or by a tree of a symbol, so a stack stands for the
kinds of the tokens read. A rule is applied only where the stack holds what the rule asks for. And
every stack can be completed: open groups can be closed, and what is still missing can be empty.
-/
namespace PatternAutomata

/-- Where the parser stands behind a token. The end of the pattern is never read. -/
def Terminal.place : Terminal → Place
  | .letters => .letters
  | .dot => .dot
  | .caret => .caret
  | .dollar => .dollar
  | .openParen => .openParen
  | .closeParen => .closeParen
  | .pipe => .pipe
  | .amp => .amp
  | .bang => .bang
  | .count => .counted
  | .eof => .start

namespace Place

/-- What led to a place: a token, or a symbol of the grammar. -/
def via : Place → Terminal ⊕ Symbol
  | .start => .inl .eof
  | .finished => .inr .pattern
  | .alternative | .grouped => .inr .alternative
  | .conjunction | .united => .inr .conjunction
  | .negation | .intersected => .inr .negation
  | .sequence | .negated => .inr .sequence
  | .item => .inr .item
  | .atom => .inr .atom
  | .letters => .inl .letters
  | .dot => .inl .dot
  | .caret => .inl .caret
  | .dollar => .inl .dollar
  | .openParen => .inl .openParen
  | .closeParen => .inl .closeParen
  | .pipe => .inl .pipe
  | .amp => .inl .amp
  | .bang => .inl .bang
  | .counted => .inl .count

/-- The rule that is complete at a place. -/
def rule? : Place → Option Rule
  | .alternative => some .pattern
  | .conjunction => some .firstAlternative
  | .united => some .nextAlternative
  | .negation => some .firstConjunct
  | .intersected => some .nextConjunct
  | .sequence => some .plain
  | .negated => some .negated
  | .item => some .nextItem
  | .atom => some .once
  | .counted => some .counted
  | .letters => some .letters
  | .dot => some .dot
  | .caret => some .caret
  | .dollar => some .dollar
  | .closeParen => some .group
  | _ => none

end Place

/-- What a rule is made of. -/
def Rule.parts : Rule → List (Terminal ⊕ Symbol)
  | .pattern => [.inr .alternative]
  | .firstAlternative => [.inr .conjunction]
  | .nextAlternative => [.inr .alternative, .inl .pipe, .inr .conjunction]
  | .firstConjunct => [.inr .negation]
  | .nextConjunct => [.inr .conjunction, .inl .amp, .inr .negation]
  | .plain => [.inr .sequence]
  | .negated => [.inl .bang, .inr .sequence]
  | .emptySequence => []
  | .nextItem => [.inr .sequence, .inr .item]
  | .once => [.inr .atom]
  | .counted => [.inr .atom, .inl .count]
  | .letters => [.inl .letters]
  | .dot => [.inl .dot]
  | .caret => [.inl .caret]
  | .dollar => [.inl .dollar]
  | .group => [.inl .openParen, .inr .alternative, .inl .closeParen]

/-! ## What the table says -/

section
variable {p q : Place} {s : Symbol} {t : Terminal} {rule : Rule}

theorem via_of_goto (h : goto p s = some q) : q.via = .inr s := by
  cases s <;> cases p <;> simp [goto] at h <;> subst h <;> rfl

theorem via_place (t : Terminal) : t.place.via = .inl t := by
  cases t <;> rfl

theorem place_inj {t' : Terminal} (h : t.place = t'.place) : t = t' :=
  Sum.inl.inj (by rw [← via_place t, h, via_place])

/-- What can be read where. -/
def readable (p : Place) : Terminal → Prop
  | .pipe => p = .alternative ∨ p = .grouped
  | .amp => p = .conjunction ∨ p = .united
  | .bang => goto p .negation = some .negation ∨ goto p .negation = some .intersected
  | .count => p = .atom
  | .closeParen => p = .grouped
  | .eof => False
  | _ => goto p .atom = some .atom

/-- The symbol that a token is read behind, if it needs one. -/
def Terminal.behind? : Terminal → Option Symbol
  | .pipe => some .alternative
  | .amp => some .conjunction
  | .count => some .atom
  | .closeParen => some .alternative
  | _ => none

theorem via_of_readable (h : readable p t) (hs : t.behind? = some s) : p.via = .inr s := by
  cases t with
  | pipe | amp =>
    obtain rfl := Option.some.inj hs
    rcases h with rfl | rfl <;> rfl
  | count | closeParen =>
    obtain rfl := Option.some.inj hs
    obtain rfl := h
    rfl
  | _ => cases hs

theorem of_shift (h : action p t = .shift q) : q = t.place ∧ readable p t := by
  cases p <;> cases t <;> first
    | exact ⟨(Action.shift.inj h).symm, rfl⟩
    | exact ⟨(Action.shift.inj h).symm, .inl rfl⟩
    | exact ⟨(Action.shift.inj h).symm, .inr rfl⟩
    | exact absurd h (by simp +decide [action, reduceIf])

theorem of_reduce (h : action p t = .reduce rule) :
    p.rule? = some rule ∨ rule = .emptySequence ∧ goto p .sequence ≠ none := by
  cases p <;> cases t <;> first
    | exact .inl (congrArg some (Action.reduce.inj h))
    | exact .inr ⟨(Action.reduce.inj h).symm, by decide⟩
    | exact absurd h (by simp +decide [action, reduceIf, shiftAtom])

theorem of_accept (h : action p t = .accept) : p = .finished ∧ t = .eof := by
  cases p <;> cases t <;> first
    | exact ⟨rfl, rfl⟩
    | exact absurd h (by decide)

end

/-! ## Stacks -/

/-- Places with the last one first, and the kinds of tokens that they stand for. -/
inductive Spells : List Place → List Terminal → Prop
  | start : Spells [.start] []
  | read {p q : Place} {t : Terminal} {ps : List Place} {ks : List Terminal}
    (below : Spells (p :: ps) ks) (h : action p t = .shift q) : Spells (q :: p :: ps) (ks ++ [t])
  | tree {p q : Place} {s : Symbol} {ps : List Place} {ks : List Terminal}
    (below : Spells (p :: ps) ks) (h : goto p s = some q) (tree : Tree s) :
    Spells (q :: p :: ps) (ks ++ tree.kinds)

namespace Spells
variable {p q : Place} {s : Symbol} {t : Terminal} {rule : Rule} {ps : List Place}
  {ks : List Terminal}

/-- Above a place that a symbol leads to, there is a tree of the symbol. -/
theorem inv_tree (h : Spells (q :: ps) ks) (hq : q.via = .inr s) :
    ∃ p below ks', ∃ tree : Tree s, ps = p :: below ∧ ks = ks' ++ tree.kinds ∧
      goto p s = some q ∧ Spells (p :: below) ks' := by
  cases h with
  | start => simp [Place.via] at hq
  | read _ h =>
    rw [(of_shift h).1, via_place] at hq
    simp at hq
  | tree below h tree =>
    obtain rfl := Sum.inr.inj ((via_of_goto h).symm.trans hq)
    exact ⟨_, _, _, tree, rfl, rfl, h, below⟩

theorem inv_read (h : Spells (t.place :: ps) ks) (ht : t ≠ .eof) :
    ∃ p below ks', ps = p :: below ∧ ks = ks' ++ [t] ∧ readable p t ∧ Spells (p :: below) ks' := by
  generalize hq : t.place = q at h
  cases h with
  | start => cases t <;> simp_all [Terminal.place]
  | read below h =>
    obtain ⟨rfl, hread⟩ := of_shift h
    obtain rfl := place_inj hq
    exact ⟨_, _, _, rfl, rfl, hread, below⟩
  | tree _ h =>
    rw [← hq] at h
    have := via_of_goto h
    rw [via_place] at this
    simp at this

/-- Below a token that is read behind a symbol, there is a tree of the symbol. -/
theorem inv_behind (hs : t.behind? = some s) (h : Spells (t.place :: ps) ks) :
    ∃ p p' below ks', ∃ tree : Tree s, ps = p :: p' :: below ∧ ks = ks' ++ tree.kinds ++ [t] ∧
      readable p t ∧ goto p' s = some p ∧ Spells (p' :: below) ks' := by
  have ht : t ≠ .eof := by
    rintro rfl
    cases hs
  obtain ⟨p, _, _, rfl, rfl, hread, h⟩ := h.inv_read ht
  obtain ⟨p', below, ks, tree, rfl, rfl, hgoto, h⟩ := h.inv_tree (via_of_readable hread hs)
  exact ⟨p, p', below, ks, tree, rfl, rfl, hread, hgoto, h⟩

theorem inv_bang (h : Spells (.bang :: ps) ks) :
    ∃ p below ks' q, ps = p :: below ∧ ks = ks' ++ [.bang] ∧ goto p .negation = some q ∧
      Spells (p :: below) ks' := by
  obtain ⟨p, below, ks, rfl, rfl, hread, h⟩ := h.inv_read (t := .bang) (by decide)
  rcases hread with hread | hread
  · exact ⟨p, below, ks, _, rfl, rfl, hread, h⟩
  · exact ⟨p, below, ks, _, rfl, rfl, hread, h⟩

theorem inv_openParen (h : Spells (.openParen :: ps) ks) :
    ∃ p below ks', ps = p :: below ∧ ks = ks' ++ [.openParen] ∧ goto p .atom = some .atom ∧
      Spells (p :: below) ks' :=
  h.inv_read (t := .openParen) (by decide)

/-- Below an item there is a sequence. -/
theorem inv_sequence (hgoto : goto p .item = some q) (h : Spells (p :: ps) ks) :
    p.via = .inr .sequence ∧ ∃ p' below ks', ∃ tree : Tree .sequence, ps = p' :: below ∧
      ks = ks' ++ tree.kinds ∧ goto p' .sequence = some p ∧ Spells (p' :: below) ks' := by
  have hvia : p.via = .inr .sequence := by cases p <;> simp [goto] at hgoto <;> rfl
  exact ⟨hvia, h.inv_tree hvia⟩

theorem inv_single (k : Single) (h : Spells (k.place :: ps) ks) :
    ∃ p below ks', ps = p :: below ∧ ks = ks' ++ (Tree.single k default).kinds ∧
      goto p .atom = some .atom ∧ Spells (p :: below) ks' := by
  have hplace : k.place = k.terminal.place := by cases k <;> rfl
  rw [hplace] at h
  obtain ⟨p, below, ks, rfl, rfl, hread, h⟩ := h.inv_read (by cases k <;> decide)
  refine ⟨p, below, ks, rfl, ?_, by cases k <;> exact hread, h⟩
  rw [Tree.kinds_single]

theorem inv_start (h : Spells (.start :: ps) ks) : ps = [] ∧ ks = [] := by
  generalize hq : Place.start = q at h
  cases h with
  | start => exact ⟨rfl, rfl⟩
  | read _ h =>
    obtain ⟨rfl, hread⟩ := of_shift h
    obtain rfl : _ = Terminal.eof := place_inj (show _ = Terminal.place .eof from hq.symm)
    exact hread.elim
  | tree _ h =>
    rw [← hq] at h
    have := via_of_goto h
    simp [Place.via] at this

/-- A rule is applied only where its parts lie on the stack, behind a place that expects what the
rule defines. -/
theorem exists_of_reduce (h : Spells (p :: ps) ks) (ha : action p t = .reduce rule) :
    ((p :: ps).take rule.arity).reverse.map Place.via = rule.parts ∧
      ∃ p' below q ks' s, ∃ tree : Tree s, rule.symbol = s ∧
        (p :: ps).drop rule.arity = p' :: below ∧ ks = ks' ++ tree.kinds ∧ goto p' s = some q ∧
          Spells (p' :: below) ks' := by
  rcases of_reduce ha with hp | ⟨rfl, hp⟩
  · cases rule with
    | emptySequence => cases p <;> simp [Place.rule?] at hp
    | pattern =>
      obtain rfl : p = .alternative := by cases p <;> simp [Place.rule?] at hp ⊢
      obtain ⟨p, below, ks, tree, rfl, rfl, hgoto, h⟩ := h.inv_tree rfl
      obtain rfl : p = .start := by cases p <;> simp [goto] at hgoto ⊢
      exact ⟨rfl, .start, below, _, ks, _, .pattern tree, rfl, rfl, rfl, rfl, h⟩
    | firstAlternative =>
      obtain rfl : p = .conjunction := by cases p <;> simp [Place.rule?] at hp ⊢
      obtain ⟨p, below, ks, tree, rfl, rfl, hgoto, h⟩ := h.inv_tree rfl
      obtain ⟨q, hq⟩ : ∃ q, goto p .alternative = some q := by cases p <;> simp [goto] at hgoto ⊢
      exact ⟨rfl, p, below, q, ks, _, .firstAlternative tree, rfl, rfl, rfl, hq, h⟩
    | nextAlternative =>
      obtain rfl : p = .united := by cases p <;> simp [Place.rule?] at hp ⊢
      obtain ⟨p, below, ks, r, rfl, rfl, hgoto, h⟩ := h.inv_tree rfl
      obtain rfl : p = .pipe := by cases p <;> simp [goto] at hgoto ⊢
      obtain ⟨p, p', below, ks, l, rfl, rfl, hread, hgoto, h⟩ := h.inv_behind (t := .pipe) rfl
      have hparts : [p.via, .inl .pipe, .inr .conjunction] = Rule.parts .nextAlternative := by
        rw [via_of_readable hread rfl]
        rfl
      exact ⟨hparts, p', below, p, ks, _, .nextAlternative l default r, rfl, rfl, by simp, hgoto, h⟩
    | firstConjunct =>
      obtain rfl : p = .negation := by cases p <;> simp [Place.rule?] at hp ⊢
      obtain ⟨p, below, ks, tree, rfl, rfl, hgoto, h⟩ := h.inv_tree rfl
      obtain ⟨q, hq⟩ : ∃ q, goto p .conjunction = some q := by cases p <;> simp [goto] at hgoto ⊢
      exact ⟨rfl, p, below, q, ks, _, .firstConjunct tree, rfl, rfl, rfl, hq, h⟩
    | nextConjunct =>
      obtain rfl : p = .intersected := by cases p <;> simp [Place.rule?] at hp ⊢
      obtain ⟨p, below, ks, r, rfl, rfl, hgoto, h⟩ := h.inv_tree rfl
      obtain rfl : p = .amp := by cases p <;> simp [goto] at hgoto ⊢
      obtain ⟨p, p', below, ks, l, rfl, rfl, hread, hgoto, h⟩ := h.inv_behind (t := .amp) rfl
      have hparts : [p.via, .inl .amp, .inr .negation] = Rule.parts .nextConjunct := by
        rw [via_of_readable hread rfl]
        rfl
      exact ⟨hparts, p', below, p, ks, _, .nextConjunct l default r, rfl, rfl, by simp, hgoto, h⟩
    | plain =>
      obtain rfl : p = .sequence := by cases p <;> simp [Place.rule?] at hp ⊢
      obtain ⟨p, below, ks, tree, rfl, rfl, hgoto, h⟩ := h.inv_tree rfl
      obtain ⟨q, hq⟩ : ∃ q, goto p .negation = some q := by cases p <;> simp [goto] at hgoto ⊢
      exact ⟨rfl, p, below, q, ks, _, .plain tree, rfl, rfl, rfl, hq, h⟩
    | negated =>
      obtain rfl : p = .negated := by cases p <;> simp [Place.rule?] at hp ⊢
      obtain ⟨p, below, ks, tree, rfl, rfl, hgoto, h⟩ := h.inv_tree rfl
      obtain rfl : p = .bang := by cases p <;> simp [goto] at hgoto ⊢
      obtain ⟨p, below, ks, q, rfl, rfl, hq, h⟩ := h.inv_bang
      exact ⟨rfl, p, below, q, ks, _, .negated default tree, rfl, rfl, by simp, hq, h⟩
    | nextItem =>
      obtain rfl : p = .item := by cases p <;> simp [Place.rule?] at hp ⊢
      obtain ⟨p, below, ks, i, rfl, rfl, hgoto, h⟩ := h.inv_tree rfl
      obtain ⟨hvia, p', below, ks, s, rfl, rfl, hgoto, h⟩ := h.inv_sequence hgoto
      have hparts : [p.via, .inr .item] = Rule.parts .nextItem := by
        rw [hvia]
        rfl
      exact ⟨hparts, p', below, p, ks, _, .nextItem s i, rfl, rfl, by simp, hgoto, h⟩
    | once =>
      obtain rfl : p = .atom := by cases p <;> simp [Place.rule?] at hp ⊢
      obtain ⟨p, below, ks, tree, rfl, rfl, hgoto, h⟩ := h.inv_tree rfl
      obtain ⟨q, hq⟩ : ∃ q, goto p .item = some q := by cases p <;> simp [goto] at hgoto ⊢
      exact ⟨rfl, p, below, q, ks, _, .once tree, rfl, rfl, rfl, hq, h⟩
    | counted =>
      obtain rfl : p = .counted := by cases p <;> simp [Place.rule?] at hp ⊢
      obtain ⟨p, p', below, ks, a, rfl, rfl, rfl, hgoto, h⟩ := h.inv_behind (t := .count) rfl
      obtain ⟨q, hq⟩ : ∃ q, goto p' .item = some q := by cases p' <;> simp [goto] at hgoto ⊢
      exact ⟨rfl, p', below, q, ks, _, .counted a default, rfl, rfl, by simp, hq, h⟩
    | letters =>
      obtain rfl : p = .letters := by cases p <;> simp [Place.rule?] at hp ⊢
      obtain ⟨p, below, ks, rfl, rfl, hgoto, h⟩ := h.inv_single .letters
      exact ⟨rfl, p, below, _, ks, _, .single .letters default, rfl, rfl, rfl, hgoto, h⟩
    | dot =>
      obtain rfl : p = .dot := by cases p <;> simp [Place.rule?] at hp ⊢
      obtain ⟨p, below, ks, rfl, rfl, hgoto, h⟩ := h.inv_single .dot
      exact ⟨rfl, p, below, _, ks, _, .single .dot default, rfl, rfl, rfl, hgoto, h⟩
    | caret =>
      obtain rfl : p = .caret := by cases p <;> simp [Place.rule?] at hp ⊢
      obtain ⟨p, below, ks, rfl, rfl, hgoto, h⟩ := h.inv_single .caret
      exact ⟨rfl, p, below, _, ks, _, .single .caret default, rfl, rfl, rfl, hgoto, h⟩
    | dollar =>
      obtain rfl : p = .dollar := by cases p <;> simp [Place.rule?] at hp ⊢
      obtain ⟨p, below, ks, rfl, rfl, hgoto, h⟩ := h.inv_single .dollar
      exact ⟨rfl, p, below, _, ks, _, .single .dollar default, rfl, rfl, rfl, hgoto, h⟩
    | group =>
      obtain rfl : p = .closeParen := by cases p <;> simp [Place.rule?] at hp ⊢
      obtain ⟨p, p', below, ks, inner, rfl, rfl, rfl, hgoto, h⟩ :=
        h.inv_behind (t := .closeParen) rfl
      obtain rfl : p' = .openParen := by cases p' <;> simp [goto] at hgoto ⊢
      obtain ⟨p, below, ks, rfl, rfl, hread, h⟩ := h.inv_openParen
      exact ⟨rfl, p, below, _, ks, _, .group default inner default, rfl, rfl, by simp, hread, h⟩
  · obtain ⟨q, hq⟩ := Option.ne_none_iff_exists'.mp hp
    exact ⟨rfl, p, ps, q, ks, _, .emptySequence, rfl, rfl, (List.append_nil ks).symm, hq, h⟩

/-! ## Completing a stack -/

/-- What is read up to a tree can be continued to a sentence. The tree is completed to one of the
next symbol, at the same place or further down. -/
theorem viable_of_tree (h : Spells (p :: ps) ks) (hgoto : goto p s = some q) (tree : Tree s) :
    Viable (ks ++ tree.kinds) := by
  induction hn : ps.length using Nat.strongRecOn generalizing p q s ps ks with
  | _ n ih =>
    subst hn
    -- each step up the grammar either stays at `p`, or leaves it for a place below
    have pattern {q : Place} (hgoto : goto p .pattern = some q) (tree : Tree .pattern) :
        Viable (ks ++ tree.kinds) := by
      obtain rfl : p = .start := by cases p <;> simp [goto] at hgoto ⊢
      obtain ⟨rfl, rfl⟩ := h.inv_start
      exact ⟨[], tree, by simp⟩
    have alternative {q : Place} (hgoto : goto p .alternative = some q) (tree : Tree .alternative) :
        Viable (ks ++ tree.kinds) := by
      cases p <;> simp [goto] at hgoto
      · exact pattern rfl (.pattern tree)
      · obtain ⟨p, below, ks, rfl, rfl, hread, h⟩ := h.inv_openParen
        have := ih _ (by simp) h hread (.group default tree default) rfl
        rw [Tree.kinds_group] at this
        exact Viable.of_append [.closeParen] (by simpa using this)
    have conjunction {q : Place} (hgoto : goto p .conjunction = some q) (tree : Tree .conjunction) :
        Viable (ks ++ tree.kinds) := by
      by_cases hpipe : p = .pipe
      · subst hpipe
        obtain ⟨p, p', below, ks, l, rfl, rfl, -, hgoto, h⟩ := h.inv_behind (t := .pipe) rfl
        have hlt : below.length < (p :: p' :: below).length := by
          simp only [List.length_cons]
          omega
        simpa using ih _ hlt h hgoto (.nextAlternative l default tree) rfl
      · obtain ⟨q, hq⟩ : ∃ q, goto p .alternative = some q := by
          cases p <;> simp [goto] at hgoto hpipe ⊢
        exact alternative hq (.firstAlternative tree)
    have negation {q : Place} (hgoto : goto p .negation = some q) (tree : Tree .negation) :
        Viable (ks ++ tree.kinds) := by
      by_cases hamp : p = .amp
      · subst hamp
        obtain ⟨p, p', below, ks, l, rfl, rfl, -, hgoto, h⟩ := h.inv_behind (t := .amp) rfl
        have hlt : below.length < (p :: p' :: below).length := by
          simp only [List.length_cons]
          omega
        simpa using ih _ hlt h hgoto (.nextConjunct l default tree) rfl
      · obtain ⟨q, hq⟩ : ∃ q, goto p .conjunction = some q := by
          cases p <;> simp [goto] at hgoto hamp ⊢
        exact conjunction hq (.firstConjunct tree)
    have sequence {q : Place} (hgoto : goto p .sequence = some q) (tree : Tree .sequence) :
        Viable (ks ++ tree.kinds) := by
      by_cases hbang : p = .bang
      · subst hbang
        obtain ⟨p, below, ks, q, rfl, rfl, hq, h⟩ := h.inv_bang
        simpa using ih _ (by simp) h hq (.negated default tree) rfl
      · obtain ⟨q, hq⟩ : ∃ q, goto p .negation = some q := by
          cases p <;> simp [goto] at hgoto hbang ⊢
        exact negation hq (.plain tree)
    have item {q : Place} (hgoto : goto p .item = some q) (tree : Tree .item) :
        Viable (ks ++ tree.kinds) := by
      obtain ⟨-, p', below, ks, l, rfl, rfl, hgoto, h⟩ := h.inv_sequence hgoto
      simpa using ih _ (by simp) h hgoto (.nextItem l tree) rfl
    cases s with
    | pattern => exact pattern hgoto tree
    | alternative => exact alternative hgoto tree
    | conjunction => exact conjunction hgoto tree
    | negation => exact negation hgoto tree
    | sequence => exact sequence hgoto tree
    | item => exact item hgoto tree
    | atom =>
      obtain ⟨q, hq⟩ : ∃ q, goto p .item = some q := by cases p <;> simp [goto] at hgoto ⊢
      exact item hq (.once tree)

/-- What is read up to a place where an empty sequence can stand can be continued to a sentence. -/
theorem viable_of_goto (h : Spells (p :: ps) ks) (hgoto : goto p .sequence = some q) :
    Viable ks := by
  have := h.viable_of_tree hgoto .emptySequence
  rwa [show Tree.emptySequence.kinds = [] from rfl, List.append_nil] at this

/-- Whatever the parser has read without an error can be continued to a sentence. -/
theorem viable (h : Spells ps ks) : Viable ks := by
  cases h with
  | start => exact Spells.start.viable_of_goto rfl
  | tree below h tree => exact below.viable_of_tree h tree
  | read below h =>
    have hspells := below.read h
    obtain ⟨rfl, hread⟩ := of_shift h
    rename_i p t ps ks
    have ofSingle (k : Single) (ht : k.terminal = t) (hread : goto p .atom = some .atom) :
        Viable (ks ++ [t]) := by
      have := below.viable_of_tree hread (.single k default)
      rwa [Tree.kinds_single, ht] at this
    cases t with
    | letters => exact ofSingle .letters rfl hread
    | dot => exact ofSingle .dot rfl hread
    | caret => exact ofSingle .caret rfl hread
    | dollar => exact ofSingle .dollar rfl hread
    | openParen | pipe | amp | bang => exact hspells.viable_of_goto rfl
    | closeParen =>
      obtain rfl := hread
      obtain ⟨p, below', ks, inner, rfl, rfl, hgoto, h⟩ := below.inv_tree rfl
      obtain rfl : p = .openParen := by cases p <;> simp [goto] at hgoto ⊢
      obtain ⟨p, below', ks, rfl, rfl, hread, h⟩ := h.inv_openParen
      simpa using h.viable_of_tree hread (.group default inner default)
    | count =>
      obtain rfl := hread
      obtain ⟨p, below', ks, a, rfl, rfl, hgoto, h⟩ := below.inv_tree rfl
      obtain ⟨q, hq⟩ : ∃ q, goto p .item = some q := by cases p <;> simp [goto] at hgoto ⊢
      simpa using h.viable_of_tree hq (.counted a default)
    | eof => exact hread.elim

end Spells

end PatternAutomata
