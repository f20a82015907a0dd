import PatternAutomata.Proofs.Parser.Recognition
import PatternAutomata.Proofs.Parser.Semantics

/-!
# What the parser accepts

Whatever the source of its tokens, and even if that fails or replaces atoms, a parser that comes to
an automaton has read the tokens of a derivation tree and then the end of the pattern.
-/
namespace PatternAutomata

namespace Tree

/-- The kinds of tokens are all that the grammar looks at. -/
theorem exists_of_kinds {s : Symbol} (tree : Tree s) {ts : List Token}
    (h : kindsOf ts = tree.kinds) : ∃ tree' : Tree s, tree'.tokens = ts := by
  unfold kindsOf at h
  induction tree generalizing ts with
  | pattern whole ih =>
    obtain ⟨whole, hts⟩ := ih h
    exact ⟨.pattern whole, hts⟩
  | firstAlternative c ih =>
    obtain ⟨c, hts⟩ := ih h
    exact ⟨.firstAlternative c, hts⟩
  | nextAlternative l bar r ihl ihr =>
    rw [kinds_nextAlternative] at h
    obtain ⟨ls, _, rfl, hl, h⟩ := List.map_eq_append_iff.mp h
    obtain ⟨bar, rs, rfl, hbar, hr⟩ := List.map_eq_cons_iff.mp h
    obtain ⟨l, rfl⟩ := ihl hl
    obtain ⟨r, rfl⟩ := ihr hr
    exact ⟨.nextAlternative l ⟨bar, hbar⟩ r, by simp [tokens]⟩
  | firstConjunct n ih =>
    obtain ⟨n, hts⟩ := ih h
    exact ⟨.firstConjunct n, hts⟩
  | nextConjunct l sign r ihl ihr =>
    rw [kinds_nextConjunct] at h
    obtain ⟨ls, _, rfl, hl, h⟩ := List.map_eq_append_iff.mp h
    obtain ⟨sign, rs, rfl, hsign, hr⟩ := List.map_eq_cons_iff.mp h
    obtain ⟨l, rfl⟩ := ihl hl
    obtain ⟨r, rfl⟩ := ihr hr
    exact ⟨.nextConjunct l ⟨sign, hsign⟩ r, by simp [tokens]⟩
  | plain s ih =>
    obtain ⟨s, hts⟩ := ih h
    exact ⟨.plain s, hts⟩
  | negated sign s ih =>
    rw [kinds_negated] at h
    obtain ⟨sign, ts, rfl, hsign, h⟩ := List.map_eq_cons_iff.mp h
    obtain ⟨s, rfl⟩ := ih h
    exact ⟨.negated ⟨sign, hsign⟩ s, by simp [tokens]⟩
  | emptySequence =>
    obtain rfl := List.map_eq_nil_iff.mp h
    exact ⟨.emptySequence, rfl⟩
  | nextItem s i ihs ihi =>
    rw [kinds_nextItem] at h
    obtain ⟨ss, is, rfl, hs, hi⟩ := List.map_eq_append_iff.mp h
    obtain ⟨s, rfl⟩ := ihs hs
    obtain ⟨i, rfl⟩ := ihi hi
    exact ⟨.nextItem s i, rfl⟩
  | once a ih =>
    obtain ⟨a, hts⟩ := ih h
    exact ⟨.once a, hts⟩
  | counted a count ih =>
    rw [kinds_counted] at h
    obtain ⟨as, _, rfl, ha, h⟩ := List.map_eq_append_iff.mp h
    obtain ⟨count, rfl, hcount⟩ := List.map_eq_singleton_iff.mp h
    obtain ⟨a, rfl⟩ := ih ha
    exact ⟨.counted a ⟨count, hcount⟩, rfl⟩
  | single k leaf =>
    rw [kinds_single] at h
    obtain ⟨leaf, rfl, hleaf⟩ := List.map_eq_singleton_iff.mp h
    exact ⟨.single k ⟨leaf, hleaf⟩, rfl⟩
  | group opening inner closing ih =>
    rw [kinds_group] at h
    obtain ⟨opening, ts, rfl, hopening, h⟩ := List.map_eq_cons_iff.mp h
    obtain ⟨ts, _, rfl, hinner, h⟩ := List.map_eq_append_iff.mp h
    obtain ⟨closing, rfl, hclosing⟩ := List.map_eq_singleton_iff.mp h
    obtain ⟨inner, rfl⟩ := ih hinner
    exact ⟨.group ⟨opening, hopening⟩ inner ⟨closing, hclosing⟩, by simp [tokens]⟩

end Tree

variable {σ : Type} {source : TokenSource σ} {limit : Nat}

/-- What a source may be seen to do between the tokens that a parser pulls from it: `reached` tells
the tokens pulled before the last one, the last one, and the state of the source. -/
structure TokenSource.Tracks (source : TokenSource σ) (reached : List Token → Token → σ → Prop) :
    Prop where
  next : ∀ ts t s u s', reached ts t s → t.terminal ≠ .eof → source.next s = (.ok u, s') →
    reached (ts ++ [t]) u s'
  onAtom : ∀ a ts t s, reached ts t s → reached ts t (source.onAtom a s).2

variable {reached : List Token → Token → σ → Prop} {ts : List Token} {token : Token}

theorem TokenSource.Tracks.settle (tracks : source.Tracks reached) (limit : Nat) {s : σ}
    (hs : reached ts token s) (e : Encoding) (rule : Rule) (vs : List (Option Operand)) :
    reached ts token ((settle limit e source.onAtom rule vs).run s).2 := by
  simp only [PatternAutomata.settle]
  cases combine limit e rule vs with
  | error => exact hs
  | ok v =>
    simp only [Eval.lift_ok_bind, Eval.run_bind, run_announced, Eval.run_lift]
    unfold announce
    split
    · split
      · exact tracks.onAtom _ ts token s hs
      · exact hs
    · exact hs

/-- What holds of a parser that has read `ts`: they are what the stack spells. -/
structure Deriving (reached : List Token → Token → σ → Prop) (ts : List Token)
    (c : Configuration σ) : Prop where
  reached : reached ts c.token c.state
  spells : Spells (places c.stack) (kindsOf ts)

namespace Deriving
variable {slot : Slot} {below : List Slot} {s : σ} {c : Configuration σ}

/-- A move reads a token, or applies a rule to what the stack spells, or ends the parse. It ends
the parse with an automaton only where a whole pattern stands before the end. -/
theorem step (tracks : source.Tracks reached) (h : Deriving reached ts c) (limit : Nat) :
    match PatternAutomata.step source limit c with
    | .running c' => ∃ ts', Deriving reached ts' c'
    | .finished (.ok _) s => c.token.terminal = .eof ∧ Sentence (kindsOf ts) ∧ reached ts c.token s
    | .finished (.error _) _ => True := by
  obtain ⟨token, _ | ⟨slot, below⟩, s⟩ := c
  · trivial
  · cases ha : action slot.place token.terminal with
    | shift q =>
      rw [step_shift source limit below s ha]
      rcases hnext : source.next s with ⟨err | next, s'⟩
      · trivial
      · refine ⟨ts ++ [token],
          tracks.next ts token s next s' h.reached (ne_eof_of_action_shift ha) hnext, ?_⟩
        rw [kindsOf, List.map_append]
        exact h.spells.read ha
    | reduce rule =>
      have hwhole : Spells (slot.place :: places below) (kindsOf ts) := h.spells
      obtain ⟨-, p, ps, q, ks, symbol, tree, hsymbol, hdrop, hks, hgoto, hspells⟩ :=
        hwhole.exists_of_reduce ha
      rw [← places_cons] at hdrop
      obtain ⟨slot', below', hdrop', rfl, rfl⟩ := drop_of_places hdrop
      have hreached := tracks.settle limit h.reached (source.encoding s) rule
        ((values (slot :: below)).take rule.arity).reverse
      rw [step_reduce source limit below s ha hdrop' (hsymbol ▸ hgoto)]
      generalize (settle limit (source.encoding s) source.onAtom rule
        ((values (slot :: below)).take rule.arity).reverse).run s = r at hreached
      obtain ⟨err | v, s'⟩ := r
      · trivial
      · refine ⟨ts, hreached, ?_⟩
        rw [hks]
        exact hspells.tree hgoto tree
    | accept =>
      rw [step_accept source limit below s ha]
      cases (needed slot.value).bind (·.toAutomaton (source.encoding s)) with
      | error => trivial
      | ok a =>
        obtain ⟨hplace, htoken⟩ := of_accept ha
        have hspells : Spells (slot.place :: places below) (kindsOf ts) := h.spells
        rw [hplace] at hspells
        exact ⟨htoken, hspells.sentence, h.reached⟩
    | reject =>
      rw [step_reject source limit below s ha]
      trivial

theorem runFrom (tracks : source.Tracks reached) {a : Automaton} (h : Deriving reached ts c)
    (hrun : (runFrom source limit c).1 = .ok a) :
    ∃ (tree : Tree .pattern) (last : Token), last.terminal = .eof ∧
      reached tree.tokens last (PatternAutomata.runFrom source limit c).2 := by
  induction c using runFrom.induct source limit generalizing ts with
  | case1 c result s hstep =>
    have hend := h.step tracks limit
    rw [runFrom_finished hstep] at hrun ⊢
    obtain rfl := hrun
    rw [hstep] at hend
    obtain ⟨heof, ⟨tree, hkinds⟩, hreached⟩ := hend
    obtain ⟨tree, rfl⟩ := tree.exists_of_kinds hkinds.symm
    exact ⟨tree, c.token, heof, hreached⟩
  | case2 c c' hstep ih =>
    have hmove := h.step tracks limit
    rw [runFrom_running hstep] at hrun ⊢
    rw [hstep] at hmove
    obtain ⟨ts', h'⟩ := hmove
    exact ih h' hrun

end Deriving

/-- A parse that comes to an automaton has pulled the tokens of a tree and the end behind them. -/
theorem parse_sound (tracks : source.Tracks reached) {s : σ} {a : Automaton}
    (hfirst : ∀ t s', source.next s = (.ok t, s') → reached [] t s')
    (hparse : (parse source limit s).1 = .ok a) : ∃ (tree : Tree .pattern) (last : Token),
      last.terminal = .eof ∧ reached tree.tokens last (parse source limit s).2 := by
  unfold parse at hparse ⊢
  rcases hnext : source.next s with ⟨err | token, s'⟩
  · simp [hnext] at hparse
  · simp only [hnext] at hparse ⊢
    have h : Deriving reached [] ⟨token, [⟨.start, none⟩], s'⟩ := ⟨hfirst token s' hnext, .start⟩
    exact h.runFrom tracks hparse

end PatternAutomata
