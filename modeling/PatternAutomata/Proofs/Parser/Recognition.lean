import PatternAutomata.Proofs.Parser.Moments
import PatternAutomata.Proofs.Parser.Moves
import PatternAutomata.Proofs.Parser.Productions
import PatternAutomata.Proofs.Parser.Spelling
import PatternAutomata.Proofs.Token

/-!
# Recognizing sentences

The parser follows a trace from the start, and its stack spells the tokens read so far. So what it
has read can always be continued to a sentence, and since the trace of a sentence is the only one, a
token that the parser rejects cannot come next in any sentence.
-/
namespace PatternAutomata

variable {σ : Type}

/-- A source that never fails, hands out tokens with the terms that they need, and leaves automata
alone. `inv` holds of its states. -/
structure TokenSource.Honest (source : TokenSource σ) (inv : σ → Prop) : Prop where
  next : ∀ s, inv s → ∃ t s', source.next s = (.ok t, s') ∧ t.Meaningful ∧ inv s'
  onAtom : ∀ a s, inv s → (source.onAtom a s).1 = a ∧ inv (source.onAtom a s).2

/-! ## The values on the stack -/

/-- Whether a value is one that a part of a rule may have. -/
def Fitting : Terminal ⊕ Symbol → Option Operand → Prop
  | .inr _, v => ∃ o, v = some o ∧ o.Matching
  | .inl .letters, v | .inl .dot, v | .inl .caret, v | .inl .dollar, v =>
    ∃ o, v = some o ∧ o.Matching
  | .inl .count, v => ∃ least most, v = some (.term (.count least most))
  | .inl _, _ => True

theorem Token.Meaningful.fitting {t : Token} (h : t.Meaningful) :
    Fitting (.inl t.terminal) (t.term.map .term) := by
  obtain ⟨terminal, term, offset⟩ := t
  cases terminal with
  | letters | dot | caret | dollar =>
    obtain ⟨term, rfl, hterm⟩ := h
    exact ⟨.term term, rfl, hterm⟩
  | count =>
    obtain ⟨least, most, rfl⟩ := h
    exact ⟨least, most, rfl⟩
  | openParen | closeParen | pipe | amp | bang | eof => trivial

section
variable {η : Type} {limit : Nat} {e : Encoding} {hook : Hook η} {keeps : η → Prop} {rule : Rule}
  {vs : List (Option Operand)} {v : Operand}

theorem yields_passing (h : rule.Passing) (hv : v.Matching) :
    ∃ p n, (settle limit e hook rule [some v]).Yields limit n keeps (·.Denotes e p n) := by
  obtain ⟨n, hn⟩ := hv.exists_denotes e
  refine ⟨v.meaning e, n, ?_⟩
  rw [settle_passing h]
  exact yields_guard hn (Nat.le_refl n)

/-- A rule makes something that matches of the values of its parts, unless the limit is too small.
-/
theorem settle_fitting (limit : Nat) (e : Encoding) (hhook : hook.Harmless keeps)
    (hvs : List.Forall₂ Fitting rule.parts vs) :
    ∃ p n, (settle limit e hook rule vs).Yields limit n keeps (·.Denotes e p n) := by
  cases rule with
  | emptySequence =>
    cases hvs
    exact ⟨_, 1, settle_emptySequence ▸ yields_emptySequence⟩
  | pattern =>
    obtain _ | ⟨⟨v, rfl, hv⟩, _ | _⟩ := hvs
    obtain ⟨n, hn⟩ := hv.exists_denotes e
    exact ⟨_, n, settle_pattern v ▸ yields_pattern hn⟩
  | firstAlternative =>
    obtain _ | ⟨⟨v, rfl, hv⟩, _ | _⟩ := hvs
    exact yields_passing .firstAlternative hv
  | firstConjunct =>
    obtain _ | ⟨⟨v, rfl, hv⟩, _ | _⟩ := hvs
    exact yields_passing .firstConjunct hv
  | plain =>
    obtain _ | ⟨⟨v, rfl, hv⟩, _ | _⟩ := hvs
    exact yields_passing .plain hv
  | once =>
    obtain _ | ⟨⟨v, rfl, hv⟩, _ | _⟩ := hvs
    exact yields_passing .once hv
  | letters =>
    obtain _ | ⟨⟨v, rfl, hv⟩, _ | _⟩ := hvs
    exact yields_passing (.single .letters) hv
  | dot =>
    obtain _ | ⟨⟨v, rfl, hv⟩, _ | _⟩ := hvs
    exact yields_passing (.single .dot) hv
  | caret =>
    obtain _ | ⟨⟨v, rfl, hv⟩, _ | _⟩ := hvs
    exact yields_passing (.single .caret) hv
  | dollar =>
    obtain _ | ⟨⟨v, rfl, hv⟩, _ | _⟩ := hvs
    exact yields_passing (.single .dollar) hv
  | nextAlternative =>
    obtain _ | ⟨⟨l, rfl, hl⟩, _ | ⟨-, _ | ⟨⟨r, rfl, hr⟩, _ | _⟩⟩⟩ := hvs
    obtain ⟨m, hm⟩ := hl.exists_denotes e
    obtain ⟨n, hn⟩ := hr.exists_denotes e
    exact ⟨_, _, settle_nextAlternative l r _ ▸ yields_nextAlternative hm hn⟩
  | nextConjunct =>
    obtain _ | ⟨⟨l, rfl, hl⟩, _ | ⟨-, _ | ⟨⟨r, rfl, hr⟩, _ | _⟩⟩⟩ := hvs
    obtain ⟨m, hm⟩ := hl.exists_denotes e
    obtain ⟨n, hn⟩ := hr.exists_denotes e
    exact ⟨_, _, settle_nextConjunct l r _ ▸ yields_nextConjunct hm hn⟩
  | negated =>
    obtain _ | ⟨-, _ | ⟨⟨v, rfl, hv⟩, _ | _⟩⟩ := hvs
    obtain ⟨n, hn⟩ := hv.exists_denotes e
    exact ⟨_, _, settle_negated v _ ▸ yields_negated hn⟩
  | nextItem =>
    obtain _ | ⟨⟨v, rfl, hv⟩, _ | ⟨⟨item, rfl, hitem⟩, _ | _⟩⟩ := hvs
    obtain ⟨m, hm⟩ := hv.exists_denotes e
    obtain ⟨n, hn⟩ := hitem.exists_denotes e
    exact ⟨_, _, settle_nextItem v item ▸ yields_nextItem hm hn⟩
  | counted =>
    obtain _ | ⟨⟨item, rfl, hitem⟩, _ | ⟨⟨least, most, rfl⟩, _ | _⟩⟩ := hvs
    obtain ⟨n, hn⟩ := hitem.exists_denotes e
    refine ⟨(item.meaning e).repeated least most, repetitionBound n least most, ?_⟩
    rw [settle_counted, needed, Eval.lift_ok_bind]
    exact yields_counted hhook hn least most
  | group =>
    obtain _ | ⟨-, _ | ⟨⟨v, rfl, hv⟩, _ | ⟨-, _ | _⟩⟩⟩ := hvs
    obtain ⟨n, hn⟩ := hv.exists_denotes e
    exact ⟨_, n, settle_group v _ _ ▸ yields_group hhook hn⟩

end

/-! ## Following the trace -/

/-- The kinds of tokens. -/
def kindsOf (ts : List Token) : List Terminal := ts.map (·.terminal)

/-- What holds of a watched parser that has read `ts`. -/
structure Reading (inv : σ → Prop) (ts : List Token) (c : Configuration (σ × Record)) : Prop where
  state : inv c.state.1
  pulls : c.state.2.pulls = (ts ++ [c.token]).map .ok
  meaningful : c.token.Meaningful
  not_eof : ∀ t ∈ ts, t.terminal ≠ .eof
  spells : Spells (places c.stack) (kindsOf ts)
  traces : ∃ ms, Traces [.start] (kindsOf (ts ++ [c.token])) ms (places c.stack) [c.token.terminal]
  fitting : ∀ slot ∈ c.stack, Fitting slot.place.via slot.value

/-- How a watched parse can end. -/
inductive Ending (limit : Nat) (record : Record) : Except Error Automaton → Prop
  | refused : Ending limit record (.error (.tooLarge limit))
  | accepted (ts : List Token) (t : Token) (a : Automaton)
    (hpulls : record.pulls = (ts ++ [t]).map .ok) (hts : ∀ u ∈ ts, u.terminal ≠ .eof)
    (ht : t.terminal = .eof) (hsentence : Sentence (kindsOf ts)) : Ending limit record (.ok a)
  | rejected (ts : List Token) (t : Token)
    (hpulls : record.pulls = (ts ++ [t]).map .ok) (hts : ∀ u ∈ ts, u.terminal ≠ .eof)
    (hviable : Viable (kindsOf ts)) (hfollow : ¬ CanFollow (kindsOf ts) t.terminal) :
    Ending limit record (.error (.unexpected t.offset t.terminal))

/-- What stands at the end of the pattern is the whole pattern. -/
theorem Spells.sentence {ps : List Place} {ks : List Terminal} (h : Spells (.finished :: ps) ks) :
    Sentence ks := by
  obtain ⟨p, below, ks, tree, rfl, rfl, hgoto, h⟩ := h.inv_tree rfl
  obtain rfl : p = .start := by cases p <;> simp [goto] at hgoto ⊢
  obtain ⟨-, rfl⟩ := h.inv_start
  exact ⟨tree, rfl⟩

/-- A token that is rejected cannot come next. The trace of a sentence would go on past it. -/
theorem not_canFollow {p : Place} {ps : List Place} {ks : List Terminal} {t : Terminal}
    {ms : List Move} (htraces : Traces [.start] (ks ++ [t]) ms (p :: ps) [t])
    (h : action p t = .reject) : ¬ CanFollow ks t := by
  have hhalted (more : List Terminal) : Halted (p :: ps) ([t] ++ more) := .inr h
  unfold CanFollow
  split
  · next ht =>
    subst ht
    rintro ⟨tree, rfl⟩
    obtain ⟨-, hps, -⟩ := htraces.deterministic tree.traces_whole (hhalted []) Tree.halted_whole
    obtain rfl := (List.cons.inj hps).1
    simp [action] at h
  · next ht =>
    rintro ⟨rest, tree, htree⟩
    have hwhole := tree.traces_whole
    rw [htree, List.append_assoc] at hwhole
    obtain ⟨-, -, hts⟩ := (htraces.extend (rest ++ [.eof])).deterministic hwhole
      (hhalted _) Tree.halted_whole
    exact ht (List.cons.inj hts).1

section
variable {fits : Terminal ⊕ Symbol → Option Operand → Prop}

/-- What the parser takes off the stack is as the places say that it takes it from. -/
theorem forall₂_fits {stack : List Slot} (h : ∀ slot ∈ stack, fits slot.place.via slot.value)
    (n : Nat) :
    List.Forall₂ fits (((places stack).take n).reverse.map Place.via)
      ((values stack).take n).reverse := by
  rw [places, values, ← List.map_take, ← List.map_take, ← List.map_reverse, ← List.map_reverse,
    List.map_map, List.forall₂_map_left_iff, List.forall₂_map_right_iff, List.forall₂_same]
  intro slot hslot
  exact h slot (List.mem_of_mem_take (List.mem_reverse.mp hslot))

/-- Where a rule is applied, the values on the stack are those of its parts, and the table leads on
from the place below them. -/
theorem Spells.exists_reduction {slot : Slot} {below : List Slot} {ks : List Terminal}
    {t : Terminal} {rule : Rule} (h : Spells (slot.place :: places below) ks)
    (hfits : ∀ slot' ∈ slot :: below, fits slot'.place.via slot'.value)
    (ha : action slot.place t = .reduce rule) :
    ∃ slot' below' q, (slot :: below).drop rule.arity = slot' :: below' ∧
      goto slot'.place rule.symbol = some q ∧ Spells (q :: places (slot' :: below')) ks ∧
        List.Forall₂ fits rule.parts ((values (slot :: below)).take rule.arity).reverse := by
  obtain ⟨hparts, p', ps, q, ks, symbol, tree, rfl, hdrop, rfl, hgoto, hspells⟩ :=
    h.exists_of_reduce ha
  rw [← places_cons] at hparts hdrop
  obtain ⟨slot', below', hdrop', rfl, rfl⟩ := drop_of_places hdrop
  have hvalues := forall₂_fits hfits rule.arity
  rw [hparts] at hvalues
  exact ⟨slot', below', q, hdrop', hgoto, hspells.tree hgoto tree, hvalues⟩

end

/-- Where the parser accepts, it holds an automaton, or what becomes one. -/
theorem built_of_accept {slot : Slot} {t : Terminal}
    (hfitting : Fitting slot.place.via slot.value) (ha : action slot.place t = .accept)
    (e : Encoding) :
    ∃ v a, slot.value = some v ∧ v.toAutomaton e = .ok a ∧ a.WellFormed := by
  rw [(of_accept ha).1] at hfitting
  obtain ⟨v, hv, hmatching⟩ := hfitting
  obtain ⟨a, hautomaton, hw, -⟩ := Operand.toAutomaton_spec hmatching e
  exact ⟨v, a, hv, hautomaton, hw⟩

section
variable {source : TokenSource σ} {inv : σ → Prop} {limit : Nat} {ts : List Token} {token : Token}
  {slot : Slot} {below : List Slot} {s : σ × Record}

theorem TokenSource.Honest.harmless (honest : source.Honest inv)
    (pulls : List (Except LexError Token)) :
    Hook.Harmless source.watched.onAtom fun s => inv s.1 ∧ s.2.pulls = pulls where
  kept a s hs := ⟨(honest.onAtom a s.1 hs.1).2, hs.2⟩
  denotes a s p n hs ha := by
    have hsame : (source.watched.onAtom a s).1 = a := (honest.onAtom a s.1 hs.1).1
    rwa [hsame]

namespace Reading

theorem shift (h : Reading inv ts ⟨token, slot :: below, s⟩) (honest : source.Honest inv)
    {q : Place} (ha : action slot.place token.terminal = .shift q) :
    ∃ c, step source.watched limit ⟨token, slot :: below, s⟩ = .running c ∧
      Reading inv (ts ++ [token]) c := by
  obtain ⟨next, s', hnext, hmeaningful, hs'⟩ := honest.next s.1 h.state
  obtain ⟨ms, htraces⟩ := h.traces
  refine ⟨⟨next, ⟨q, token.term.map .term⟩ :: slot :: below, s',
    { s.2 with pulls := s.2.pulls ++ [.ok next] }⟩, ?_, ?_⟩
  · rw [step_shift source.watched limit below s ha]
    simp only [TokenSource.watched, hnext]
  · obtain ⟨hq, -⟩ := of_shift ha
    refine ⟨hs', ?_, hmeaningful, ?_, ?_, ?_, ?_⟩
    · have hpulls : s.2.pulls = (ts ++ [token]).map .ok := h.pulls
      simp only [hpulls, List.map_append, List.map_cons, List.map_nil]
    · intro t ht
      rcases List.mem_append.mp ht with ht | ht
      · exact h.not_eof t ht
      · rw [List.mem_singleton.mp ht]
        exact ne_eof_of_action_shift ha
    · have hspells := h.spells.read ha
      rwa [kindsOf, List.map_append]
    · have hread := (htraces.extend [next.terminal]).trans (.read ha (.done _ _))
      refine ⟨ms ++ [.read], ?_⟩
      rwa [kindsOf, List.map_append]
    · rintro slot' (_ | ⟨_, hslot⟩)
      · rw [hq, via_place]
        exact h.meaningful.fitting
      · exact h.fitting slot' hslot

theorem reduce (h : Reading inv ts ⟨token, slot :: below, s⟩) (honest : source.Honest inv)
    {rule : Rule} (ha : action slot.place token.terminal = .reduce rule) :
    (∃ c, step source.watched limit ⟨token, slot :: below, s⟩ = .running c ∧ Reading inv ts c) ∨
      ∃ s', step source.watched limit ⟨token, slot :: below, s⟩ =
        .finished (.error (.tooLarge limit)) s' := by
  have hwhole : Spells (slot.place :: places below) (kindsOf ts) := h.spells
  obtain ⟨slot', below', q, hdrop, hgoto, hspells, hfitting⟩ :=
    hwhole.exists_reduction h.fitting ha
  have hplaces : (places (slot :: below)).drop rule.arity = slot'.place :: places below' := by
    rw [places, ← List.map_drop, hdrop]
    rfl
  obtain ⟨ms, htraces⟩ := h.traces
  obtain ⟨p, n, hyields⟩ := settle_fitting limit (source.watched.encoding s)
    (honest.harmless s.2.pulls) hfitting
  obtain ⟨⟨hstate, hpulls⟩, hpost⟩ := hyields s ⟨h.state, rfl⟩
  rw [step_reduce source.watched limit below s ha hdrop hgoto]
  generalize (settle limit (source.watched.encoding s) source.watched.onAtom rule
    ((values (slot :: below)).take rule.arity).reverse).run s = r at hstate hpulls hpost
  obtain ⟨err | v, s'⟩ := r
  · obtain ⟨rfl, -⟩ := hpost
    exact .inr ⟨s', rfl⟩
  · refine .inl ⟨_, rfl, hstate, hpulls.trans h.pulls, h.meaningful, h.not_eof, hspells, ?_, ?_⟩
    · exact ⟨_, htraces.trans (.reduce ha hplaces hgoto (.done _ _))⟩
    · rintro slot'' (_ | ⟨_, hslot⟩)
      · rw [via_of_goto hgoto]
        exact ⟨v, rfl, hpost.matching⟩
      · exact h.fitting slot'' (List.mem_of_mem_drop (hdrop ▸ hslot))

theorem accept (h : Reading inv ts ⟨token, slot :: below, s⟩)
    (ha : action slot.place token.terminal = .accept) :
    ∃ a, step source.watched limit ⟨token, slot :: below, s⟩ = .finished (.ok a) s ∧
      Ending limit s.2 (.ok a) := by
  obtain ⟨hplace, htoken⟩ := of_accept ha
  have hspells : Spells (slot.place :: places below) (kindsOf ts) := h.spells
  rw [hplace] at hspells
  obtain ⟨v, a, hv, hautomaton, -⟩ :=
    built_of_accept (h.fitting slot (.head _)) ha (source.watched.encoding s)
  refine ⟨a, ?_, .accepted ts token a h.pulls h.not_eof htoken hspells.sentence⟩
  rw [step_accept source.watched limit below s ha, hv]
  exact congrArg (Progress.finished · s) hautomaton

theorem reject (h : Reading inv ts ⟨token, slot :: below, s⟩)
    (ha : action slot.place token.terminal = .reject) :
    step source.watched limit ⟨token, slot :: below, s⟩ =
        .finished (.error (.unexpected token.offset token.terminal)) s ∧
      Ending limit s.2 (.error (.unexpected token.offset token.terminal)) := by
  obtain ⟨ms, htraces⟩ := h.traces
  refine ⟨step_reject source.watched limit below s ha, ?_⟩
  refine .rejected ts token h.pulls h.not_eof h.spells.viable ?_
  rw [kindsOf, List.map_append] at htraces
  exact not_canFollow htraces ha

/-- One move keeps to the trace, or ends the parse. -/
theorem step_spec {c : Configuration (σ × Record)} (h : Reading inv ts c)
    (honest : source.Honest inv) (limit : Nat) :
    (∃ c' ts', step source.watched limit c = .running c' ∧ Reading inv ts' c') ∨
      ∃ result s', step source.watched limit c = .finished result s' ∧
        Ending limit s'.2 result := by
  obtain ⟨token, _ | ⟨slot, below⟩, s⟩ := c
  · exact nomatch h.spells
  · cases ha : action slot.place token.terminal with
    | shift q =>
      obtain ⟨c', hstep, h'⟩ := h.shift honest ha
      exact .inl ⟨c', _, hstep, h'⟩
    | reduce rule =>
      rcases h.reduce honest ha with ⟨c', hstep, h'⟩ | ⟨s', hstep⟩
      · exact .inl ⟨c', _, hstep, h'⟩
      · exact .inr ⟨_, s', hstep, .refused⟩
    | accept =>
      obtain ⟨a, hstep, hend⟩ := h.accept ha
      exact .inr ⟨_, s, hstep, hend⟩
    | reject =>
      obtain ⟨hstep, hend⟩ := h.reject ha
      exact .inr ⟨_, s, hstep, hend⟩

theorem runFrom_spec {c : Configuration (σ × Record)} (h : Reading inv ts c)
    (honest : source.Honest inv) (limit : Nat) :
    Ending limit (runFrom source.watched limit c).2.2 (runFrom source.watched limit c).1 := by
  induction c using runFrom.induct source.watched limit generalizing ts with
  | case1 c result s hstep =>
    rw [runFrom_finished hstep]
    rcases h.step_spec honest limit with ⟨c', _, hstep', -⟩ | ⟨result', s', hstep', hend⟩
    · rw [hstep] at hstep'
      cases hstep'
    · rw [hstep] at hstep'
      cases hstep'
      exact hend
  | case2 c c' hstep ih =>
    rw [runFrom_running hstep]
    rcases h.step_spec honest limit with ⟨c'', _, hstep', h'⟩ | ⟨_, _, hstep', -⟩
    · rw [hstep] at hstep'
      cases hstep'
      exact ih h'
    · rw [hstep] at hstep'
      cases hstep'

end Reading

theorem parse_spec (honest : source.Honest inv) {s : σ} (hs : inv s) (limit : Nat) :
    ∃ record, parse source.watched limit (s, {}) =
        ((parse source limit s).1, (parse source limit s).2, record) ∧
      Ending limit record (parse source limit s).1 := by
  obtain ⟨record, hwatched⟩ := parse_watched source limit s {}
  refine ⟨record, hwatched, ?_⟩
  obtain ⟨t, s', hnext, hmeaningful, hs'⟩ := honest.next s hs
  have hfirst : Reading inv []
      ⟨t, [⟨.start, none⟩], s', { pulls := [.ok t], atoms := [] }⟩ :=
    ⟨hs', rfl, hmeaningful, fun _ h => (List.not_mem_nil h).elim, .start, ⟨[], .done _ _⟩, by
      simp [Place.via, Fitting]⟩
  have hend := hfirst.runFrom_spec honest limit
  have hparse : parse source.watched limit (s, {}) = runFrom source.watched limit
      ⟨t, [⟨.start, none⟩], s', { pulls := [.ok t], atoms := [] }⟩ := by
    simp only [parse, TokenSource.watched, hnext, List.nil_append]
  rw [← hparse, hwatched] at hend
  exact hend

end

/-- Whatever a sentence begins with can be followed by what comes next in it. -/
theorem Sentence.canFollow {ks ks' : List Terminal} {t : Terminal} (h : Sentence ks')
    (heof : .eof ∉ ks') (hbegins : ks ++ [t] <+: ks' ++ [.eof]) : CanFollow ks t := by
  unfold CanFollow
  rcases List.prefix_concat_iff.mp hbegins with heq | ⟨rest, rfl⟩
  · obtain ⟨rfl, rfl⟩ := List.append_singleton_inj.mp heq
    rwa [if_pos rfl]
  · have ht : t ≠ .eof := by
      rintro rfl
      exact heof (by simp)
    rw [if_neg ht]
    exact ⟨rest, h⟩

theorem eq_of_prefix_eof {ks ks' : List Terminal} (heof : .eof ∉ ks')
    (hbegins : ks ++ [.eof] <+: ks' ++ [.eof]) : ks = ks' := by
  rcases List.prefix_concat_iff.mp hbegins with heq | ⟨rest, rfl⟩
  · exact (List.append_singleton_inj.mp heq).1
  · exact absurd (by simp) heof

/-- The parser accepts the sentences of the grammar, and rejects the first token that cannot follow
those before it. It pulls the tokens up to there and none behind it. -/
theorem parse_recognizes {source : TokenSource σ} {inv : σ → Prop} (honest : source.Honest inv)
    {s : σ} (hs : inv s) {limit : Nat}
    (hlimit : (parse source limit s).1 ≠ .error (.tooLarge limit)) :
    ∃ record ts t, parse source.watched limit (s, {}) =
        ((parse source limit s).1, (parse source limit s).2, record) ∧
      record.pulls = (ts ++ [t]).map .ok ∧ (∀ u ∈ ts, u.terminal ≠ .eof) ∧ Viable (kindsOf ts) ∧
      (CanFollow (kindsOf ts) t.terminal →
        t.terminal = .eof ∧ ∃ a, (parse source limit s).1 = .ok a) ∧
      (¬ CanFollow (kindsOf ts) t.terminal →
        (parse source limit s).1 = .error (.unexpected t.offset t.terminal)) ∧
      ∀ ks, .eof ∉ ks → kindsOf (ts ++ [t]) <+: ks ++ [.eof] →
        ((∃ a, (parse source limit s).1 = .ok a) ↔ Sentence ks) := by
  obtain ⟨record, hwatched, hend⟩ := parse_spec honest hs limit
  generalize (parse source limit s).1 = result at hlimit hwatched hend ⊢
  cases hend with
  | refused => exact absurd rfl hlimit
  | accepted ts t a hpulls hts ht hsentence =>
    have hfollow : CanFollow (kindsOf ts) t.terminal := by rwa [CanFollow, if_pos ht]
    refine ⟨record, ts, t, hwatched, hpulls, hts, ⟨[], by rwa [List.append_nil]⟩,
      fun _ => ⟨ht, a, rfl⟩, fun h => absurd hfollow h, ?_⟩
    intro ks heof hbegins
    rw [kindsOf, List.map_append, List.map_singleton, ht] at hbegins
    obtain rfl := eq_of_prefix_eof heof hbegins
    exact iff_of_true ⟨a, rfl⟩ hsentence
  | rejected ts t hpulls hts hviable hfollow =>
    refine ⟨record, ts, t, hwatched, hpulls, hts, hviable, fun h => absurd h hfollow, fun _ => rfl,
      ?_⟩
    intro ks heof hbegins
    rw [kindsOf, List.map_append, List.map_singleton] at hbegins
    apply iff_of_false nofun
    intro hsentence
    exact hfollow (hsentence.canFollow heof hbegins)

/-- A script of meaningful tokens is honest as long as it leaves automata alone. -/
theorem Script.honest : (Script.source id).Honest fun s =>
    ∀ entry ∈ s.entries, ∃ t, entry.result = .ok t ∧ t.Meaningful where
  next s hs := by
    obtain ⟨_ | ⟨entry, entries⟩, encoding, endOffset, pulled, atomSizes⟩ := s
    · exact ⟨_, _, rfl, trivial, hs⟩
    · obtain ⟨t, ht, hmeaningful⟩ := hs entry (.head _)
      refine ⟨t, _, Prod.ext ht rfl, hmeaningful, ?_⟩
      intro entry' hentry'
      exact hs entry' (.tail _ hentry')
  onAtom _ _ hs := ⟨rfl, hs⟩

/-- A letter in parentheses, and the given tokens behind it. -/
def groupThen (tokens : List Token) : List Token :=
  ⟨.openParen, none, 0⟩ :: ⟨.letters, some (.ofChars ['a']), 1⟩ :: ⟨.closeParen, none, 2⟩ :: tokens

theorem meaningful_groupThen {tokens : List Token} (h : ∀ t ∈ tokens, t.Meaningful) :
    ∀ t ∈ groupThen tokens, t.Meaningful := by
  rintro t (_ | ⟨_, _ | ⟨_, _ | ⟨_, ht⟩⟩⟩)
  · trivial
  · exact ⟨_, rfl, trivial⟩
  · trivial
  · exact h t ht

/-- The script that hands out the given tokens. -/
def Script.ofTokens (tokens : List Token) : Script where
  entries := tokens.map fun t => ⟨.ok t, none⟩

theorem Script.meaningful_ofTokens {tokens : List Token} (h : ∀ t ∈ tokens, t.Meaningful) :
    ∀ entry ∈ (ofTokens tokens).entries, ∃ t, entry.result = .ok t ∧ t.Meaningful := by
  intro entry hentry
  obtain ⟨t, ht, rfl⟩ := List.mem_map.mp hentry
  exact ⟨t, rfl, h t ht⟩

/-- The group is a sentence. A parenthesis behind it that closes nothing is noticed only after all
that stands before it has been reduced, and the letter behind the parenthesis is not pulled. -/
theorem parse_recognizes_strayParen :
    let group := Script.ofTokens (groupThen [])
    let stray := Script.ofTokens (groupThen [⟨.closeParen, none, 3⟩,
      ⟨.letters, some (.ofChars ['b']), 4⟩])
    ((∃ a, (parse (Script.source id) 100 group).1 = .ok a) ∧
      Sentence [.openParen, .letters, .closeParen]) ∧
    (parse (Script.source id) 100 stray).1 = .error (.unexpected 3 .closeParen) ∧
      (parse (Script.source id).watched 100 (stray, {})).2.2.pulls =
        (groupThen [⟨.closeParen, none, 3⟩]).map .ok ∧
      Viable [.openParen, .letters, .closeParen] ∧
      ¬ CanFollow [.openParen, .letters, .closeParen] .closeParen := by
  intro group stray
  obtain ⟨a, ha, -⟩ : ∃ a, (parse (Script.source id) 100 group).1 = .ok a ∧ a.size = 4 :=
    exists_ok_of_parseWithin (n := 40) Automaton.size (by decide +kernel)
  have herror : (parse (Script.source id) 100 stray).1 = .error (.unexpected 3 .closeParen) :=
    apply_parse_of_parseWithin (n := 40) Prod.fst (by decide +kernel)
  have hgroup : (parse (Script.source id).watched 100 (group, {})).2.2.pulls =
      (groupThen [⟨.eof, none, 3⟩]).map .ok :=
    apply_parse_of_parseWithin (n := 40) (fun x : _ × Script × Record => x.2.2.pulls)
      (by decide +kernel)
  have hstray : (parse (Script.source id).watched 100 (stray, {})).2.2.pulls =
      (groupThen [⟨.closeParen, none, 3⟩]).map .ok :=
    apply_parse_of_parseWithin (n := 40) (fun x : _ × Script × Record => x.2.2.pulls)
      (by decide +kernel)
  have htokens {ts us : List Token} (h : ts.map (Except.ok : _ → Except LexError _) = us.map .ok) :
      ts = us := List.map_inj_right (fun _ _ => Except.ok.inj) |>.mp h
  have hfits : (parse (Script.source id) 100 group).1 ≠ .error (.tooLarge 100) := by simp [ha]
  have hfits' : (parse (Script.source id) 100 stray).1 ≠ .error (.tooLarge 100) := by simp [herror]
  refine ⟨⟨⟨a, ha⟩, ?_⟩, herror, hstray, ?_⟩
  · have hmeaningful : ∀ entry ∈ group.entries, ∃ t, entry.result = .ok t ∧ t.Meaningful :=
      Script.meaningful_ofTokens (meaningful_groupThen (by simp))
    obtain ⟨record, ts, t, hwatched, hrecord, -, -, -, -, hsentence⟩ :=
      parse_recognizes Script.honest hmeaningful hfits
    rw [hwatched] at hgroup
    have hread := htokens (hrecord.symm.trans hgroup)
    refine (hsentence _ (by decide) ?_).mp ⟨a, ha⟩
    rw [hread]
    exact List.prefix_rfl
  · have hmeaningful : ∀ entry ∈ stray.entries, ∃ t, entry.result = .ok t ∧ t.Meaningful := by
      refine Script.meaningful_ofTokens (meaningful_groupThen ?_)
      rintro t (_ | ⟨_, _ | ⟨_, ⟨⟩⟩⟩)
      · trivial
      · exact ⟨_, rfl, trivial⟩
    obtain ⟨record, ts, t, hwatched, hrecord, -, hviable, haccepts, -, -⟩ :=
      parse_recognizes Script.honest hmeaningful hfits'
    rw [hwatched] at hstray
    have hread := htokens (hrecord.symm.trans hstray)
    obtain ⟨rfl, rfl⟩ : ts = groupThen [] ∧ t = ⟨.closeParen, none, 3⟩ :=
      List.append_singleton_inj.mp hread
    refine ⟨hviable, fun hfollow => ?_⟩
    obtain ⟨-, a, hok⟩ := haccepts hfollow
    rw [herror] at hok
    cases hok

end PatternAutomata
