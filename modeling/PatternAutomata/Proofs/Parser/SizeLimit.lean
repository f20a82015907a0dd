import PatternAutomata.Proofs.Parser.Recognition

/-!
# The size limit

No automaton on the stack has more states than allowed, whatever the tokens are and whatever the
source puts in the place of the atoms shown to it. What a parse returns was on the stack.
-/
namespace PatternAutomata

variable {σ : Type} {source : TokenSource σ} {limit : Nat}

theorem guardOperand_eq_ok {v w : Operand} (h : guardOperand limit v = .ok w) :
    w = v ∧ ∀ a, v = .automaton a → a.size ≤ limit := by
  cases v with
  | term t =>
    obtain rfl := Except.ok.inj h
    exact ⟨rfl, nofun⟩
  | automaton a =>
    simp only [guardOperand] at h
    by_cases hlarge : limit < a.size
    · simp [hlarge] at h
    · rw [if_neg hlarge] at h
      obtain rfl := Except.ok.inj h
      refine ⟨rfl, fun b hb => ?_⟩
      obtain rfl := Operand.automaton.inj hb
      exact Nat.le_of_not_lt hlarge

/-- What a successful reduction does. -/
theorem reduce_ok {rule : Rule} {stack stack' : List Slot} {s s' : σ}
    (h : reduce source limit rule stack s = (.ok stack', s')) :
    ∃ v slot below place,
      combine limit (source.encoding s) rule ((values stack).take rule.arity).reverse = .ok v ∧
      guardOperand limit (announce source rule v s).1 = .ok (announce source rule v s).1 ∧
      stack.drop rule.arity = slot :: below ∧ goto slot.place rule.symbol = some place ∧
      stack' = ⟨place, some (announce source rule v s).1⟩ :: slot :: below := by
  simp only [reduce, popValues_eq, List.append_nil] at h
  split at h
  · simp at h
  · next slot below hdrop =>
    split at h
    · simp at h
    · next v hv =>
      split at h
      · simp at h
      · next w hw =>
        obtain rfl := (guardOperand_eq_ok hw).1
        split at h
        · simp at h
        · next place hplace =>
          obtain ⟨hstack, -⟩ := Prod.mk.inj h
          exact ⟨v, slot, below, place, hv, hw, hdrop, hplace, (Except.ok.inj hstack).symm⟩

/-- What holds of every slot on the stack. Behind the whole pattern there is an automaton already,
so that nothing is left to be built when the parse ends. -/
structure Slot.Held (limit : Nat) (slot : Slot) : Prop where
  size_le : ∀ a, slot.value = some (.automaton a) → a.size ≤ limit
  built : slot.place = .finished → ∃ a, slot.value = some (.automaton a)

theorem held_start (limit : Nat) : Slot.Held limit ⟨.start, none⟩ := ⟨nofun, nofun⟩

theorem held_shift {p q : Place} {token : Token} (h : action p token.terminal = .shift q) :
    Slot.Held limit ⟨q, token.term.map .term⟩ where
  size_le a ha := by
    cases hterm : token.term <;> simp [hterm] at ha
  built hq := by
    obtain rfl : q = token.terminal.place := (of_shift h).1
    cases hkind : token.terminal <;> simp [hkind, Terminal.place] at hq

/-- The rule for a whole pattern builds its automaton. -/
theorem built_of_symbol (source : TokenSource σ) {e : Encoding} {rule : Rule}
    {vs : List (Option Operand)} {v : Operand} (hsymbol : rule.symbol = .pattern)
    (h : combine limit e rule vs = .ok v) (s : σ) :
    ∃ a, (announce source rule v s).1 = .automaton a := by
  obtain rfl : rule = .pattern := by cases rule <;> simp [Rule.symbol] at hsymbol ⊢
  rcases vs with _ | ⟨w, _ | ⟨_, _⟩⟩
  · cases h
  · cases hw : needed w with
    | error err => simp [combine, hw, error_bind] at h
    | ok w =>
      cases ha : w.toAutomaton e with
      | error err =>
        simp only [combine, hw, ok_bind, ha] at h
        cases h
      | ok a =>
        simp only [combine, hw, ok_bind, ha] at h
        obtain rfl := Except.ok.inj h
        exact ⟨a, rfl⟩
  · cases h

theorem held_reduce {rule : Rule} {stack stack' : List Slot} {s s' : σ}
    (hstack : ∀ slot ∈ stack, slot.Held limit)
    (h : reduce source limit rule stack s = (.ok stack', s')) :
    ∀ slot ∈ stack', slot.Held limit := by
  obtain ⟨v, below, rest, place, hv, hguard, hdrop, hgoto, rfl⟩ := reduce_ok h
  rintro slot (_ | ⟨_, hslot⟩)
  · constructor
    · intro a ha
      exact (guardOperand_eq_ok hguard).2 a (Option.some.inj ha)
    · intro hplace
      have hvia := via_of_goto hgoto
      rw [show place = .finished from hplace] at hvia
      obtain ⟨a, ha⟩ := built_of_symbol source (Sum.inr.inj hvia.symm) hv s
      exact ⟨a, congrArg some ha⟩
  · exact hstack slot (List.mem_of_mem_drop (hdrop ▸ hslot))

/-- A move keeps to the limit. -/
theorem held_step {c c' : Configuration σ} (hc : ∀ slot ∈ c.stack, slot.Held limit)
    (h : step source limit c = .running c') : ∀ slot ∈ c'.stack, slot.Held limit := by
  obtain ⟨token, _ | ⟨top, below⟩, s⟩ := c
  · cases h
  · simp only [step] at h
    cases ha : action top.place token.terminal with
    | shift place =>
      simp only [ha] at h
      split at h
      · cases h
      · obtain rfl := Progress.running.inj h
        rintro slot (_ | ⟨_, hslot⟩)
        · exact held_shift ha
        · exact hc slot hslot
    | reduce rule =>
      simp only [ha] at h
      split at h
      · cases h
      · next hreduce =>
        obtain rfl := Progress.running.inj h
        exact held_reduce hc hreduce
    | accept => simp [ha] at h
    | reject => simp [ha] at h

/-- Only what is on the stack is returned. -/
theorem size_le_of_finished {c : Configuration σ} {a : Automaton} {s' : σ}
    (hc : ∀ slot ∈ c.stack, slot.Held limit)
    (h : step source limit c = .finished (.ok a) s') : a.size ≤ limit := by
  obtain ⟨token, _ | ⟨top, below⟩, s⟩ := c
  · cases h
  · simp only [step] at h
    cases ha : action top.place token.terminal with
    | shift place =>
      simp only [ha] at h
      split at h <;> cases h
    | reduce rule =>
      simp only [ha] at h
      split at h <;> cases h
    | reject => simp [ha] at h
    | accept =>
      have htop := hc top (.head _)
      obtain ⟨b, hb⟩ := htop.built (of_accept ha).1
      simp only [ha, hb, needed] at h
      obtain ⟨hresult, -⟩ := Progress.finished.inj h
      obtain rfl : b = a := Except.ok.inj hresult
      exact htop.size_le b hb

namespace TokenStream
variable {stream : TokenStream σ} {s₀ : σ}

theorem Moment.held {c : Configuration σ} (h : stream.Moment limit s₀ c) :
    ∀ slot ∈ c.stack, slot.Held limit := by
  refine Moment.invariant (P := fun c => ∀ slot ∈ c.stack, slot.Held limit) ?_ ?_ h
  · intro token s _ slot hslot
    obtain rfl := List.mem_singleton.mp hslot
    exact held_start limit
  · intro c c' hc hmove
    obtain ⟨n, hstep⟩ := move_running hmove
    exact held_step (c := ⟨c.token, c.stack, (c.state, 1)⟩) hc hstep

theorem Returns.size_le {a : Automaton} {s : σ} (h : stream.Returns limit s₀ (.ok a) s) :
    a.size ≤ limit := by
  cases h with
  | finished before hmove =>
    obtain ⟨n, hstep⟩ := move_finished hmove
    exact size_le_of_finished (c := ⟨_, _, (_, 1)⟩) before.held hstep

end TokenStream

/-- At every moment of a parse, each automaton on the stack keeps to the limit, and so does the
automaton that a parse returns. The tokens, the changes of the encoding and what the source makes of
the atoms shown to it are arbitrary, and the tokens need not end. -/
theorem parse_size_le (stream : TokenStream σ) (limit : Nat) (s : σ) :
    (∀ c, stream.Moment limit s c → ∀ slot ∈ c.stack, ∀ a,
      slot.value = some (.automaton a) → a.size ≤ limit) ∧
    (∀ a s', stream.Returns limit s (.ok a) s' → a.size ≤ limit) ∧
    ∀ source : TokenSource σ, source.stream = stream → ∀ a,
      (parse source limit s).1 = .ok a → a.size ≤ limit := by
  refine ⟨fun c hc slot hslot => (hc.held slot hslot).size_le, fun a s' h => h.size_le, ?_⟩
  rintro source rfl a ha
  have hreturns := TokenStream.returns_parse source limit s
  rw [ha] at hreturns
  exact hreturns.size_le

/-- The source puts one more state into every atom. Four states lie on the stack for a group, and
seven are returned, as many as allowed. Where three are allowed, the group is refused for the state
that it gets from the source. -/
theorem parse_size_le_grownGroup :
    let source := Script.source Automaton.newState
    let s := Script.ofTokens (groupThen [⟨.letters, some (.ofChars ['b']), 3⟩])
    (∃ c, source.stream.Moment 7 s c ∧ ∃ slot ∈ c.stack, ∃ a,
      slot.value = some (.automaton a) ∧ a.size = 4 ∧ a.size ≤ 7) ∧
    (∃ a, (parse source 7 s).1 = .ok a ∧ a.size = 7 ∧ a.size ≤ 7) ∧
    (parse source 3 s).1 = .error (.tooLarge 3) := by
  intro source s
  obtain ⟨hstack, -, hresult⟩ := parse_size_le source.stream 7 s
  have hfirst : source.stream.Moment 7 s ⟨⟨.openParen, none, 0⟩, [⟨.start, none⟩], s.next.2⟩ :=
    .first rfl
  obtain ⟨c, hc, hvalues⟩ := hfirst.exists_of_moves (n := 12) (fun c => c.stack.map (·.value))
    (y := [some (.automaton (Automaton.emptyText.appendTexts {['a']} .utf8).newState),
      some (.automaton .emptyText), none]) (by decide +kernel)
  obtain ⟨slot, hslot, hvalue⟩ := List.mem_map.mp (hvalues ▸ List.mem_cons_self)
  obtain ⟨a, ha, hsize⟩ : ∃ a, (parse source 7 s).1 = .ok a ∧ a.size = 7 :=
    exists_ok_of_parseWithin (n := 30) Automaton.size (by decide +kernel)
  have hrefused : (parse source 3 s).1 = .error (.tooLarge 3) :=
    apply_parse_of_parseWithin (n := 30) Prod.fst (by decide +kernel)
  exact ⟨⟨c, hc, slot, hslot, _, hvalue, by decide +kernel, hstack c hc slot hslot _ hvalue⟩,
    ⟨a, ha, hsize, hresult source rfl a ha⟩, hrefused⟩

end PatternAutomata
