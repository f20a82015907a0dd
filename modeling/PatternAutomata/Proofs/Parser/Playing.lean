import PatternAutomata.Proofs.Parser.Moves

/-!
# Parsing a sentence

A source that hands out the tokens of a sentence leads the parser along the moves of its derivation
tree. What comes out is the value of the tree, or the error that its evaluation stops at, and the
source is shown the atoms in the order in which the evaluation completes them.
-/
namespace PatternAutomata

variable {σ η : Type}

/-- `source` hands out given tokens in an encoding that does not change, and acts on atoms as `hook`
does. `shows` tells the tokens to come and the state of the hook from the state of the source. -/
structure TokenSource.Plays (source : TokenSource σ) (e : Encoding) (hook : Hook η)
    (shows : σ → List Token → η → Prop) : Prop where
  encoding : ∀ s ts h, shows s ts h → source.encoding s = e
  next : ∀ s t ts h, shows s (t :: ts) h → ∃ s', source.next s = (.ok t, s') ∧ shows s' ts h
  onAtom : ∀ a s ts h, shows s ts h →
    (source.onAtom a s).1 = (hook a h).1 ∧ shows (source.onAtom a s).2 ts (hook a h).2

/-- A hook that keeps a list of the atoms shown to it. -/
def Hook.logged (hook : Hook η) : Hook (η × List Automaton) :=
  fun a h => ((hook a h.1).1, (hook a h.1).2, h.2 ++ [a])

namespace TokenSource.Plays
variable {source : TokenSource σ} {e : Encoding} {hook : Hook η} {shows : σ → List Token → η → Prop}

/-- The record of a watched source is the list that the logged hook keeps. -/
theorem watched (plays : source.Plays e hook shows) : source.watched.Plays e hook.logged
    (fun s ts h => shows s.1 ts h.1 ∧ s.2.atoms = h.2) where
  encoding s ts h hs := plays.encoding s.1 ts h.1 hs.1
  next s t ts h hs := by
    obtain ⟨s', hnext, hs'⟩ := plays.next s.1 t ts h.1 hs.1
    refine ⟨(s', { s.2 with pulls := s.2.pulls ++ [.ok t] }), ?_, hs', hs.2⟩
    simp only [TokenSource.watched, hnext]
  onAtom a s ts h hs := by
    obtain ⟨ha, hs'⟩ := plays.onAtom a s.1 ts h.1 hs.1
    exact ⟨ha, hs', congrArg (· ++ [a]) hs.2⟩

theorem settle_eq (plays : source.Plays e hook shows) (limit : Nat) {s : σ} {ts : List Token}
    {h : η} (hs : shows s ts h) (rule : Rule) (vs : List (Option Operand)) :
    ((settle limit e source.onAtom rule vs).run s).1 = ((settle limit e hook rule vs).run h).1 ∧
      shows ((settle limit e source.onAtom rule vs).run s).2 ts
        ((settle limit e hook rule vs).run h).2 := by
  simp only [settle]
  cases combine limit e rule vs with
  | error => exact ⟨rfl, hs⟩
  | ok v =>
    simp only [Eval.lift_ok_bind]
    cases v with
    | term => exact ⟨rfl, hs⟩
    | automaton a =>
      simp only [announced]
      cases rule.completesAtom with
      | false =>
        simp only [Bool.false_eq_true, if_false, pure_bind, Eval.run_lift]
        exact ⟨trivial, hs⟩
      | true =>
        obtain ⟨ha, hs'⟩ := plays.onAtom a s ts h hs
        simp only [if_true, Eval.run_bind, Eval.run_tell, Eval.run_pure, Eval.run_lift, ha]
        exact ⟨trivial, hs'⟩

/-- Where moves lead that the table prescribes: the parser does what they do to the values, or stops
with the error that they stop with. -/
theorem runFrom_of_traces (plays : source.Plays e hook shows) (limit : Nat) {ps ps' : List Place}
    {ks ks' : List Terminal} {ms : List Move} (htraces : Traces ps ks ms ps' ks') (hne : ks' ≠ [])
    (stack : List Slot) {token : Token} {rest : List Token} {s : σ} {h : η}
    (hps : places stack = ps) (hks : (token :: rest).map (·.terminal) = ks) (hs : shows s rest h) :
    match (exec limit e hook ms (token :: rest) (values stack)).run h with
    | (.error err, h') =>
      ∃ s' rest', runFrom source limit ⟨token, stack, s⟩ = (.error err, s') ∧ shows s' rest' h'
    | (.ok (ts, vs), h') => ∃ token' rest' stack' s', ts = token' :: rest' ∧ places stack' = ps' ∧
      values stack' = vs ∧ shows s' rest' h' ∧
        runFrom source limit ⟨token, stack, s⟩ = runFrom source limit ⟨token', stack', s'⟩ := by
  induction htraces generalizing token rest stack s h with
  | done ps ts => exact ⟨token, rest, stack, s, rfl, hps, rfl, hs, rfl⟩
  | @read p q t ps ps' ts ts' ms ha htraces ih =>
    obtain ⟨rfl, rfl⟩ := List.cons.inj hks
    obtain ⟨slot, below, rfl, rfl, rfl⟩ := List.map_eq_cons_iff.mp hps
    cases rest with
    | nil =>
      cases htraces
      exact absurd rfl hne
    | cons next rest =>
      obtain ⟨s', hnext, hs'⟩ := plays.next s next rest h hs
      have hstep := step_shift source limit below s ha
      rw [hnext] at hstep
      rw [runFrom_running hstep, exec_read]
      exact ih hne _ (places_cons ⟨q, _⟩ (slot :: below)) rfl hs'
  | @reduce p p' q t rule ps below ps' ts ts' ms ha hdrop hgoto htraces ih =>
    obtain ⟨rfl, rfl⟩ := List.cons.inj hks
    rw [← hps] at hdrop
    obtain ⟨slot', below', hdrop', rfl, rfl⟩ := drop_of_places hdrop
    obtain ⟨slot, slots, rfl, rfl, rfl⟩ := List.map_eq_cons_iff.mp hps
    have hstep := step_reduce source limit slots s ha hdrop' hgoto
    obtain ⟨hresult, hs'⟩ := plays.settle_eq limit hs rule
      ((values (slot :: slots)).take rule.arity).reverse
    rw [plays.encoding s rest h hs] at hstep
    rw [exec_reduce, Eval.run_bind]
    generalize (settle limit e source.onAtom rule
      ((values (slot :: slots)).take rule.arity).reverse).run s = x at hstep hresult hs'
    generalize (settle limit e hook rule
      ((values (slot :: slots)).take rule.arity).reverse).run h = y at hresult hs' ⊢
    obtain ⟨result, s'⟩ := x
    obtain ⟨_, h'⟩ := y
    dsimp only at hresult hs'
    subst hresult
    cases result with
    | error err => exact ⟨s', rest, runFrom_finished hstep, hs'⟩
    | ok v =>
      rw [runFrom_running hstep, drop_values hdrop']
      exact ih hne _ (places_cons ⟨q, _⟩ (slot' :: below')) rfl hs'

/-- The parse of a sentence evaluates its tree, and leaves the source as the evaluation leaves the
hook. -/
theorem parse_eq (plays : source.Plays e hook shows) (tree : Tree .pattern) {last : Token}
    (hlast : last.terminal = .eof) {s : σ} {h : η} (hs : shows s (tree.tokens ++ [last]) h)
    (limit : Nat) :
    (parse source limit s).1 = ((tree.result limit e hook).run h).1 ∧
      ∃ rest, shows (parse source limit s).2 rest ((tree.result limit e hook).run h).2 := by
  obtain ⟨token, rest, htokens⟩ := List.exists_cons_of_ne_nil
    (List.append_ne_nil_of_right_ne_nil tree.tokens (List.cons_ne_nil last []))
  rw [htokens] at hs
  obtain ⟨s', hnext, hs'⟩ := plays.next s token rest h hs
  have hkinds : (token :: rest).map (·.terminal) = tree.kinds ++ [.eof] := by
    rw [← htokens, List.map_append, List.map_singleton, hlast, Tree.kinds]
  have hrun := plays.runFrom_of_traces limit tree.traces_whole (List.cons_ne_nil _ _)
    [⟨.start, none⟩] rfl hkinds hs'
  have hexec := exec_tree limit e hook tree [] [last] [none]
  rw [List.append_nil, htokens] at hexec
  rw [show values [⟨.start, none⟩] = [none] from rfl, hexec, Eval.run_bind] at hrun
  simp only [parse, hnext, Tree.result, Eval.run_bind]
  generalize (tree.evaluate limit e hook).run h = x at hrun ⊢
  rcases x with ⟨err | v, h'⟩
  · obtain ⟨s'', rest', hrun, hs''⟩ := hrun
    rw [hrun]
    exact ⟨rfl, rest', hs''⟩
  · obtain ⟨token', rest', stack', s'', hts, hplaces, hvalues, hs'', hrun⟩ := hrun
    obtain ⟨rfl, rfl⟩ := List.cons.inj hts
    obtain ⟨slot, below, rfl, hslot, -⟩ := List.map_eq_cons_iff.mp hplaces
    have hvalue : slot.value = some v := (List.cons.inj hvalues).1
    have haccept : action slot.place last.terminal = .accept := by
      rw [hslot, hlast]
      rfl
    have hstep := step_accept source limit below s'' haccept
    rw [hvalue, plays.encoding s'' [] h' hs''] at hstep
    rw [hrun, runFrom_finished hstep]
    exact ⟨rfl, [], hs''⟩

end TokenSource.Plays

/-- A script of tokens plays them. -/
theorem Script.plays (replace : Automaton → Automaton) (e : Encoding) :
    (Script.source replace).Plays e (fun a sizes => (replace a, a.size :: sizes))
      (fun s ts sizes => s.encoding = e ∧ s.atomSizes = sizes ∧
        s.entries = ts.map fun t => ⟨.ok t, none⟩) where
  encoding _ _ _ hs := hs.1
  next s t ts sizes hs := by
    obtain ⟨rfl, rfl, hentries⟩ := hs
    refine ⟨{ s with entries := ts.map fun t => ⟨.ok t, none⟩, pulled := s.pulled + 1 }, ?_,
      rfl, rfl, rfl⟩
    simp only [Script.source, Script.next, hentries, List.map_cons, Option.getD_none]
  onAtom _ _ _ _ hs := ⟨rfl, hs.1, congrArg _ hs.2.1, hs.2.2⟩

/-! ## The number of atoms -/

/-- Whether a computation that succeeds shows `n` atoms to the hook. -/
def Eval.Showing {α : Type} (n : Nat) (x : Eval (η × List Automaton) α) : Prop :=
  ∀ h v h', x.run h = (.ok v, h') → h'.2.length = h.2.length + n

section
variable {α β : Type} {m n : Nat} {hook : Hook η} {limit : Nat} {e : Encoding}

theorem Eval.showing_lift (x : Except Error α) :
    Eval.Showing 0 (liftM x : Eval (η × List Automaton) α) := by
  intro h v h' hrun
  rw [Eval.run_lift] at hrun
  rw [← (Prod.mk.inj hrun).2, Nat.add_zero]

theorem Eval.showing_tell (a : Automaton) : Eval.Showing 1 (Eval.tell hook.logged a) := by
  intro h v h' hrun
  rw [Eval.run_tell] at hrun
  rw [← (Prod.mk.inj hrun).2]
  simp [Hook.logged]

theorem Eval.Showing.bind {x : Eval (η × List Automaton) α} {f : α → Eval (η × List Automaton) β}
    (hx : x.Showing m) (hf : ∀ v, (f v).Showing n) : (x >>= f).Showing (m + n) := by
  intro h w h'' hrun
  rw [Eval.run_bind] at hrun
  rcases hv : x.run h with ⟨err | v, h'⟩
  · simp [hv] at hrun
  · simp only [hv] at hrun
    have := hx h v h' hv
    have := hf v h' w h'' hrun
    omega

theorem Eval.Showing.of_eq {x : Eval (η × List Automaton) α} (hx : x.Showing m) (h : m = n) :
    x.Showing n := h ▸ hx

/-- An evaluation shows one atom for each group and one for each count. -/
theorem Tree.showing_evaluate {s : Symbol} (tree : Tree s) :
    (tree.evaluate limit e hook.logged).Showing
      (tree.kinds.count .openParen + tree.kinds.count .count) := by
  induction tree with
  | pattern whole ih =>
    exact ih.bind fun v => (Eval.showing_lift _).bind fun a => Eval.showing_lift _
  | firstAlternative c ih => exact ih.bind fun v => Eval.showing_lift _
  | nextAlternative l bar r ihl ihr =>
    refine (ihl.bind fun l => ihr.bind fun r => (Eval.showing_lift _).bind fun a =>
      (Eval.showing_lift _).bind fun b => Eval.showing_lift _).of_eq ?_
    simp
    omega
  | firstConjunct n ih => exact ih.bind fun v => Eval.showing_lift _
  | nextConjunct l sign r ihl ihr =>
    refine (ihl.bind fun l => ihr.bind fun r => (Eval.showing_lift _).bind fun a =>
      (Eval.showing_lift _).bind fun b => (Eval.showing_lift _).bind fun c =>
        Eval.showing_lift _).of_eq ?_
    simp
    omega
  | plain s ih => exact ih.bind fun v => Eval.showing_lift _
  | negated sign s ih =>
    refine (ih.bind fun v => (Eval.showing_lift _).bind fun a => (Eval.showing_lift _).bind fun b =>
      Eval.showing_lift _).of_eq ?_
    simp
  | emptySequence => exact Eval.showing_lift _
  | nextItem s i ihs ihi =>
    refine (ihs.bind fun v => ihi.bind fun item => (Eval.showing_lift _).bind fun a =>
      (Eval.showing_lift _).bind fun b => Eval.showing_lift _).of_eq ?_
    simp
    omega
  | once a ih => exact ih.bind fun v => Eval.showing_lift _
  | counted a count ih =>
    refine (ih.bind fun item => (Eval.showing_lift _).bind fun count =>
      (Eval.showing_lift _).bind fun repeated => (Eval.showing_tell _).bind fun b =>
        Eval.showing_lift _).of_eq ?_
    simp
    omega
  | single k leaf =>
    refine ((Eval.showing_lift _).bind fun v => Eval.showing_lift _).of_eq ?_
    cases k <;> simp [Single.terminal]
  | group opening inner closing ih =>
    refine (ih.bind fun v => (Eval.showing_lift _).bind fun a => (Eval.showing_tell _).bind fun b =>
      Eval.showing_lift _).of_eq ?_
    simp
    omega

theorem Tree.showing_result (limit : Nat) (e : Encoding) (hook : Hook η) (tree : Tree .pattern) :
    (tree.result limit e hook.logged).Showing
      (tree.kinds.count .openParen + tree.kinds.count .count) :=
  tree.showing_evaluate.bind fun _ => Eval.showing_lift _

end

/-! ## The evaluation of a tree -/

/-- The parser evaluates the derivation tree of its tokens, which has no other. It ends with the
automaton or with the error of the evaluation, and shows its source the atoms that the evaluation
shows to the hook, in the same order. If all goes well these are as many as there are groups and
counts. -/
theorem parse_evaluates {source : TokenSource σ} {e : Encoding} {hook : Hook η}
    {shows : σ → List Token → η → Prop} (plays : source.Plays e hook shows) (tree : Tree .pattern)
    {last : Token} (hlast : last.terminal = .eof) {s : σ} {h : η}
    (hs : shows s (tree.tokens ++ [last]) h) (limit : Nat) :
    (∀ other : Tree .pattern, other.tokens = tree.tokens → other = tree) ∧
      (parse source limit s).1 = ((tree.result limit e hook).run h).1 ∧
      ∃ record, parse source.watched limit (s, {}) =
          ((parse source limit s).1, (parse source limit s).2, record) ∧
        record.atoms = ((tree.result limit e hook.logged).run (h, [])).2.2 ∧
        ∀ a, (parse source limit s).1 = .ok a →
          record.atoms.length = tree.kinds.count .openParen + tree.kinds.count .count := by
  obtain ⟨record, hwatched⟩ := parse_watched source limit s {}
  obtain ⟨hresult, rest, -, hatoms⟩ := plays.watched.parse_eq tree hlast (h := (h, []))
    (s := (s, {})) ⟨hs, rfl⟩ limit
  rw [hwatched] at hresult hatoms
  refine ⟨fun other => Tree.eq_of_tokens, (plays.parse_eq tree hlast hs limit).1, record, hwatched,
    hatoms, ?_⟩
  intro a ha
  have hshowing := tree.showing_result limit e hook (h, []) a
    ((tree.result limit e hook.logged).run (h, [])).2
    (Prod.ext (hresult.symm.trans ha) rfl)
  rw [← hatoms] at hshowing
  simpa using hshowing

/-- The tree of `(.){2,3}`. -/
def repeatedGroup : Tree .pattern :=
  .pattern <| .firstAlternative <| .firstConjunct <| .plain <|
    .nextItem .emptySequence <| .counted
      (.group ⟨⟨.openParen, none, 0⟩, rfl⟩
        (.firstAlternative <| .firstConjunct <| .plain <| .nextItem .emptySequence <| .once <|
          .single .dot ⟨⟨.dot, some .dot, 1⟩, rfl⟩)
        ⟨⟨.closeParen, none, 2⟩, rfl⟩)
      ⟨⟨.count, some (.count 2 (.finite 3)), 3⟩, rfl⟩

/-- A script of its tokens. -/
def repeatedGroupScript : Script where
  entries := (repeatedGroup.tokens ++ [(⟨.eof, none, 8⟩ : Token)]).map fun t => ⟨.ok t, none⟩

theorem parse_evaluates_repeatedGroup :
    let source := Script.source (Automaton.union .emptyText)
    let hook : Hook (List Nat) := fun a sizes => (Automaton.union .emptyText a, a.size :: sizes)
    let s := repeatedGroupScript
    (∀ other : Tree .pattern, other.tokens = repeatedGroup.tokens → other = repeatedGroup) ∧
      (parse source 100 s).1 = ((repeatedGroup.result 100 .utf8 hook).run []).1 ∧
      ∃ record, parse source.watched 100 (s, {}) =
          ((parse source 100 s).1, (parse source 100 s).2, record) ∧
        record.atoms = ((repeatedGroup.result 100 .utf8 hook.logged).run ([], [])).2.2 ∧
        ∀ a, (parse source 100 s).1 = .ok a → record.atoms.length = 2 :=
  parse_evaluates (Script.plays (Automaton.union .emptyText) .utf8) repeatedGroup rfl
    ⟨rfl, rfl, rfl⟩ 100

end PatternAutomata
