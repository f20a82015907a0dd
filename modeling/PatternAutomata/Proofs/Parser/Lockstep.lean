import PatternAutomata.Parser.Run
import PatternAutomata.Proofs.Automaton.Refusal

/-!
# Two parsers side by side

Two parsers over two sources that give the same answers make the same moves. The first one may have
less room: up to its first refusal there is no difference, and a larger limit changes nothing else.
-/
namespace PatternAutomata

variable {σ τ α ε : Type}

/-! ## Outcomes -/

/-- Two outcomes with the states behind them: the first one is a refusal, or both are the same. -/
inductive Together (refused : ε → Prop) (after : σ → τ → Prop) :
    Except ε α × σ → Except ε α × τ → Prop
  | refused {err : ε} (h : refused err) (s : σ) (y : Except ε α × τ) :
    Together refused after (.error err, s) y
  | same (result : Except ε α) {s : σ} {s' : τ} (h : after s s') :
    Together refused after (result, s) (result, s')

theorem SameUnless.together {refused : ε → Prop} {after : σ → τ → Prop} {x y : Except ε α}
    (h : SameUnless refused x y) {s : σ} {s' : τ} (hs : after s s') :
    Together refused after (x, s) (y, s') := by
  rcases h with ⟨err, rfl, herr⟩ | rfl
  · exact .refused herr s _
  · exact .same y hs

/-- What two moves lead to: the first one ends in a refusal, or both lead to the same. -/
inductive Progress.Together (refused : Error → Prop) (after : σ → τ → Prop) :
    Progress σ → Progress τ → Prop
  | refused {err : Error} (h : refused err) (s : σ) (y : Progress τ) :
    Together refused after (.finished (.error err) s) y
  | finished (result : Except Error Automaton) {s : σ} {s' : τ} (h : after s s') :
    Together refused after (.finished result s) (.finished result s')
  | running (token : Token) (stack : List Slot) {s : σ} {s' : τ} (h : after s s') :
    Together refused after (.running ⟨token, stack, s⟩) (.running ⟨token, stack, s'⟩)

/-- Whether the second source, at its state, answers as the first one does, unless that refuses to
hand out a token. `after` holds of the states that the two are in, now and after one request. -/
structure TokenSource.Echoes (source : TokenSource σ) (source' : TokenSource τ)
    (refused : Error → Prop) (after : σ → τ → Prop) (s : σ) (s' : τ) : Prop where
  now : after s s'
  encoding : source'.encoding s' = source.encoding s
  next : Together (fun err => refused (.lexical err)) after (source.next s) (source'.next s')
  onAtom : ∀ a, (source'.onAtom a s').1 = (source.onAtom a s).1 ∧
    after (source.onAtom a s).2 (source'.onAtom a s').2

/-! ## Room -/

/-- Whether an error says that there is no room for more than `limit` states. -/
def Error.Spends (limit : Nat) (err : Error) : Prop := err = .tooLarge limit

variable {limit limit' : Nat} {refused : Error → Prop}

theorem SameUnless.ofBuild {x y : Except BuildError α}
    (h : SameUnless (BuildError.Spends limit) x y) :
    SameUnless (Error.Spends limit) (x.mapError .ofBuild) (y.mapError .ofBuild) :=
  h.mapError Error.ofBuild fun err herr => by
    rw [show err = .tooManyStates limit from herr]
    rfl

theorem guardSize_raise (h : limit ≤ limit') (states : Nat) :
    SameUnless (Error.Spends limit) (guardSize limit states) (guardSize limit' states) :=
  .exceed Error.tooLarge h (by rfl) states _

theorem guardOperand_raise (h : limit ≤ limit') (v : Operand) :
    SameUnless (Error.Spends limit) (guardOperand limit v) (guardOperand limit' v) := by
  cases v with
  | term t => exact .refl _ _
  | automaton a => exact .exceed Error.tooLarge h (by rfl) a.size _

theorem repeatOperand_raise (h : limit ≤ limit') (e : Encoding) (item count : Operand) :
    SameUnless (Error.Spends limit) (repeatOperand limit e item count)
      (repeatOperand limit' e item count) :=
  (SameUnless.refl _ _).bind fun _ _ => (SameUnless.refl _ _).bind fun _ _ =>
    (guardSize_raise h _).bind fun _ _ => .refl _ _

/-- The limit matters to three rules. -/
theorem combine_raise (h : limit ≤ limit') (e : Encoding) (rule : Rule)
    (vs : List (Option Operand)) :
    SameUnless (Error.Spends limit) (combine limit e rule vs) (combine limit' e rule vs) := by
  unfold combine
  split
  case h_12 =>
    exact (SameUnless.refl _ _).bind fun _ _ => (SameUnless.refl _ _).bind fun _ _ =>
      (SameUnless.refl _ _).bind fun _ _ => (SameUnless.refl _ _).bind fun _ _ =>
        (Automaton.intersectUpTo_raise h _ _).ofBuild.bind fun _ _ => .refl _ _
  case h_13 =>
    exact (SameUnless.refl _ _).bind fun _ _ => (SameUnless.refl _ _).bind fun _ _ =>
      (Automaton.complementUpTo_raise h _).ofBuild.bind fun _ _ => .refl _ _
  case h_15 =>
    exact (SameUnless.refl _ _).bind fun _ _ => (SameUnless.refl _ _).bind fun _ _ =>
      (repeatOperand_raise h _ _ _).bind fun _ _ => .refl _ _
  all_goals exact .refl _ _

/-- Whether the second limit does without a refusal of the first one, or is the same. -/
def Looser (refused : Error → Prop) (limit limit' : Nat) : Prop :=
  limit' = limit ∨ limit ≤ limit' ∧ refused (.tooLarge limit)

namespace Looser

theorem refl (refused : Error → Prop) (limit : Nat) : Looser refused limit limit := .inl rfl

theorem sameUnless (h : Looser refused limit limit') (f : Nat → Except Error α)
    (hf : limit ≤ limit' → SameUnless (Error.Spends limit) (f limit) (f limit')) :
    SameUnless refused (f limit) (f limit') := by
  rcases h with rfl | ⟨hle, hrefused⟩
  · exact .refl _ _
  · rcases hf hle with ⟨err, hfirst, herr⟩ | hsame
    · exact .inl ⟨err, hfirst, by rwa [show err = .tooLarge limit from herr]⟩
    · exact .inr hsame

theorem combine (h : Looser refused limit limit') (e : Encoding) (rule : Rule)
    (vs : List (Option Operand)) :
    SameUnless refused (combine limit e rule vs) (combine limit' e rule vs) :=
  h.sameUnless (PatternAutomata.combine · e rule vs) fun hle => combine_raise hle e rule vs

theorem guardOperand (h : Looser refused limit limit') (v : Operand) :
    SameUnless refused (guardOperand limit v) (guardOperand limit' v) :=
  h.sameUnless (PatternAutomata.guardOperand · v) fun hle => guardOperand_raise hle v

end Looser

/-! ## Moves -/

section
variable {source : TokenSource σ} {source' : TokenSource τ} {after : σ → τ → Prop} {s : σ} {s' : τ}

theorem TokenSource.Echoes.announce (h : source.Echoes source' refused after s s') (rule : Rule)
    (v : Operand) :
    (announce source' rule v s').1 = (announce source rule v s).1 ∧
      after (announce source rule v s).2 (announce source' rule v s').2 := by
  unfold PatternAutomata.announce
  split
  · next a =>
    split
    · exact ⟨congrArg Operand.automaton (h.onAtom a).1, (h.onAtom a).2⟩
    · exact ⟨rfl, h.now⟩
  · exact ⟨rfl, h.now⟩

theorem reduce_together (h : source.Echoes source' refused after s s')
    (hlimit : Looser refused limit limit') (rule : Rule) (stack : List Slot) :
    Together refused after (reduce source limit rule stack s)
      (reduce source' limit' rule stack s') := by
  simp only [reduce, h.encoding]
  cases (popValues rule.arity stack []).2 with
  | nil => exact .same _ h.now
  | cons top below =>
    dsimp only
    rcases hlimit.combine (source.encoding s) rule (popValues rule.arity stack []).1
      with ⟨err, hv, herr⟩ | hv
    · rw [hv]
      exact .refused herr _ _
    · rw [hv]
      cases combine limit (source.encoding s) rule (popValues rule.arity stack []).1 with
      | error err => exact .same _ h.now
      | ok v =>
        obtain ⟨hsame, hafter⟩ := h.announce rule v
        dsimp only
        rw [hsame]
        rcases hlimit.guardOperand (announce source rule v s).1 with ⟨err, hguard, herr⟩ | hguard
        · rw [hguard]
          exact .refused herr _ _
        · rw [hguard]
          cases guardOperand limit (announce source rule v s).1 with
          | error err => exact .same _ hafter
          | ok v =>
            dsimp only
            cases goto top.place rule.symbol <;> exact .same _ hafter

/-- The two parsers make the same move. -/
theorem step_together (h : source.Echoes source' refused after s s')
    (hlimit : Looser refused limit limit') (token : Token) (stack : List Slot) :
    Progress.Together refused after (step source limit ⟨token, stack, s⟩)
      (step source' limit' ⟨token, stack, s'⟩) := by
  cases stack with
  | nil => exact .finished _ h.now
  | cons top below =>
    simp only [step]
    cases action top.place token.terminal with
    | shift q =>
      dsimp only
      have hnext := h.next
      generalize source.next s = x at hnext ⊢
      generalize source'.next s' = y at hnext ⊢
      cases hnext with
      | refused herr => exact .refused herr _ _
      | same result hafter =>
        cases result with
        | error err => exact .finished _ hafter
        | ok next => exact .running _ _ hafter
    | reduce rule =>
      dsimp only
      have hreduce := reduce_together h hlimit rule (top :: below)
      generalize reduce source limit rule (top :: below) s = x at hreduce ⊢
      generalize reduce source' limit' rule (top :: below) s' = y at hreduce ⊢
      cases hreduce with
      | refused herr => exact .refused herr _ _
      | same result hafter =>
        cases result with
        | error err => exact .finished _ hafter
        | ok stack => exact .running _ _ hafter
    | accept =>
      simp only [h.encoding]
      exact .finished _ h.now
    | reject => exact .finished _ h.now

end

/-! ## Runs -/

theorem runFrom_finished {source : TokenSource σ} {c : Configuration σ}
    {result : Except Error Automaton} {s : σ} (h : step source limit c = .finished result s) :
    runFrom source limit c = (result, s) := by
  rw [runFrom]
  split
  · next h' =>
    obtain ⟨rfl, rfl⟩ := Progress.finished.inj (h.symm.trans h')
    rfl
  · next h' => simp [h] at h'

theorem runFrom_running {source : TokenSource σ} {c c' : Configuration σ}
    (h : step source limit c = .running c') :
    runFrom source limit c = runFrom source limit c' := by
  rw [runFrom]
  split
  · next h' => simp [h] at h'
  · next h' =>
    obtain rfl := Progress.running.inj (h.symm.trans h')
    rfl

section
variable {source : TokenSource σ} {source' : TokenSource τ} {after : σ → τ → Prop}

theorem runFrom_together
    (h : ∀ s s', after s s' → source.Echoes source' refused after s s')
    (hlimit : Looser refused limit limit') (c : Configuration σ) {s' : τ}
    (hs : after c.state s') :
    Together refused after (runFrom source limit c)
      (runFrom source' limit' ⟨c.token, c.stack, s'⟩) := by
  induction c using runFrom.induct source limit generalizing s' with
  | case1 c result s hstep =>
    have hmove := step_together (h _ _ hs) hlimit c.token c.stack
    rw [runFrom_finished hstep]
    rw [hstep] at hmove
    generalize hstep' : step source' limit' ⟨c.token, c.stack, s'⟩ = y at hmove
    cases hmove with
    | refused herr => exact .refused herr _ _
    | finished result hafter =>
      rw [runFrom_finished hstep']
      exact .same _ hafter
  | case2 c c' hstep ih =>
    have hmove := step_together (h _ _ hs) hlimit c.token c.stack
    rw [runFrom_running hstep]
    rw [hstep] at hmove
    generalize hstep' : step source' limit' ⟨c.token, c.stack, s'⟩ = y at hmove
    cases hmove with
    | running token stack hafter =>
      rw [runFrom_running hstep']
      exact ih hafter

/-- Two parsers over sources that keep answering in the same way end in the same way. -/
theorem parse_together
    (h : ∀ s s', after s s' → source.Echoes source' refused after s s')
    (hlimit : Looser refused limit limit') {s : σ} {s' : τ} (hs : after s s') :
    Together refused after (parse source limit s) (parse source' limit' s') := by
  unfold parse
  have hnext := (h _ _ hs).next
  generalize source.next s = x at hnext ⊢
  generalize source'.next s' = y at hnext ⊢
  cases hnext with
  | refused herr => exact .refused herr _ _
  | same result hafter =>
    cases result with
    | error err => exact .same _ hafter
    | ok token => exact runFrom_together h hlimit ⟨token, [⟨.start, none⟩], _⟩ hafter

end

end PatternAutomata
