import PatternAutomata.Proofs.Parser.Course
import PatternAutomata.Proofs.Parser.Settling
import PatternAutomata.Proofs.Parser.Soundness

/-!
# The encoding that a term gets

The encoding of a source may change with every token pulled. A parse that gets through evaluates the
tree of its tokens, each term in the encoding that was in force when the first token behind the term
and its count had been pulled. What is put in the place of an atom is the source's own affair, so
the evaluation is given the replies of the source.
-/
namespace PatternAutomata

variable {σ η : Type} {limit : Nat}

/-- A hook that gives the replies it holds, one after another. -/
def playback : Hook (List Automaton)
  | a, [] => (a, [])
  | _, reply :: replies => (reply, replies)

/-- A rule shows one atom to the hook, or none, whatever the hook is. -/
theorem settle_cases (limit : Nat) (e : Encoding) (rule : Rule) (vs : List (Option Operand)) :
    (∃ x, ∀ {η : Type} (hook : Hook η) (h : η), (settle limit e hook rule vs).run h = (x, h)) ∨
      ∃ a, ∀ {η : Type} (hook : Hook η) (h : η), (settle limit e hook rule vs).run h =
        (guardOperand limit (.automaton (hook a h).1), (hook a h).2) := by
  unfold settle
  cases combine limit e rule vs with
  | error err => exact .inl ⟨.error err, fun _ _ => rfl⟩
  | ok v =>
    simp only [Eval.lift_ok_bind]
    cases v with
    | term t => exact .inl ⟨.ok (.term t), fun _ _ => rfl⟩
    | automaton a =>
      simp only [announced]
      cases rule.completesAtom with
      | false => exact .inl ⟨guardOperand limit (.automaton a), fun _ _ => rfl⟩
      | true => exact .inr ⟨a, fun _ _ => rfl⟩

namespace Log
variable {log log' : Log} {i : Nat} {e : Encoding}

/-- The encoding in force behind the pull of the `i`-th token. -/
def encoding? (log : Log) (i : Nat) : Option Encoding := (log.pulls[i]?).map (·.encoding)

theorem encoding?_of_append {more : List Pull} (hpulls : log'.pulls = log.pulls ++ more)
    (h : log.encoding? i = some e) : log'.encoding? i = some e := by
  obtain ⟨pull, hpull, rfl⟩ := Option.map_eq_some_iff.mp h
  obtain ⟨hi, -⟩ := List.getElem?_eq_some_iff.mp hpull
  rw [encoding?, hpulls, List.getElem?_append_left hi, hpull]
  rfl

theorem exists_encoding? (h : i < log.pulls.length) : ∃ e, log.encoding? i = some e :=
  ⟨_, by rw [encoding?, List.getElem?_eq_getElem h, Option.map_some]⟩

theorem encoding?_length {pulls : List Pull} {pull : Pull} (h : log.pulls = pulls ++ [pull]) :
    log.encoding? pulls.length = some pull.encoding := by
  rw [encoding?, h, List.getElem?_append_right (Nat.le_refl _), Nat.sub_self]
  rfl

end Log

namespace TokenStream
variable {stream : TokenStream σ} {s₀ s s' : σ}

section
variable {token : Token} {slot slot' : Slot} {below below' : List Slot} {q : Place} {rule : Rule}

theorem move_reduce (s : σ) (h : action slot.place token.terminal = .reduce rule)
    (hdrop : (slot :: below).drop rule.arity = slot' :: below')
    (hgoto : goto slot'.place rule.symbol = some q) :
    stream.move limit ⟨token, slot :: below, s⟩ =
      match (settle limit (stream.encoding s) stream.onAtom rule
        ((values (slot :: below)).take rule.arity).reverse).run s with
      | (.error err, s') => .finished (.error err) s'
      | (.ok v, s') => .running ⟨token, ⟨q, some v⟩ :: slot' :: below', s'⟩ := by
  have hencoding : stream.upTo.encoding (s, 1) = stream.encoding s := rfl
  rw [move, step_reduce stream.upTo limit below (s, 1) h hdrop hgoto, hencoding]
  obtain ⟨x, hx⟩ | ⟨a, ha⟩ := settle_cases limit (stream.encoding s) rule
    ((values (slot :: below)).take rule.arity).reverse
  · rw [hx, hx]
    cases x <;> rfl
  · rw [ha, ha]
    have hsame : (stream.upTo.onAtom a (s, 1)).1 = (stream.onAtom a s).1 := rfl
    rw [hsame]
    cases guardOperand limit (.automaton (stream.onAtom a s).1) <;> rfl

/-- A parse comes to an automaton where the table accepts. -/
theorem move_eq_ok {c : Configuration σ} {a : Automaton}
    (h : stream.move limit c = .finished (.ok a) s') :
    ∃ slot below, c.stack = slot :: below ∧ action slot.place c.token.terminal = .accept ∧
      (needed slot.value).bind (·.toAutomaton (stream.encoding c.state)) = .ok a ∧
        s' = c.state := by
  obtain ⟨token, _ | ⟨slot, below⟩, s⟩ := c
  · cases h
  · cases ha : action slot.place token.terminal with
    | shift q =>
      rw [move_shift stream limit below s ha] at h
      rcases hnext : stream.next s with ⟨err | next, s'⟩ <;> simp [hnext] at h
    | reduce rule =>
      simp only [move, step, ha] at h
      rcases hreduce : reduce stream.upTo limit rule (slot :: below) (s, 1) with
        ⟨err | stack, s'⟩ <;> simp [hreduce] at h
    | accept =>
      rw [move_accept stream limit below s ha] at h
      obtain ⟨hresult, rfl⟩ := Progress.finished.inj h
      exact ⟨slot, below, rfl, ha, hresult, rfl⟩
    | reject =>
      rw [move_reject stream limit below s ha] at h
      cases (Progress.finished.inj h).1

end

section
variable (hkeeps : ∀ a s, stream.encoding (stream.onAtom a s).2 = stream.encoding s)
include hkeeps

/-- What was shown and given back while a rule was settled can be played back. -/
theorem settle_logged {e : Encoding} {rule : Rule} {vs : List (Option Operand)} {log log' : Log}
    {v : Operand}
    (h : (settle limit e stream.logged.onAtom rule vs).run (s, log) = (.ok v, (s', log'))) :
    log'.pulls = log.pulls ∧ stream.encoding s' = stream.encoding s ∧
      ∃ replies, log'.replies = log.replies ++ replies ∧ ∀ more,
        (settle limit e playback.logged rule vs).run (replies ++ more, log.atoms) =
          (.ok v, (more, log'.atoms)) := by
  obtain ⟨x, hx⟩ | ⟨a, ha⟩ := settle_cases limit e rule vs
  · rw [hx] at h
    obtain ⟨rfl, hstate⟩ := Prod.mk.inj h
    obtain ⟨rfl, rfl⟩ := Prod.mk.inj hstate
    exact ⟨rfl, rfl, [], (List.append_nil _).symm, fun more => hx _ _⟩
  · rw [ha] at h
    obtain ⟨hguard, hstate⟩ := Prod.mk.inj h
    obtain ⟨rfl, rfl⟩ := Prod.mk.inj hstate
    refine ⟨rfl, hkeeps a s, [(stream.onAtom a s).1], rfl, fun more => ?_⟩
    rw [ha]
    exact Prod.ext hguard rfl

end

/-! ## Following a parse -/

/-- What holds of a parser that keeps a log and has read `ts`. Whatever is still to be read and to
be given back, the moves so far put the values on the stack that are there. -/
structure Following (stream : TokenStream σ) (limit : Nat) (ms : List Move) (ts : List Token)
    (c : Configuration (σ × Log)) : Prop where
  answered : Answered ms c.state.2 ts (.ok c.token)
  current : c.state.2.encoding? ts.length = some (stream.encoding c.state.1)
  spells : Spells (places c.stack) (kindsOf ts)
  traces : Traces [.start] (kindsOf (ts ++ [c.token])) ms (places c.stack) [c.token.terminal]
  values : ∀ under, (∀ i e, c.state.2.encoding? i = some e → under i = e) → ∀ rest more,
    (execUnder limit under playback.logged ms 0 (ts ++ rest) [none]).run
      (c.state.2.replies ++ more, []) = (.ok (rest, values c.stack), more, c.state.2.atoms)

namespace Following
variable {ts : List Token} {token : Token} {slot : Slot} {below : List Slot} {log : Log}
  {ms : List Move}

theorem first {t : Token} {s : σ × Log} (h : stream.logged.next (s₀, {}) = (.ok t, s)) :
    Following stream limit [] [] ⟨t, [⟨.start, none⟩], s⟩ := by
  have hanswered := Answered.first (pulls_of_next h)
  obtain ⟨-, rfl⟩ := Prod.mk.inj h
  exact ⟨hanswered, rfl, .start, .done _ _, fun under hunder rest more => rfl⟩

theorem read {next : Token} {q : Place} {s' : σ × Log}
    (h : Following stream limit ms ts ⟨token, slot :: below, (s, log)⟩)
    (ha : action slot.place token.terminal = .shift q)
    (hnext : stream.logged.next (s, log) = (.ok next, s')) :
    Following stream limit (ms ++ [.read]) (ts ++ [token])
      ⟨next, ⟨q, token.term.map .term⟩ :: slot :: below, s'⟩ := by
  have hpulls := pulls_of_next hnext
  have hanswered := h.answered.read (ne_eof_of_action_shift ha) hpulls
  have hlength : log.pulls.length = (ts ++ [token]).length := by
    rw [h.answered.length_pulls, List.length_append, List.length_singleton]
  obtain ⟨hresult, rfl⟩ := Prod.mk.inj hnext
  refine ⟨hanswered, ?_, ?_, ?_, fun under hunder rest more => ?_⟩
  · rw [← hlength]
    exact Log.encoding?_length hpulls
  · rw [kindsOf, List.map_append]
    exact h.spells.read ha
  · rw [kindsOf, List.map_append]
    exact (h.traces.extend [next.terminal]).trans (.read ha (.done _ _))
  · have hbefore := h.values under (fun i e hi => hunder i e (Log.encoding?_of_append hpulls hi))
      (token :: rest) more
    rw [List.append_assoc, List.singleton_append, execUnder_append, Eval.run_bind]
    dsimp only at hbefore ⊢
    rw [hbefore]
    rfl

section
variable (hkeeps : ∀ a s, stream.encoding (stream.onAtom a s).2 = stream.encoding s)
include hkeeps

theorem reduce {rule : Rule} (h : Following stream limit ms ts ⟨token, slot :: below, (s, log)⟩)
    (ha : action slot.place token.terminal = .reduce rule) :
    (∃ err s', stream.logged.move limit ⟨token, slot :: below, (s, log)⟩ =
      .finished (.error err) s') ∨
    ∃ c, stream.logged.move limit ⟨token, slot :: below, (s, log)⟩ = .running c ∧
      Following stream limit (ms ++ [.reduce rule]) ts c := by
  have hwhole : Spells (slot.place :: places below) (kindsOf ts) := h.spells
  obtain ⟨-, p, ps, q, ks, symbol, tree, hsymbol, hdrop, hks, hgoto, hspells⟩ :=
    hwhole.exists_of_reduce ha
  have htraces := h.traces.trans (.reduce ha hdrop (hsymbol ▸ hgoto) (.done _ _))
  rw [← places_cons] at hdrop
  obtain ⟨slot', below', hdrop', rfl, rfl⟩ := drop_of_places hdrop
  rw [move_reduce (s, log) ha hdrop' (hsymbol ▸ hgoto)]
  have hencoding : stream.logged.encoding (s, log) = stream.encoding s := rfl
  rw [hencoding]
  rcases hsettle : (settle limit (stream.encoding s) stream.logged.onAtom rule
    ((PatternAutomata.values (slot :: below)).take rule.arity).reverse).run (s, log) with
    ⟨err | v, s', log'⟩
  · exact .inl ⟨err, _, rfl⟩
  · obtain ⟨hpulls, hsame, replies, hreplies, hplayed⟩ := settle_logged hkeeps hsettle
    have hcurrent : log'.encoding? ts.length = some (stream.encoding s') := by
      rw [Log.encoding?, hpulls, hsame]
      exact h.current
    have hmore : some (Move.reduce rule) ≠ some .read := by simp
    refine .inr ⟨_, rfl, h.answered.other hpulls hmore, hcurrent, hks ▸ hspells.tree hgoto tree,
      htraces, fun under hunder rest more => ?_⟩
    have hbefore := h.values under
      (fun i e hi => hunder i e (by rwa [Log.encoding?, hpulls])) rest (replies ++ more)
    have hunder : under ts.length = stream.encoding s := (hunder _ _ hcurrent).trans hsame
    dsimp only at hbefore ⊢
    rw [execUnder_append, Eval.run_bind, hreplies, List.append_assoc, hbefore, Nat.zero_add,
      ← h.answered.reads]
    dsimp only
    rw [execUnder_reduce, exec_reduce, hunder, bind_assoc, Eval.run_bind, hplayed,
      drop_values hdrop']
    rfl

/-- At every moment of a parse the moves so far account for the values on the stack. -/
theorem exists_of_course {p : Progress (σ × Log)} (h : stream.logged.Course limit (s₀, {}) ms p) :
    ∀ c, p = .running c → ∃ ts, Following stream limit ms ts c := by
  induction h with
  | refused => exact nofun
  | first h =>
    rintro c hc
    obtain rfl := Progress.running.inj hc
    exact ⟨[], .first h⟩
  | @move ms c before ih =>
    obtain ⟨ts, hfollowing⟩ := ih c rfl
    obtain ⟨token, _ | ⟨slot, below⟩, s, log⟩ := c
    · exact nofun
    · intro c hmove
      cases ha : action slot.place token.terminal with
      | shift q =>
        have hupcoming : Configuration.upcoming ⟨token, slot :: below, (s, log)⟩ = some .read :=
          congrArg Action.move? ha
        rw [move_shift stream.logged limit below (s, log) ha] at hmove
        rcases hnext : stream.logged.next (s, log) with ⟨err | next, s'⟩
        · simp [hnext] at hmove
        · rw [hnext] at hmove
          obtain rfl := Progress.running.inj hmove
          rw [hupcoming]
          exact ⟨_, hfollowing.read ha hnext⟩
      | reduce rule =>
        have hupcoming : Configuration.upcoming ⟨token, slot :: below, (s, log)⟩ =
            some (.reduce rule) := congrArg Action.move? ha
        rw [hupcoming]
        obtain ⟨err, s', hfinished⟩ | ⟨c', hrunning, hfollowing'⟩ := hfollowing.reduce hkeeps ha
        · cases hfinished.symm.trans hmove
        · obtain rfl := Progress.running.inj (hrunning.symm.trans hmove)
          exact ⟨ts, hfollowing'⟩
      | accept =>
        rw [move_accept stream.logged limit below (s, log) ha] at hmove
        cases hmove
      | reject =>
        rw [move_reject stream.logged limit below (s, log) ha] at hmove
        cases hmove

end

end Following

/-! ## A parse that gets through -/

/-- How a parse gets through. It pulls the tokens of a tree and the end of the pattern, makes the
moves of the tree, and comes to its value, each term in the encoding that was in force behind the
first token after the term and its count. No other encoding matters. The source is shown the atoms
of the evaluation. -/
structure GetsThrough (stream : TokenStream σ) (limit : Nat) (s : σ) (a : Automaton) (s' : σ)
    (tree : Tree .pattern) (last : Token) (log : Log) : Prop where
  course : stream.logged.Course limit (s, {}) tree.moves (.finished (.ok a) (s', log))
  eof : last.terminal = .eof
  answers : log.answers = (tree.tokens ++ [last]).map .ok
  settled : ∀ i ∈ tree.settling 0, ∃ e, log.encoding? i = some e
  evaluates : ∀ under, (∀ i ∈ tree.settling 0, log.encoding? i = some (under i)) →
    (tree.evaluateUnder limit under playback.logged 0).run (log.replies, []) =
      (.ok a, ([], log.atoms))

/-- Where the moves were those of a tree, the value of the tree lies on the stack, whatever the
encodings that no term is turned into bytes in. -/
theorem Following.evaluates {token : Token} {slot : Slot} {below : List Slot} {log : Log}
    {tree : Tree .pattern}
    (h : Following stream limit tree.moves tree.tokens ⟨token, slot :: below, (s, log)⟩)
    {under : Nat → Encoding} (hunder : ∀ i ∈ tree.settling 0, log.encoding? i = some (under i)) :
    ∃ v, slot.value = some (.automaton v) ∧
      (tree.evaluateUnder limit under playback.logged 0).run (log.replies, []) =
        (.ok v, ([], log.atoms)) := by
  let full (i : Nat) : Encoding := (log.encoding? i).getD (under i)
  have hfull (i : Nat) (e : Encoding) (hi : log.encoding? i = some e) : full i = e := by
    simp only [full, hi, Option.getD_some]
  have hsame : ∀ i ∈ tree.settling 0, under i = full i := fun i hi =>
    (hfull i _ (hunder i hi)).symm
  have hrun := h.values full hfull [] []
  have htree := execUnder_tree limit full playback.logged tree [] 0 [] [none]
  simp only [List.append_nil] at hrun htree
  rw [htree, Eval.run_bind] at hrun
  rw [tree.evaluateUnder_congr hsame]
  generalize (tree.evaluateUnder limit full playback.logged 0).run (log.replies, []) = r at hrun ⊢
  obtain ⟨err | v, state⟩ := r
  · cases hrun
  · obtain ⟨hvalues, rfl⟩ := Prod.mk.inj hrun
    obtain ⟨-, hvalues⟩ := Prod.mk.inj (Except.ok.inj hvalues)
    exact ⟨v, (List.cons.inj hvalues).1.symm, rfl⟩

theorem Following.getsThrough {c : Configuration (σ × Log)} {ms : List Move} {ts : List Token}
    {a : Automaton} {s' : σ × Log} (h : Following stream limit ms ts c)
    (hcourse : stream.logged.Course limit (s₀, {}) ms (.running c))
    (hmove : stream.logged.move limit c = .finished (.ok a) s') :
    ∃ tree last, stream.GetsThrough limit s₀ a s'.1 tree last s'.2 := by
  have hend := hcourse.move
  rw [hmove] at hend
  obtain ⟨slot, below, hstack, haccept, hresult, rfl⟩ := move_eq_ok hmove
  obtain ⟨token, stack, s, log⟩ := c
  subst hstack
  dsimp only at haccept hresult hend ⊢
  obtain ⟨hplace, heof⟩ := of_accept haccept
  have hspells : Spells (slot.place :: places below) (kindsOf ts) := h.spells
  rw [hplace] at hspells
  obtain ⟨tree, hkinds⟩ := hspells.sentence
  obtain ⟨tree, rfl⟩ := tree.exists_of_kinds hkinds.symm
  have htraces := h.traces
  rw [kindsOf, List.map_append, List.map_singleton, heof] at htraces
  -- no other moves lead over the tokens than those of the tree
  obtain ⟨rfl, -, -⟩ := htraces.deterministic tree.traces_whole
    (.inl (heof ▸ haccept)) Tree.halted_whole
  have hupcoming : Configuration.upcoming ⟨token, slot :: below, (s, log)⟩ = none :=
    congrArg Action.move? haccept
  rw [hupcoming, Option.toList_none, List.append_nil] at hend
  refine ⟨tree, token, hend, heof, ?_, fun i hi => ?_, fun under hunder => ?_⟩
  · rw [List.map_append]
    exact h.answered.answers
  · have hlength : log.pulls.length = tree.tokens.length + 1 := h.answered.length_pulls
    have hle := tree.settling_le hi
    exact Log.exists_encoding? (by omega)
  · obtain ⟨v, hvalue, hrun⟩ := h.evaluates hunder
    rw [hvalue] at hresult
    obtain rfl : v = a := Except.ok.inj hresult
    exact hrun

theorem Course.exists_of_ok {ms : List Move} {a : Automaton}
    (h : stream.Course limit s₀ ms (.finished (.ok a) s)) :
    ∃ ms' c, stream.Course limit s₀ ms' (.running c) ∧
      stream.move limit c = .finished (.ok a) s := by
  generalize hp : Progress.finished (.ok a) s = p at h
  cases h with
  | refused => cases hp
  | first => cases hp
  | move before => exact ⟨_, _, before, rfl⟩

theorem Returns.getsThrough
    (hkeeps : ∀ a s, stream.encoding (stream.onAtom a s).2 = stream.encoding s) {a : Automaton}
    (h : stream.Returns limit s₀ (.ok a) s) :
    ∃ tree last log, stream.GetsThrough limit s₀ a s tree last log := by
  obtain ⟨ms, hcourse⟩ := h.exists_course
  obtain ⟨q, hlogged, hq⟩ := hcourse.exists_logged {}
  cases q with
  | running => cases hq
  | finished result s' =>
    obtain ⟨rfl, rfl⟩ := Progress.finished.inj hq
    obtain ⟨ms, c, hbefore, hmove⟩ := hlogged.exists_of_ok
    obtain ⟨ts, hfollowing⟩ := Following.exists_of_course hkeeps hbefore c rfl
    obtain ⟨tree, last, hthrough⟩ := hfollowing.getsThrough hbefore hmove
    exact ⟨tree, last, s'.2, hthrough⟩

end TokenStream

/-- Where the encoding changes with the tokens only, a parse that gets through turns each class, dot
and anchor into bytes under the encoding in force right after the first token behind it and its
count was pulled. Encodings in force before and after do not matter. -/
theorem parse_encodes (stream : TokenStream σ) (limit : Nat) (s : σ)
    (hkeeps : ∀ a s, stream.encoding (stream.onAtom a s).2 = stream.encoding s) :
    (∀ a s', stream.Returns limit s (.ok a) s' →
      ∃ tree last log, stream.GetsThrough limit s a s' tree last log) ∧
    ∀ source : TokenSource σ, source.stream = stream → ∀ a, (parse source limit s).1 = .ok a →
      ∃ tree last log, stream.GetsThrough limit s a (parse source limit s).2 tree last log := by
  refine ⟨fun a s' h => h.getsThrough hkeeps, ?_⟩
  rintro source rfl a hparse
  have hreturns := TokenStream.returns_parse source limit s
  rw [hparse] at hreturns
  exact hreturns.getsThrough hkeeps

/-- The encoding changes with the end of the pattern, and the dot before it gets the new one. -/
theorem parse_encodes_dot :
    let dot : Token := ⟨.dot, some .dot, 0⟩
    let eof : Token := ⟨.eof, none, 1⟩
    let s : Script := { entries := [⟨.ok dot, none⟩, ⟨.ok eof, some .latin1⟩] }
    let source := Script.source id
    let a := Automaton.emptyText.appendCharacter .latin1
    (∀ a s, source.encoding (source.onAtom a s).2 = source.encoding s) ∧
      (parse source 100 s).1 = .ok a ∧
      ∃ tree last log, source.stream.GetsThrough 100 s a (parse source 100 s).2 tree last log := by
  intro dot eof s source a
  have hkeeps : ∀ a s, source.encoding (source.onAtom a s).2 = source.encoding s := fun _ _ => rfl
  have hparse : (parse source 100 s).1 = .ok (Automaton.emptyText.appendCharacter .latin1) :=
    apply_parse_of_parseWithin (n := 20) Prod.fst (by decide +kernel)
  exact ⟨hkeeps, hparse, (parse_encodes source.stream 100 s hkeeps).2 source rfl a hparse⟩

end PatternAutomata
