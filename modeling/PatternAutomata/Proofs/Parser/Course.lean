import Mathlib.Logic.Relation
import PatternAutomata.Proofs.Parser.Moments
import PatternAutomata.Proofs.Parser.Moves
import PatternAutomata.Proofs.Parser.Tree

/-!
# The course of a parse

Between two tokens a parser makes only a few moves, as each reduction lowers the rank of the place
that it stands at. So a parse goes on for as long as tokens come, and no longer. Where they run out,
by the end of the pattern or by an error, the parse comes to an end and pulls nothing more.
-/
namespace PatternAutomata
open Relation (ReflTransGen)

variable {σ τ : Type}

/-- The move that an action stands for, unless it ends the parse. -/
def Action.move? : Action → Option Move
  | .shift _ => some .read
  | .reduce rule => some (.reduce rule)
  | .accept | .reject => none

/-- The move that the table prescribes, if it prescribes one. -/
def Configuration.upcoming (c : Configuration σ) : Option Move :=
  match c.stack with
  | [] => none
  | top :: _ => (action top.place c.token.terminal).move?

namespace Progress

/-- The state of the source. -/
def state : Progress σ → σ
  | .running c => c.state
  | .finished _ s => s

/-- The rank of the place that the parser stands at, and zero at the end. -/
def rank : Progress σ → Nat
  | .running c => c.rank
  | .finished _ _ => 0

/-- The same with another view of the source. -/
def map (f : σ → τ) : Progress σ → Progress τ
  | .running c => .running ⟨c.token, c.stack, f c.state⟩
  | .finished result s => .finished result (f s)

end Progress

/-- An answer of a source, and the encoding in force behind it. -/
structure Pull where
  answer : Except LexError Token
  encoding : Encoding

/-- What a source was asked for and what it answered, the first one first. -/
structure Log where
  pulls : List Pull := []
  /-- The atoms shown to the source. -/
  atoms : List Automaton := []
  /-- What came back for the atoms. -/
  replies : List Automaton := []

/-- The answers to the pulls. -/
def Log.answers (log : Log) : List (Except LexError Token) := log.pulls.map (·.answer)

namespace TokenStream

/-- A stream that keeps a log. -/
def logged (stream : TokenStream σ) : TokenStream (σ × Log) where
  next s := ((stream.next s.1).1, (stream.next s.1).2,
    { s.2 with pulls := s.2.pulls ++
        [⟨(stream.next s.1).1, stream.encoding (stream.next s.1).2⟩] })
  encoding s := stream.encoding s.1
  onAtom a s := ((stream.onAtom a s.1).1, (stream.onAtom a s.1).2,
    { s.2 with atoms := s.2.atoms ++ [a], replies := s.2.replies ++ [(stream.onAtom a s.1).1] })

section
variable (stream : TokenStream σ)

/-- What comes of showing atoms to a stream, any number of them. -/
def Shown : σ → σ → Prop := ReflTransGen fun s s' => ∃ a, s' = (stream.onAtom a s).2

/-- Whether the tokens run out: after finitely many pulls there is the end of the pattern or an
error, whatever atoms are shown between the pulls. -/
inductive RunsOut : σ → Prop
  | refused {s s' : σ} {err : LexError} (h : stream.next s = (.error err, s')) : RunsOut s
  | ended {s s' : σ} {t : Token} (h : stream.next s = (.ok t, s')) (ht : t.terminal = .eof) :
    RunsOut s
  | token {s s' : σ} {t : Token} (h : stream.next s = (.ok t, s'))
    (rest : ∀ s'', stream.Shown s' s'' → RunsOut s'') : RunsOut s

variable (limit : Nat) (s₀ : σ)

/-- The moves of a parse up to some point, the last one included even if it fails, and where they
lead. -/
inductive Course : List Move → Progress σ → Prop
  | refused {err : LexError} {s : σ} (h : stream.next s₀ = (.error err, s)) :
    Course [] (.finished (.error (.lexical err)) s)
  | first {token : Token} {s : σ} (h : stream.next s₀ = (.ok token, s)) :
    Course [] (.running ⟨token, [⟨.start, none⟩], s⟩)
  | move {ms : List Move} {c : Configuration σ} (before : Course ms (.running c)) :
    Course (ms ++ c.upcoming.toList) (stream.move limit c)

end

variable {stream : TokenStream σ} {limit : Nat} {s₀ s s' : σ} {c : Configuration σ}
  {ms : List Move} {p : Progress σ} {result : Except Error Automaton}

theorem Moment.exists_course (h : stream.Moment limit s₀ c) :
    ∃ ms, stream.Course limit s₀ ms (.running c) := by
  induction h with
  | first h => exact ⟨[], .first h⟩
  | next _ h ih =>
    obtain ⟨ms, hms⟩ := ih
    exact ⟨_, h ▸ hms.move⟩

theorem Returns.exists_course (h : stream.Returns limit s₀ result s) :
    ∃ ms, stream.Course limit s₀ ms (.finished result s) := by
  cases h with
  | refused h => exact ⟨[], .refused h⟩
  | finished before h =>
    obtain ⟨ms, hms⟩ := before.exists_course
    exact ⟨_, h ▸ hms.move⟩

/-! ## One move -/

section
variable (stream : TokenStream σ) (limit : Nat) {token : Token} {slot : Slot} (below : List Slot)
  (s : σ) {q : Place}

theorem move_shift (h : action slot.place token.terminal = .shift q) :
    stream.move limit ⟨token, slot :: below, s⟩ =
      match stream.next s with
      | (.error err, s') => .finished (.error (.lexical err)) s'
      | (.ok next, s') => .running ⟨next, ⟨q, token.term.map .term⟩ :: slot :: below, s'⟩ := by
  rw [move, step_shift stream.upTo limit below (s, 1) h]
  rcases hnext : stream.next s with ⟨err | next, s'⟩ <;> simp only [upTo, hnext]

theorem move_accept (h : action slot.place token.terminal = .accept) :
    stream.move limit ⟨token, slot :: below, s⟩ =
      .finished ((needed slot.value).bind (·.toAutomaton (stream.encoding s))) s := by
  rw [move, step_accept stream.upTo limit below (s, 1) h]
  rfl

theorem move_reject (h : action slot.place token.terminal = .reject) :
    stream.move limit ⟨token, slot :: below, s⟩ =
      .finished (.error (.unexpected token.offset token.terminal)) s := by
  rw [move, step_reject stream.upTo limit below (s, 1) h]

end

/-- What a move may lead to. A reduction shows one atom to the source at most, and puts a place of
smaller rank on top. -/
inductive Effect (stream : TokenStream σ) : Configuration σ → Option Move → Progress σ → Prop
  | refused {token : Token} {top : Slot} {below : List Slot} {s s' : σ} {q : Place} {err : LexError}
    (ha : action top.place token.terminal = .shift q) (h : stream.next s = (.error err, s')) :
    Effect stream ⟨token, top :: below, s⟩ (some .read) (.finished (.error (.lexical err)) s')
  | read {token next : Token} {top : Slot} {below : List Slot} {s s' : σ} {q : Place}
    (ha : action top.place token.terminal = .shift q) (h : stream.next s = (.ok next, s')) :
    Effect stream ⟨token, top :: below, s⟩ (some .read)
      (.running ⟨next, ⟨q, token.term.map .term⟩ :: top :: below, s'⟩)
  | failed {token : Token} {top : Slot} {below : List Slot} {s s' : σ} {rule : Rule} {err : Error}
    (ha : action top.place token.terminal = .reduce rule) (h : stream.Shown s s') :
    Effect stream ⟨token, top :: below, s⟩ (some (.reduce rule)) (.finished (.error err) s')
  | reduced {token : Token} {top slot : Slot} {below rest : List Slot} {s s' : σ} {rule : Rule}
    (ha : action top.place token.terminal = .reduce rule) (h : stream.Shown s s')
    (hrank : slot.place.rank < top.place.rank) :
    Effect stream ⟨token, top :: below, s⟩ (some (.reduce rule))
      (.running ⟨token, slot :: rest, s'⟩)
  | halted (c : Configuration σ) (result : Except Error Automaton) :
    Effect stream c none (.finished result c.state)

theorem shown_announce (stream : TokenStream σ) (rule : Rule) (v : Operand) (s : σ) (n : Nat) :
    stream.Shown s (announce stream.upTo rule v (s, n)).2.1 := by
  unfold announce
  split
  · next a =>
    split
    · exact .single ⟨a, rfl⟩
    · exact .refl
  · exact .refl

/-- Whatever comes of a reduction, the source is shown one atom at most. -/
theorem shown_reduce (stream : TokenStream σ) (limit : Nat) (rule : Rule) (stack : List Slot)
    (s : σ) (n : Nat) : stream.Shown s (reduce stream.upTo limit rule stack (s, n)).2.1 := by
  have hshown (v : Operand) := shown_announce stream rule v s n
  unfold reduce
  dsimp only
  split
  · exact .refl
  · split
    · exact .refl
    · split
      · exact hshown _
      · split <;> exact hshown _

theorem effect_move (stream : TokenStream σ) (limit : Nat) (c : Configuration σ) :
    Effect stream c c.upcoming (stream.move limit c) := by
  obtain ⟨token, _ | ⟨top, below⟩, s⟩ := c
  · exact .halted _ _
  · unfold Configuration.upcoming
    dsimp only
    cases ha : action top.place token.terminal with
    | shift q =>
      rw [move_shift stream limit below s ha]
      rcases hnext : stream.next s with ⟨err | next, s'⟩
      · exact .refused ha hnext
      · exact .read ha hnext
    | reduce rule =>
      have hshown := shown_reduce stream limit rule (top :: below) s 1
      simp only [move, step, ha]
      rcases hreduce : reduce stream.upTo limit rule (top :: below) (s, 1) with ⟨err | stack, s'⟩
      · rw [hreduce] at hshown
        exact .failed ha hshown
      · rw [hreduce] at hshown
        obtain ⟨-, slot, rest, rfl, hrank⟩ := reduce_decreases ha hreduce
        exact .reduced ha hshown hrank
    | accept =>
      rw [move_accept stream limit below s ha]
      exact .halted _ _
    | reject =>
      rw [move_reject stream limit below s ha]
      exact .halted _ _

/-! ## How many reductions -/

theorem rank_le (p : Place) : p.rank ≤ 7 := by
  cases p <;> decide

theorem rank_pos_of_reduce {p : Place} {t : Terminal} {rule : Rule}
    (h : action p t = .reduce rule) : 0 < p.rank := by
  cases p with
  | finished => cases t <;> cases h
  | _ => decide

/-- Each token read pays for the reductions that its place may take. -/
theorem Course.count_le (h : stream.Course limit s₀ ms p) :
    ms.countP (· ≠ .read) + p.rank ≤ 7 * ms.count .read + 5 := by
  induction h with
  | refused => exact Nat.zero_le _
  | first => exact Nat.le_refl 5
  | @move ms c before ih =>
    have heffect := effect_move stream limit c
    generalize c.upcoming = next at heffect ⊢
    generalize stream.move limit c = p at heffect ⊢
    cases heffect with
    | refused =>
      simp [Progress.rank] at ih ⊢
      omega
    | @read _ _ _ _ _ _ q =>
      have hq := rank_le q
      simp [Progress.rank, Configuration.rank] at ih ⊢
      omega
    | failed ha =>
      have hpos := rank_pos_of_reduce ha
      simp [Progress.rank, Configuration.rank] at ih ⊢
      omega
    | reduced _ _ hrank =>
      simp [Progress.rank, Configuration.rank] at ih ⊢
      omega
    | halted =>
      simp [Progress.rank] at ih ⊢
      omega

/-! ## Where the tokens run out -/

section
variable (stream limit s₀)

/-- Whether the parse comes to an end. -/
def Ends : Prop :=
  ∃ ms result s, stream.Course limit s₀ ms (.finished result s)

end

/-- A parse comes to its end if it does so behind the next token, or reads no token any more. -/
theorem Course.ends (h : stream.Course limit s₀ ms (.running c))
    (hread : c.token.terminal = .eof ∨ ∀ s ms c', stream.Shown c.state s → c'.state = s →
      c'.upcoming = some .read → stream.Course limit s₀ ms (.running c') →
      stream.Ends limit s₀) : stream.Ends limit s₀ := by
  induction hr : c.rank using Nat.strongRecOn generalizing ms c with
  | ind r ih =>
    have hmove := h.move
    have heffect := effect_move stream limit c
    generalize hnext : c.upcoming = next at heffect hmove
    generalize stream.move limit c = p at heffect hmove
    cases heffect with
    | refused | failed | halted => exact ⟨_, _, _, hmove⟩
    | read ha =>
      rcases hread with heof | hread
      · exact absurd heof (ne_eof_of_action_shift ha)
      · exact hread _ _ _ .refl rfl hnext h
    | reduced ha hshown hrank =>
      refine ih _ (hr ▸ hrank) hmove (hread.imp_right fun hread s ms c' hs => ?_) rfl
      exact hread s ms c' (hshown.trans hs)

/-- A move that reads goes on with the next token, or ends with the error in its place. -/
theorem move_of_read (h : c.upcoming = some .read) :
    (∃ err s', stream.next c.state = (.error err, s') ∧
      stream.move limit c = .finished (.error (.lexical err)) s') ∨
    ∃ c', stream.next c.state = (.ok c'.token, c'.state) ∧ stream.move limit c = .running c' := by
  have heffect := effect_move stream limit c
  rw [h] at heffect
  generalize stream.move limit c = p at heffect
  cases heffect with
  | refused _ hnext => exact .inl ⟨_, _, hnext, rfl⟩
  | read _ hnext => exact .inr ⟨_, hnext, rfl⟩

/-- Where the tokens run out, a parse that is about to read comes to its end. -/
theorem RunsOut.ends_of_read (hout : stream.RunsOut s) (hs : c.state = s)
    (hread : c.upcoming = some .read) (h : stream.Course limit s₀ ms (.running c)) :
    stream.Ends limit s₀ := by
  induction hout generalizing ms c with
  | refused hnext =>
    subst hs
    obtain ⟨err, s', -, hmove⟩ | ⟨c', hnext', -⟩ := move_of_read hread
    · exact ⟨_, _, _, hmove ▸ h.move⟩
    · cases hnext.symm.trans hnext'
  | ended hnext ht =>
    subst hs
    obtain ⟨err, s', hnext', -⟩ | ⟨c', hnext', hmove⟩ := move_of_read hread
    · cases hnext.symm.trans hnext'
    · cases hnext.symm.trans hnext'
      exact (hmove ▸ h.move).ends (.inl ht)
  | token hnext _ ih =>
    subst hs
    obtain ⟨err, s', hnext', -⟩ | ⟨c', hnext', hmove⟩ := move_of_read hread
    · cases hnext.symm.trans hnext'
    · cases hnext.symm.trans hnext'
      exact (hmove ▸ h.move).ends
        (.inr fun s ms c hshown hs hread h => ih s hshown hs hread h)

theorem RunsOut.ends (hout : stream.RunsOut s₀) : stream.Ends limit s₀ := by
  cases hout with
  | refused hnext => exact ⟨_, _, _, .refused hnext⟩
  | ended hnext ht => exact (Course.first hnext).ends (.inl ht)
  | token hnext rest =>
    exact (Course.first hnext).ends
      (.inr fun s ms c hshown hs hread h => (rest s hshown).ends_of_read hs hread h)

/-- The tokens of a source run out. -/
theorem runsOut_stream (source : TokenSource σ) (s : σ) : source.stream.RunsOut s := by
  induction hr : source.remaining s using Nat.strongRecOn generalizing s with
  | ind r ih =>
    rcases hnext : source.next s with ⟨err | t, s'⟩
    · exact .refused hnext
    · by_cases ht : t.terminal = .eof
      · exact .ended hnext ht
      · have hlt := source.next_lt s t (by rw [hnext]) ht
        rw [hnext] at hlt
        have hshown (s'' : σ) (h : source.stream.Shown s' s'') :
            source.remaining s'' ≤ source.remaining s' := by
          induction h with
          | refl => exact Nat.le_refl _
          | tail _ h ih =>
            obtain ⟨a, rfl⟩ := h
            exact Nat.le_trans (source.onAtom_le a _) ih
        exact .token hnext fun s'' h =>
          ih _ (hr ▸ Nat.lt_of_le_of_lt (hshown s'' h) hlt) s'' rfl

theorem exists_course_of_not_ends (h : ¬ stream.Ends limit s₀) (n : Nat) :
    ∃ ms c, stream.Course limit s₀ ms (.running c) ∧ ms.length = n := by
  induction n with
  | zero =>
    rcases hnext : stream.next s₀ with ⟨err | t, s⟩
    · exact absurd ⟨_, _, _, .refused hnext⟩ h
    · exact ⟨[], _, .first hnext, rfl⟩
  | succ n ih =>
    obtain ⟨ms, c, hcourse, hlength⟩ := ih
    have hmove := hcourse.move
    have heffect := effect_move stream limit c
    generalize c.upcoming = next at heffect hmove
    generalize stream.move limit c = p at heffect hmove
    cases heffect with
    | refused | failed | halted => exact absurd ⟨_, _, _, hmove⟩ h
    | read | reduced => exact ⟨_, _, hmove, by simp [hlength]⟩

/-- A parse that does not end reads more tokens than any number. -/
theorem ends_or_reads (stream : TokenStream σ) (limit : Nat) (s₀ : σ) :
    stream.Ends limit s₀ ∨
      ∀ n, ∃ ms c, stream.Course limit s₀ ms (.running c) ∧ n ≤ ms.count .read := by
  by_cases hends : stream.Ends limit s₀
  · exact .inl hends
  · refine .inr fun n => ?_
    obtain ⟨ms, c, hcourse, hlength⟩ := exists_course_of_not_ends hends (8 * n + 5)
    have hcount := hcourse.count_le
    have hsplit := List.length_eq_countP_add_countP (· == Move.read) (l := ms)
    simp only [beq_iff_eq, ← ne_eq] at hsplit
    refine ⟨ms, c, hcourse, ?_⟩
    rw [List.count] at hcount ⊢
    omega

/-! ## The log of a parse -/

theorem next_logged {x : Except LexError Token} (h : stream.next s = (x, s')) (log : Log) :
    stream.logged.next (s, log) =
      (x, s', { log with pulls := log.pulls ++ [⟨x, stream.encoding s'⟩] }) := by
  simp only [logged, h]

theorem pulls_of_next {s s' : σ × Log} {x : Except LexError Token}
    (h : stream.logged.next s = (x, s')) :
    s'.2.pulls = s.2.pulls ++ [⟨x, stream.encoding s'.1⟩] := by
  obtain ⟨rfl, rfl⟩ := Prod.mk.inj h
  rfl

theorem pulls_of_shown {s s' : σ × Log} (h : stream.logged.Shown s s') :
    s'.2.pulls = s.2.pulls := by
  induction h with
  | refl => rfl
  | tail _ h ih =>
    obtain ⟨a, rfl⟩ := h
    exact ih

theorem echoes_logged (stream : TokenStream σ) (s : σ × Log) (n : Nat) :
    stream.upTo.Echoes stream.logged.upTo (fun _ => False) (fun x y => y.1.1 = x.1)
      (s.1, n) (s, n) where
  now := rfl
  encoding := rfl
  next := by
    cases n with
    | zero => exact .same _ rfl
    | succ n => exact .same _ rfl
  onAtom _ := ⟨rfl, rfl⟩

/-- Keeping a log does not change a move. -/
theorem move_logged (stream : TokenStream σ) (limit : Nat) (c : Configuration (σ × Log)) :
    (stream.logged.move limit c).map Prod.fst =
      stream.move limit ⟨c.token, c.stack, c.state.1⟩ := by
  have h := step_together (echoes_logged stream c.state 1) (.refl _ limit) c.token c.stack
  unfold move
  generalize step stream.upTo limit ⟨c.token, c.stack, (c.state.1, 1)⟩ = x at h ⊢
  generalize step stream.logged.upTo limit ⟨c.token, c.stack, (c.state, 1)⟩ = y at h ⊢
  cases h with
  | refused h => exact h.elim
  | finished result h => exact congrArg (Progress.finished result) h
  | running token stack h =>
    exact congrArg (fun s => Progress.running ⟨token, stack, s⟩) h

theorem Course.exists_logged (h : stream.Course limit s₀ ms p) (log : Log) :
    ∃ q, stream.logged.Course limit (s₀, log) ms q ∧ q.map Prod.fst = p := by
  induction h with
  | refused h => exact ⟨_, .refused (next_logged h log), rfl⟩
  | first h => exact ⟨_, .first (next_logged h log), rfl⟩
  | @move ms c before ih =>
    obtain ⟨q, hq, heq⟩ := ih
    cases q with
    | finished => cases heq
    | running c' =>
      obtain rfl := Progress.running.inj heq
      exact ⟨_, hq.move, move_logged stream limit c'⟩

/-- What the log says behind some moves: the tokens read have been handed out, none of which is the
end of the pattern, and there was one more answer. -/
structure Answered (ms : List Move) (log : Log) (ts : List Token)
    (last : Except LexError Token) : Prop where
  answers : log.answers = ts.map .ok ++ [last]
  reads : ts.length = ms.count .read
  ongoing : ∀ t ∈ ts, t.terminal ≠ .eof

namespace Answered
variable {log log' : Log} {ts : List Token} {last : Except LexError Token}

theorem length_pulls (h : Answered ms log ts last) : log.pulls.length = ts.length + 1 := by
  have hanswers := congrArg List.length h.answers
  simpa [Log.answers] using hanswers

theorem first {pull : Pull} (h : log.pulls = [pull]) : Answered [] log [] pull.answer where
  answers := by simp [Log.answers, h]
  reads := rfl
  ongoing := by simp

theorem read {t : Token} {pull : Pull} (h : Answered ms log ts (.ok t)) (ht : t.terminal ≠ .eof)
    (hpulls : log'.pulls = log.pulls ++ [pull]) :
    Answered (ms ++ [.read]) log' (ts ++ [t]) pull.answer where
  answers := by
    have hanswers := h.answers
    simp only [Log.answers] at hanswers
    simp [Log.answers, hpulls, hanswers]
  reads := by simp [h.reads]
  ongoing := by
    intro t' ht'
    obtain ht' | rfl := by simpa using ht'
    · exact h.ongoing t' ht'
    · exact ht

theorem other (h : Answered ms log ts last) (hpulls : log'.pulls = log.pulls) {more : Option Move}
    (hmore : more ≠ some .read) : Answered (ms ++ more.toList) log' ts last where
  answers := by rw [Log.answers, hpulls, ← Log.answers, h.answers]
  reads := by
    have hcount : more.toList.count .read = 0 := by
      simp [List.count_eq_zero, hmore]
    rw [List.count_append, hcount, Nat.add_zero, h.reads]
  ongoing := h.ongoing

end Answered

theorem Course.exists_answered {q : Progress (σ × Log)}
    (h : stream.logged.Course limit (s₀, {}) ms q) :
    ∃ ts last, Answered ms q.state.2 ts last ∧ ∀ c, q = .running c → last = .ok c.token := by
  induction h with
  | refused h => exact ⟨[], _, .first (pulls_of_next h), nofun⟩
  | first h =>
    exact ⟨[], _, .first (pulls_of_next h), fun c hc => by rw [← Progress.running.inj hc]⟩
  | @move ms c before ih =>
    obtain ⟨ts, last, hanswered, hlast⟩ := ih
    obtain rfl := hlast c rfl
    have heffect := effect_move stream.logged limit c
    generalize c.upcoming = next at heffect ⊢
    generalize stream.logged.move limit c = p at heffect ⊢
    cases heffect with
    | refused ha hnext =>
      exact ⟨_, _, hanswered.read (ne_eof_of_action_shift ha) (pulls_of_next hnext), nofun⟩
    | read ha hnext =>
      exact ⟨_, _, hanswered.read (ne_eof_of_action_shift ha) (pulls_of_next hnext),
        fun c hc => by rw [← Progress.running.inj hc]⟩
    | failed ha hshown => exact ⟨_, _, hanswered.other (pulls_of_shown hshown) nofun, nofun⟩
    | reduced ha hshown hrank =>
      exact ⟨_, _, hanswered.other (pulls_of_shown hshown) nofun,
        fun c hc => by rw [← Progress.running.inj hc]⟩
    | halted => exact ⟨_, _, hanswered.other rfl nofun, nofun⟩

end TokenStream

/-- Where the tokens run out, a parse comes to an end. Behind each token that it reads it pulls one
more, and nothing behind the end of the pattern or an error. It makes seven reductions for each
token read at most, and five more. -/
theorem parse_ends {σ : Type} (stream : TokenStream σ) (limit : Nat) (s : σ) :
    (stream.RunsOut s → stream.Ends limit s) ∧
    (stream.Ends limit s ∨
      ∀ n, ∃ ms c, stream.Course limit s ms (.running c) ∧ n ≤ ms.count .read) ∧
    (∀ ms p, stream.Course limit s ms p → ms.countP (· ≠ .read) ≤ 7 * ms.count .read + 5 ∧
      ∃ q ts last, stream.logged.Course limit (s, {}) ms q ∧ q.map Prod.fst = p ∧
        TokenStream.Answered ms q.state.2 ts last) ∧
    ∀ source : TokenSource σ, source.stream = stream → stream.RunsOut s ∧
      ∃ ms, stream.Course limit s ms
        (.finished (parse source limit s).1 (parse source limit s).2) := by
  refine ⟨fun h => h.ends, TokenStream.ends_or_reads stream limit s, fun ms p h => ?_, ?_⟩
  · have hcount := h.count_le
    obtain ⟨q, hq, hmap⟩ := h.exists_logged {}
    obtain ⟨ts, last, hanswered, -⟩ := hq.exists_answered
    exact ⟨by omega, q, ts, last, hq, hmap, hanswered⟩
  · rintro source rfl
    exact ⟨TokenStream.runsOut_stream source s,
      (TokenStream.returns_parse source limit s).exists_course⟩

/-- A group is opened, and what comes then is no token. -/
theorem parse_ends_openParen :
    let opening : Token := ⟨.openParen, none, 0⟩
    let err : LexError := ⟨1, .invalidCodepoint⟩
    let s : Script := { entries := [⟨.ok opening, none⟩, ⟨.error err, none⟩] }
    let source := Script.source id
    let ms : List Move := [.reduce .emptySequence, .read]
    source.stream.Ends 100 s ∧
      (∃ s', source.stream.Course 100 s ms (.finished (.error (.lexical err)) s') ∧
        ms.countP (· ≠ .read) ≤ 7 * ms.count .read + 5 ∧
        ∃ q ts last, source.stream.logged.Course 100 (s, {}) ms q ∧
          q.map Prod.fst = .finished (.error (.lexical err)) s' ∧
          TokenStream.Answered ms q.state.2 ts last) ∧
      ∃ ms, source.stream.Course 100 s ms
        (.finished (parse source 100 s).1 (parse source 100 s).2) := by
  intro opening err s source ms
  have hends := parse_ends source.stream 100 s
  obtain ⟨hout, hparse⟩ := hends.2.2.2 source rfl
  have hcourse := (@TokenStream.Course.first _ source.stream 100 s opening _ rfl).move.move
  exact ⟨hends.1 hout, ⟨_, hcourse, hends.2.2.1 _ _ hcourse⟩, hparse⟩

end PatternAutomata
