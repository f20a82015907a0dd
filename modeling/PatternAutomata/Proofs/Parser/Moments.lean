import PatternAutomata.Proofs.Parser.Lockstep

/-!
# The moments of a parse

A parse seen move by move, so that something can be said of every moment of it, also where the
tokens never end. A stream of tokens need not run dry. As one move pulls one token at most, it is
made on a source that hands out one more answer of the stream and has nothing left then.
-/
namespace PatternAutomata

variable {σ : Type}

/-! ## A number of moves

A parse recurses on what is left of its source. A recursion on the number of moves does the same and
can be computed.
-/

/-- What comes of `n` moves, or of fewer if the parse is finished before. -/
def moves (source : TokenSource σ) (limit : Nat) : Nat → Configuration σ → Progress σ
  | 0, c => .running c
  | n + 1, c =>
    match step source limit c with
    | .finished result s => .finished result s
    | .running c' => moves source limit n c'

/-- Where a parse stands, unless it is finished. -/
def Progress.running? : Progress σ → Option (Configuration σ)
  | .running c => some c
  | .finished _ _ => none

/-- How a parse ended, if it is finished. -/
def Progress.finished? : Progress σ → Option (Except Error Automaton × σ)
  | .running _ => none
  | .finished result s => some (result, s)

/-- How a parse ends, if it takes `n` moves at most. -/
def parseWithin (n : Nat) (source : TokenSource σ) (limit : Nat) (s : σ) :
    Option (Except Error Automaton × σ) :=
  match source.next s with
  | (.error e, s') => some (.error (.lexical e), s')
  | (.ok token, s') => (moves source limit n ⟨token, [⟨.start, none⟩], s'⟩).finished?

section
variable {source : TokenSource σ} {limit n : Nat} {s : σ} {x : Except Error Automaton × σ}

theorem runFrom_of_moves {c : Configuration σ}
    (h : (moves source limit n c).finished? = some x) : runFrom source limit c = x := by
  induction n generalizing c with
  | zero => cases h
  | succ n ih =>
    unfold moves at h
    split at h
    · next hstep =>
      rw [runFrom_finished hstep]
      exact Option.some.inj h
    · next hstep =>
      rw [runFrom_running hstep]
      exact ih h

theorem parse_of_parseWithin (h : parseWithin n source limit s = some x) :
    parse source limit s = x := by
  unfold parseWithin at h
  unfold parse
  generalize source.next s = y at h ⊢
  rcases y with ⟨err | token, s'⟩
  · exact Option.some.inj h
  · exact runFrom_of_moves h

/-- Whatever can be computed of the outcome is right. -/
theorem apply_parse_of_parseWithin {α : Type} (f : Except Error Automaton × σ → α) {y : α}
    (h : (parseWithin n source limit s).map f = some y) : f (parse source limit s) = y := by
  obtain ⟨x, hx, rfl⟩ := Option.map_eq_some_iff.mp h
  rw [parse_of_parseWithin hx]

/-- So there is an automaton if anything of one is computed. -/
theorem exists_ok_of_parseWithin {α : Type} (f : Automaton → α) {y : α}
    (h : (parseWithin n source limit s).map (·.1.map f) = some (.ok y)) :
    ∃ a, (parse source limit s).1 = .ok a ∧ f a = y := by
  have hmap : (parse source limit s).1.map f = .ok y := apply_parse_of_parseWithin (·.1.map f) h
  cases ha : (parse source limit s).1 with
  | error err =>
    rw [ha] at hmap
    cases hmap
  | ok a =>
    rw [ha] at hmap
    exact ⟨a, rfl, Except.ok.inj hmap⟩

end

/-! ## Streams -/

/-- What tokens are pulled from, without the promise that they run out. -/
structure TokenStream (σ : Type) where
  /-- Pull the next token. -/
  next : σ → Except LexError Token × σ
  /-- The encoding in force. -/
  encoding : σ → Encoding
  /-- Take note of a completed atom, and possibly replace its automaton. -/
  onAtom : Automaton → σ → Automaton × σ

/-- A source is a stream. -/
def TokenSource.stream (source : TokenSource σ) : TokenStream σ where
  next := source.next
  encoding := source.encoding
  onAtom := source.onAtom

namespace TokenStream

/-- The source that hands out as many answers of the stream as its state says, and the end of the
pattern for ever after. -/
def upTo (stream : TokenStream σ) : TokenSource (σ × Nat) where
  next s :=
    match s.2 with
    | 0 => (.ok ⟨.eof, none, 0⟩, s)
    | n + 1 => ((stream.next s.1).1, (stream.next s.1).2, n)
  encoding s := stream.encoding s.1
  onAtom a s := ((stream.onAtom a s.1).1, (stream.onAtom a s.1).2, s.2)
  remaining s := s.2
  next_le s := by
    obtain ⟨s, _ | n⟩ := s
    · exact Nat.le_refl _
    · exact Nat.le_succ _
  next_lt s t h ht := by
    obtain ⟨s, _ | n⟩ := s
    · obtain rfl := Except.ok.inj h
      exact absurd rfl ht
    · exact Nat.lt_succ_self _
  onAtom_le _ _ := Nat.le_refl _

/-- A move of the parser over a stream. -/
def move (stream : TokenStream σ) (limit : Nat) (c : Configuration σ) : Progress σ :=
  match step stream.upTo limit ⟨c.token, c.stack, (c.state, 1)⟩ with
  | .running c' => .running ⟨c'.token, c'.stack, c'.state.1⟩
  | .finished result s => .finished result s.1

section
variable (stream : TokenStream σ) (limit : Nat) (s₀ : σ)

/-- What the parser comes by between two of its moves. -/
inductive Moment : Configuration σ → Prop
  | first {token : Token} {s : σ} (h : stream.next s₀ = (.ok token, s)) :
    Moment ⟨token, [⟨.start, none⟩], s⟩
  | next {c c' : Configuration σ} (before : Moment c) (h : stream.move limit c = .running c') :
    Moment c'

/-- What a parse ends with, if it ends. -/
inductive Returns : Except Error Automaton → σ → Prop
  | refused {err : LexError} {s : σ} (h : stream.next s₀ = (.error err, s)) :
    Returns (.error (.lexical err)) s
  | finished {c : Configuration σ} {result : Except Error Automaton} {s : σ}
    (before : Moment stream limit s₀ c) (h : stream.move limit c = .finished result s) :
    Returns result s

end

variable {stream : TokenStream σ} {limit : Nat} {s₀ : σ} {c c' : Configuration σ}

/-- What holds at first and is kept by every move holds at every moment. -/
theorem Moment.invariant {P : Configuration σ → Prop}
    (first : ∀ token s, stream.next s₀ = (.ok token, s) → P ⟨token, [⟨.start, none⟩], s⟩)
    (keeps : ∀ c c', P c → stream.move limit c = .running c' → P c')
    (h : stream.Moment limit s₀ c) : P c := by
  induction h with
  | first h => exact first _ _ h
  | next _ h ih => exact keeps _ _ ih h

theorem move_running (h : stream.move limit c = .running c') :
    ∃ n, step stream.upTo limit ⟨c.token, c.stack, (c.state, 1)⟩ =
      .running ⟨c'.token, c'.stack, (c'.state, n)⟩ := by
  unfold move at h
  split at h
  · next d hd =>
    obtain rfl := Progress.running.inj h
    exact ⟨d.state.2, hd⟩
  · cases h

theorem move_finished {result : Except Error Automaton} {s : σ}
    (h : stream.move limit c = .finished result s) :
    ∃ n, step stream.upTo limit ⟨c.token, c.stack, (c.state, 1)⟩ = .finished result (s, n) := by
  unfold move at h
  split at h
  · cases h
  · next result' s' hd =>
    obtain ⟨rfl, rfl⟩ := Progress.finished.inj h
    exact ⟨s'.2, hd⟩

theorem echoes_upTo (source : TokenSource σ) (s : σ) :
    source.stream.upTo.Echoes source (fun _ => False) (fun s s' => s.1 = s') (s, 1) s where
  now := rfl
  encoding := rfl
  next := by
    rcases hnext : source.next s with ⟨result, s'⟩
    have hfirst : source.stream.upTo.next (s, 1) = (result, s', 0) := by
      simp [upTo, TokenSource.stream, hnext]
    rw [hfirst]
    exact .same result rfl
  onAtom _ := ⟨rfl, rfl⟩

/-- Over a source, a move is what the parser does. -/
theorem move_stream (source : TokenSource σ) (limit : Nat) (c : Configuration σ) :
    source.stream.move limit c = step source limit c := by
  have h := step_together (echoes_upTo source c.state) (.refl _ limit) c.token c.stack
  unfold move
  generalize step source.stream.upTo limit ⟨c.token, c.stack, (c.state, 1)⟩ = x at h ⊢
  generalize step source limit ⟨c.token, c.stack, c.state⟩ = y at h ⊢
  cases h with
  | refused h => exact h.elim
  | finished result h =>
    subst h
    rfl
  | running token stack h =>
    subst h
    rfl

/-- Some moves behind a moment there is another one, of which all that can be computed is right. -/
theorem Moment.exists_of_moves {source : TokenSource σ} {n : Nat} {α : Type}
    (f : Configuration σ → α) {y : α} (h : source.stream.Moment limit s₀ c)
    (hmoves : (moves source limit n c).running?.map f = some y) :
    ∃ c', source.stream.Moment limit s₀ c' ∧ f c' = y := by
  induction n generalizing c with
  | zero => exact ⟨c, h, Option.some.inj hmoves⟩
  | succ n ih =>
    unfold moves at hmoves
    split at hmoves
    · cases hmoves
    · next hstep => exact ih (h.next ((move_stream source limit c).trans hstep)) hmoves

theorem Moment.returns_runFrom {source : TokenSource σ} (h : source.stream.Moment limit s₀ c) :
    source.stream.Returns limit s₀ (runFrom source limit c).1 (runFrom source limit c).2 := by
  induction c using runFrom.induct source limit with
  | case1 c result s hstep =>
    rw [runFrom_finished hstep]
    exact .finished h ((move_stream source limit c).trans hstep)
  | case2 c c' hstep ih =>
    rw [runFrom_running hstep]
    exact ih (h.next ((move_stream source limit c).trans hstep))

/-- Over a source, the parser comes to the end that it returns. -/
theorem returns_parse (source : TokenSource σ) (limit : Nat) (s : σ) :
    source.stream.Returns limit s (parse source limit s).1 (parse source limit s).2 := by
  unfold parse
  split
  · next hnext => exact .refused hnext
  · next hnext => exact (Moment.first hnext).returns_runFrom

end TokenStream

end PatternAutomata
