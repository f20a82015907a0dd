import PatternAutomata.Proofs.Parser.Checked
import PatternAutomata.Proofs.Parser.Moments
import PatternAutomata.Proofs.Scanner
import PatternAutomata.Proofs.Scanner.Position

/-!
# Safety

The parser never misses what it looks for, as long as its tokens have the terms that their kinds
promise: a value for every symbol that a rule reads, a way on below the symbols of a rule, a state
for every number in an automaton. The tokens of a text have their terms, also those behind others
that cannot be read. So a text compiles, or it is the text or the limit that is to blame.
-/
namespace PatternAutomata

variable {σ : Type} {source : TokenSource σ} {inv : σ → Prop} {limit : Nat}

/-- A source whose tokens have the terms that they need, and that leaves automata alone. It may
fail. `inv` holds of its states. -/
structure TokenSource.Sound (source : TokenSource σ) (inv : σ → Prop) : Prop where
  meaningful : ∀ s t, (source.next s).1 = .ok t → t.Meaningful
  next : ∀ s, inv s → inv (source.next s).2
  onAtom : ∀ a s, inv s → (source.onAtom a s).1 = a ∧ inv (source.onAtom a s).2

theorem TokenSource.Sound.harmless (sound : source.Sound inv) :
    Hook.Harmless source.onAtom inv where
  kept a s hs := (sound.onAtom a s hs).2
  denotes a s p n hs ha := by rwa [(sound.onAtom a s hs).1]

/-! ## What the parser may come to -/

/-- What a parse may come to: an automaton in which every number belongs to a state, or an error
that blames the text or the limit. -/
def Outcome (limit : Nat) : Except Error Automaton → Prop
  | .ok a => a.WellFormed
  | .error (.lexical _) | .error (.unexpected _ _) => True
  | .error (.tooLarge n) => n = limit
  | .error (.internal _) | .error (.broken _) => False

/-- What a reduction finds on the stack: values that fit the parts of the rule, a state wherever one
is looked up, and below the symbols of the rule a place from which the table leads on. -/
structure Reducible (limit : Nat) (e : Encoding) (rule : Rule) (stack : List Slot) : Prop where
  fitting : List.Forall₂ Fitting rule.parts (popValues rule.arity stack []).1
  checked : combineChecked limit e rule (popValues rule.arity stack []).1 =
    combine limit e rule (popValues rule.arity stack []).1
  transition : ∃ slot below q, (popValues rule.arity stack []).2 = slot :: below ∧
    goto slot.place rule.symbol = some q

namespace Configuration

/-- Whether the next move finds all that it looks for. -/
structure Safe (limit : Nat) (e : Encoding) (c : Configuration σ) : Prop where
  nonempty : c.stack ≠ []
  wellFormed : ∀ slot ∈ c.stack, ∀ a, slot.value = some (.automaton a) → a.WellFormed
  reduce : ∀ top ∈ c.stack.head?, ∀ rule, action top.place c.token.terminal = .reduce rule →
    Reducible limit e rule c.stack
  accept : ∀ top ∈ c.stack.head?, action top.place c.token.terminal = .accept →
    ∃ v a, top.value = some v ∧ v.build e = .ok a ∧ a.WellFormed

/-- What holds at every moment of a parse over a sound source. -/
structure Orderly (inv : σ → Prop) (c : Configuration σ) : Prop where
  state : inv c.state
  meaningful : c.token.Meaningful
  spells : ∃ ks, Spells (places c.stack) ks
  fitting : ∀ slot ∈ c.stack, Fitting slot.place.via slot.value
  wellFormed : ∀ slot ∈ c.stack, ∀ a, slot.value = some (.automaton a) → a.WellFormed

theorem orderly_first {token : Token} {s : σ} (hs : inv s) (ht : token.Meaningful) :
    Orderly inv ⟨token, [⟨.start, none⟩], s⟩ where
  state := hs
  meaningful := ht
  spells := ⟨[], .start⟩
  fitting slot hslot := by
    obtain rfl := List.mem_singleton.mp hslot
    trivial
  wellFormed slot hslot := by
    obtain rfl := List.mem_singleton.mp hslot
    nofun

namespace Orderly
variable {token : Token} {top : Slot} {below : List Slot} {s : σ}

theorem safe {c : Configuration σ} (h : c.Orderly inv) (limit : Nat) (e : Encoding) :
    c.Safe limit e := by
  obtain ⟨token, _ | ⟨top, below⟩, s⟩ := c
  · obtain ⟨ks, hspells⟩ := h.spells
    exact nomatch hspells
  · refine ⟨List.cons_ne_nil _ _, h.wellFormed, ?_, ?_⟩
    · rintro _ ⟨⟩ rule ha
      obtain ⟨ks, hspells⟩ := h.spells
      obtain ⟨slot, rest, q, hdrop, hgoto, -, hvalues⟩ :=
        Spells.exists_reduction hspells h.fitting ha
      have hpopped : popValues rule.arity (top :: below) [] =
          (((values (top :: below)).take rule.arity).reverse, slot :: rest) := by
        rw [popValues_eq, List.append_nil, hdrop]
      constructor
      · rwa [hpopped]
      · rw [hpopped]
        exact combineChecked_eq limit e (sound_values h.wellFormed rule.arity)
      · exact ⟨slot, rest, q, congrArg Prod.snd hpopped, hgoto⟩
    · rintro _ ⟨⟩ ha
      simp only [Operand.build_eq]
      exact built_of_accept (h.fitting top (.head _)) ha e

/-! ## One move -/

theorem shift (h : Orderly inv ⟨token, top :: below, s⟩) (sound : source.Sound inv) (limit : Nat)
    {q : Place} (ha : action top.place token.terminal = .shift q) :
    (∃ c, step source limit ⟨token, top :: below, s⟩ = .running c ∧ c.Orderly inv) ∨
      ∃ err s', step source limit ⟨token, top :: below, s⟩ = .finished (.error (.lexical err)) s' ∧
        inv s' := by
  have hs' := sound.next s h.state
  have hmeaningful := sound.meaningful s
  rw [step_shift source limit below s ha]
  rcases hnext : source.next s with ⟨err | next, s'⟩ <;> rw [hnext] at hs' hmeaningful
  · exact .inr ⟨err, s', rfl, hs'⟩
  · refine .inl ⟨_, rfl, hs', hmeaningful next rfl, ?_, ?_, ?_⟩
    · obtain ⟨ks, hspells⟩ := h.spells
      exact ⟨_, Spells.read hspells ha⟩
    · rintro slot (_ | ⟨_, hslot⟩)
      · rw [(of_shift ha).1, via_place]
        exact h.meaningful.fitting
      · exact h.fitting slot hslot
    · rintro slot (_ | ⟨_, hslot⟩) a hvalue
      · -- a token brings along a term and never an automaton
        cases hterm : token.term <;> simp [hterm] at hvalue
      · exact h.wellFormed slot hslot a hvalue

theorem reduce (h : Orderly inv ⟨token, top :: below, s⟩) (sound : source.Sound inv) (limit : Nat)
    {rule : Rule} (ha : action top.place token.terminal = .reduce rule) :
    (∃ c, step source limit ⟨token, top :: below, s⟩ = .running c ∧ c.Orderly inv) ∨
      ∃ s', step source limit ⟨token, top :: below, s⟩ = .finished (.error (.tooLarge limit)) s' ∧
        inv s' := by
  obtain ⟨ks, hspells⟩ := h.spells
  obtain ⟨slot, rest, q, hdrop, hgoto, hspells', hvalues⟩ :=
    Spells.exists_reduction hspells h.fitting ha
  obtain ⟨p, n, hyields⟩ := settle_fitting limit (source.encoding s) sound.harmless hvalues
  obtain ⟨hs', hpost⟩ := hyields s h.state
  rw [step_reduce source limit below s ha hdrop hgoto]
  generalize (settle limit (source.encoding s) source.onAtom rule
    ((values (top :: below)).take rule.arity).reverse).run s = r at hs' hpost
  have hrest : ∀ slot' ∈ slot :: rest, slot' ∈ top :: below := fun slot' hslot =>
    List.mem_of_mem_drop (hdrop ▸ hslot)
  obtain ⟨err | v, s'⟩ := r
  · obtain ⟨rfl, -⟩ := hpost
    exact .inr ⟨s', rfl, hs'⟩
  · refine .inl ⟨_, rfl, hs', h.meaningful, ⟨ks, hspells'⟩, ?_, ?_⟩
    · rintro slot' (_ | ⟨_, hslot⟩)
      · rw [via_of_goto hgoto]
        exact ⟨v, rfl, hpost.matching⟩
      · exact h.fitting slot' (hrest slot' hslot)
    · rintro slot' (_ | ⟨_, hslot⟩) a hvalue
      · obtain rfl := Option.some.inj hvalue
        exact hpost.matching
      · exact h.wellFormed slot' (hrest slot' hslot) a hvalue

/-- One move keeps order, or ends the parse as it may end. -/
theorem step_spec {c : Configuration σ} (h : c.Orderly inv) (sound : source.Sound inv)
    (limit : Nat) :
    (∃ c', step source limit c = .running c' ∧ c'.Orderly inv) ∨
      ∃ result s', step source limit c = .finished result s' ∧ Outcome limit result ∧ inv s' := by
  obtain ⟨token, _ | ⟨top, below⟩, s⟩ := c
  · obtain ⟨ks, hspells⟩ := h.spells
    exact nomatch hspells
  · cases ha : action top.place token.terminal with
    | shift q =>
      rcases h.shift sound limit ha with hrunning | ⟨err, s', hstep, hs'⟩
      · exact .inl hrunning
      · exact .inr ⟨_, s', hstep, trivial, hs'⟩
    | reduce rule =>
      rcases h.reduce sound limit ha with hrunning | ⟨s', hstep, hs'⟩
      · exact .inl hrunning
      · exact .inr ⟨_, s', hstep, rfl, hs'⟩
    | accept =>
      obtain ⟨v, a, hv, hautomaton, hw⟩ :=
        built_of_accept (h.fitting top (.head _)) ha (source.encoding s)
      refine .inr ⟨.ok a, s, ?_, hw, h.state⟩
      rw [step_accept source limit below s ha, hv]
      exact congrArg (Progress.finished · s) hautomaton
    | reject => exact .inr ⟨_, s, step_reject source limit below s ha, trivial, h.state⟩

end Orderly

end Configuration

/-! ## A whole parse -/

namespace TokenStream
variable {c : Configuration σ} {s₀ s : σ} {result : Except Error Automaton}

theorem Moment.orderly (h : source.stream.Moment limit s₀ c) (sound : source.Sound inv)
    (hs : inv s₀) : c.Orderly inv := by
  refine Moment.invariant (fun token s hnext => ?_) (fun c c' hc hmove => ?_) h
  · have hs' := sound.next s₀ hs
    rw [show source.next s₀ = (.ok token, s) from hnext] at hs'
    exact Configuration.orderly_first hs' (sound.meaningful s₀ token (congrArg Prod.fst hnext))
  · rw [move_stream] at hmove
    rcases hc.step_spec sound limit with ⟨c'', hstep, horderly⟩ | ⟨_, _, hstep, -⟩
    · obtain rfl := Progress.running.inj (hmove.symm.trans hstep)
      exact horderly
    · cases hmove.symm.trans hstep

theorem Returns.outcome (h : source.stream.Returns limit s₀ result s) (sound : source.Sound inv)
    (hs : inv s₀) : Outcome limit result ∧ inv s := by
  cases h with
  | refused hnext =>
    have hs' := sound.next s₀ hs
    rw [show source.next s₀ = (.error _, s) from hnext] at hs'
    exact ⟨trivial, hs'⟩
  | finished before hmove =>
    rw [move_stream] at hmove
    rcases (before.orderly sound hs).step_spec sound limit with ⟨_, hstep, -⟩ | ⟨_, _, hstep, h⟩
    · cases hmove.symm.trans hstep
    · obtain ⟨rfl, rfl⟩ := Progress.finished.inj (hmove.symm.trans hstep)
      exact h

end TokenStream

/-- The scanner has the right term for every token, and it always stands in its text. -/
theorem Scanner.sound (text : String) : Scanner.source.Sound (Scanner.Within text) where
  meaningful _ _ h := (Scanner.lexical_next h).meaningful
  next _ hs := hs.next
  onAtom _ _ hs := ⟨rfl, hs.place, hs.depth_le⟩

/-- Whatever the text and the options are, and however many tokens were asked for before, a parse
ends with a sound automaton, or with an error that blames the text or the limit. Until then every
move finds what it looks for, and the scanner stands where its text can be cut. -/
theorem parse_safe (config : Config) (text : String) (hsize : text.utf8ByteSize < 2 ^ 31)
    (calls limit : Nat) :
    let s := (Scanner.ofText config text).skip calls
    s.Secure text ∧
    (∀ c, Scanner.source.stream.Moment limit s c →
      c.Safe limit c.state.config.encoding ∧ c.state.Secure text) ∧
    Outcome limit (parse Scanner.source limit s).1 ∧
    (parse Scanner.source limit s).2.Secure text := by
  intro s
  have hs : s.Within text := (Scanner.within_ofText config text).skip calls
  have hreturns := TokenStream.returns_parse Scanner.source limit s
  obtain ⟨houtcome, hend⟩ := hreturns.outcome (Scanner.sound text) hs
  refine ⟨hs.secure hsize, fun c hc => ?_, houtcome, hend.secure hsize⟩
  have horderly := hc.orderly (Scanner.sound text) hs
  exact ⟨horderly.safe limit _, horderly.state.secure hsize⟩

/-- A call fails behind a character of three bytes, and the rest is parsed from there. -/
theorem parse_safe_failedToken :
    let text := "a\\x€(b"
    let s := (Scanner.ofText {} text).skip 2
    text.utf8ByteSize < 2 ^ 31 ∧
    ((Scanner.ofText {} text).skip 1).next.1 = .error ⟨1, .invalidCodepoint⟩ ∧
    s.cursor = ⟨['(', 'b'], 6⟩ ∧ s.Secure text ∧
    (∀ c, Scanner.source.stream.Moment 100 s c →
      c.Safe 100 c.state.config.encoding ∧ c.state.Secure text) ∧
    Outcome 100 (parse Scanner.source 100 s).1 ∧
    (parse Scanner.source 100 s).2.Secure text := by
  intro text s
  have hsize : text.utf8ByteSize < 2 ^ 31 := by decide
  exact ⟨hsize, by decide +kernel, by decide +kernel, parse_safe {} text hsize 2 100⟩

end PatternAutomata
