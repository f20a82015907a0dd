import PatternAutomata.Proofs.Parser.Checked
import PatternAutomata.Proofs.Parser.Moments

/-!
# Who is to blame

Any source can drive the parser, with tokens of any kinds in any order and with any terms. The stack
holds out whatever comes: it is never empty, never too short for a rule, and there is always a way
on. What can go wrong is a term that is missing, and a count where something to repeat is needed.
Both travel up the grammar before they are noticed, but they always come from a token that was
pulled.
-/
namespace PatternAutomata

namespace Token

/-- Whether the kind of a token asks for a term that it does not have. For a count only a count will
do. -/
def Lacking (t : Token) : Prop :=
  match t.terminal with
  | .letters | .dot | .caret | .dollar => t.term = none
  | .count => ∀ least most, t.term ≠ some (.count least most)
  | _ => False

/-- Whether a token brings along a count where its kind asks for something to repeat. -/
def Misplaced (t : Token) : Prop :=
  match t.terminal with
  | .letters | .dot | .caret | .dollar => ∃ least most, t.term = some (.count least most)
  | _ => False

end Token

/-- What may be held against the tokens of a parse. -/
structure Blame where
  /-- A term is missing. -/
  lacking : Prop
  /-- A count stands out of its place. -/
  misplaced : Prop

/-- Whether an operand becomes an automaton. If it does not, it is a count out of its place. -/
def Operand.Usable (blame : Blame) : Operand → Prop
  | .automaton a => a.WellFormed
  | .term (.count _ _) => blame.misplaced
  | .term _ => True

theorem Operand.Usable.sound {blame : Blame} {v : Operand} (h : v.Usable blame) : v.Sound := by
  cases v with
  | term t => trivial
  | automaton a => exact h

namespace Blame
variable {blame : Blame} {limit : Nat} {e : Encoding}

/-- What the value of a symbol may be. -/
def Fits (blame : Blame) : Terminal ⊕ Symbol → Option Operand → Prop
  | .inr _, v => ∃ o, v = some o ∧ o.Usable blame
  | .inl .letters, v | .inl .dot, v | .inl .caret, v | .inl .dollar, v =>
    (v = none → blame.lacking) ∧ ∀ o, v = some o → o.Usable blame
  | .inl .count, v => blame.lacking ∨ ∃ least most, v = some (.term (.count least most))
  | .inl _, _ => True

/-- The errors that a parse may come to, and what has to be the case then. -/
def Excuses (blame : Blame) (limit : Nat) : Error → Prop
  | .lexical _ | .unexpected _ _ => True
  | .tooLarge n => n = limit
  | .internal .missingValue | .internal (.notCount _) => blame.lacking
  | .broken .bareCount => blame.misplaced
  | .internal _ | .broken _ => False

/-- What a computation may come to: a value with the property, or an error that is excused. -/
def Ends {α : Type} (blame : Blame) (limit : Nat) (p : α → Prop) : Except Error α → Prop
  | .ok v => p v
  | .error err => blame.Excuses limit err

theorem Ends.bind {α β : Type} {p : α → Prop} {q : β → Prop} {x : Except Error α}
    {f : α → Except Error β} (hx : blame.Ends limit p x)
    (hf : ∀ v, p v → blame.Ends limit q (f v)) : blame.Ends limit q (x >>= f) := by
  cases x with
  | error err => exact hx
  | ok v => exact hf v hx

/-! ## Rules -/

theorem ends_toAutomaton {v : Operand} (h : v.Usable blame) :
    blame.Ends limit Automaton.WellFormed (v.toAutomaton e) := by
  cases v with
  | automaton a => exact h
  | term t =>
    by_cases hmatching : t.Matching
    · obtain ⟨a, ha, hw, -⟩ := Operand.toAutomaton_spec (v := .term t) hmatching e
      rw [ha]
      exact hw
    · cases t with
      | count least most => exact h
      | _ => exact absurd trivial hmatching

theorem ends_appendTo {a : Automaton} {v : Operand} (ha : a.WellFormed) (h : v.Usable blame) :
    blame.Ends limit Automaton.WellFormed (v.appendTo a e) := by
  by_cases hmatching : v.Matching
  · obtain ⟨b, hb, hw, -⟩ := Operand.appendTo_spec ha hmatching e
    rw [hb]
    exact hw
  · cases v with
    | automaton b => exact absurd h hmatching
    | term t =>
      cases t with
      | count least most => exact h
      | _ => exact absurd trivial hmatching

theorem ends_mapError {bound : Nat} {p : Meaning} {x : Except BuildError Automaton}
    (h : Automaton.Builds limit bound p x) :
    blame.Ends limit Automaton.WellFormed (x.mapError Error.ofBuild) := by
  cases x with
  | ok d => exact h.wellFormed
  | error err =>
    obtain ⟨rfl, -⟩ := h
    rfl

theorem ends_guardSize (limit states : Nat) :
    blame.Ends limit (fun _ => True) (guardSize limit states) := by
  unfold guardSize
  split
  · exact rfl
  · trivial

theorem ends_repetitionBounds {count : Operand}
    (h : blame.lacking ∨ ∃ least most, count = .term (.count least most)) :
    blame.Ends limit (fun _ => True) (repetitionBounds count) := by
  cases h with
  | inl hlacking =>
    unfold repetitionBounds
    split
    · trivial
    · exact hlacking
  | inr hcount =>
    obtain ⟨least, most, rfl⟩ := hcount
    trivial

/-- What is taken as it is may be missing, if there is an excuse. -/
theorem ends_needed {v : Option Operand} (hnone : v = none → blame.lacking)
    (hsome : ∀ o, v = some o → o.Usable blame) :
    blame.Ends limit (·.Usable blame) (needed v) := by
  cases v with
  | none => exact hnone rfl
  | some o => exact hsome o rfl

theorem ends_count {v : Option Operand} (h : blame.Fits (.inl .count) v) :
    blame.Ends limit (fun o => blame.lacking ∨ ∃ least most, o = .term (.count least most))
      (needed v) := by
  cases v with
  | none =>
    cases h with
    | inl hlacking => exact hlacking
    | inr hcount =>
      obtain ⟨least, most, hcount⟩ := hcount
      cases hcount
  | some o =>
    cases h with
    | inl hlacking => exact .inl hlacking
    | inr hcount =>
      obtain ⟨least, most, hcount⟩ := hcount
      exact .inr ⟨least, most, Option.some.inj hcount⟩

theorem ends_repeatOperand {item count : Operand} (hitem : item.Usable blame)
    (hcount : blame.lacking ∨ ∃ least most, count = .term (.count least most)) :
    blame.Ends limit Automaton.WellFormed (repeatOperand limit e item count) := by
  refine (ends_repetitionBounds hcount).bind fun bounds _ => ?_
  refine (ends_toAutomaton hitem).bind fun a ha => ?_
  exact (ends_guardSize limit _).bind fun _ _ => ha.repeatBetween bounds.1 bounds.2

/-- A rule makes a usable value of values that fit its parts, or it fails with an excuse. -/
theorem ends_combine {rule : Rule} {vs : List (Option Operand)}
    (hvs : List.Forall₂ blame.Fits rule.parts vs) :
    blame.Ends limit (·.Usable blame) (combine limit e rule vs) := by
  cases rule with
  | emptySequence =>
    cases hvs
    exact Automaton.wellFormed_emptyText
  | pattern =>
    obtain _ | ⟨⟨v, rfl, hv⟩, _ | _⟩ := hvs
    exact (ends_toAutomaton hv).bind fun a ha => ha
  | firstAlternative | firstConjunct | plain | once =>
    obtain _ | ⟨⟨v, rfl, hv⟩, _ | _⟩ := hvs
    exact hv
  | letters | dot | caret | dollar =>
    obtain _ | ⟨⟨hnone, hsome⟩, _ | _⟩ := hvs
    exact ends_needed hnone hsome
  | nextAlternative =>
    obtain _ | ⟨⟨l, rfl, hl⟩, _ | ⟨-, _ | ⟨⟨r, rfl, hr⟩, _ | _⟩⟩⟩ := hvs
    refine (ends_toAutomaton hl).bind fun a ha => (ends_toAutomaton hr).bind fun b hb => ?_
    exact ha.union hb
  | nextConjunct =>
    obtain _ | ⟨⟨l, rfl, hl⟩, _ | ⟨-, _ | ⟨⟨r, rfl, hr⟩, _ | _⟩⟩⟩ := hvs
    refine (ends_toAutomaton hl).bind fun a ha => (ends_toAutomaton hr).bind fun b hb => ?_
    exact (ends_mapError (Automaton.builds_intersectUpTo ha hb limit)).bind fun c hc => hc
  | negated =>
    obtain _ | ⟨-, _ | ⟨⟨v, rfl, hv⟩, _ | _⟩⟩ := hvs
    refine (ends_toAutomaton hv).bind fun a ha => ?_
    exact (ends_mapError (Automaton.builds_complementUpTo ha limit)).bind fun c hc => hc
  | nextItem =>
    obtain _ | ⟨⟨v, rfl, hv⟩, _ | ⟨⟨item, rfl, hitem⟩, _ | _⟩⟩ := hvs
    refine (ends_toAutomaton hv).bind fun a ha => ?_
    exact (ends_appendTo ha hitem).bind fun b hb => hb
  | counted =>
    obtain _ | ⟨⟨item, rfl, hitem⟩, _ | ⟨hcount, _ | _⟩⟩ := hvs
    exact (ends_count hcount).bind fun count hcount =>
      (ends_repeatOperand hitem hcount).bind fun a ha => ha
  | group =>
    obtain _ | ⟨-, _ | ⟨⟨v, rfl, hv⟩, _ | ⟨-, _ | _⟩⟩⟩ := hvs
    exact (ends_toAutomaton hv).bind fun a ha => ha

/-! ## One move -/

section
variable {σ : Type} {source : TokenSource σ} {rule : Rule} {v : Operand} {s : σ}

/-- A hook that makes no loose automaton of a sound one keeps values usable. -/
theorem usable_announce (hhook : ∀ a s, a.WellFormed → (source.onAtom a s).1.WellFormed)
    (h : v.Usable blame) (rule : Rule) (s : σ) : (announce source rule v s).1.Usable blame := by
  cases v with
  | term t => exact h
  | automaton a =>
    by_cases hatom : rule.completesAtom = true
    · rw [announce, if_pos hatom]
      exact hhook a s h
    · rw [announce, if_neg hatom]
      exact h

theorem ends_guardOperand (h : v.Usable blame) :
    blame.Ends limit (·.Usable blame) (guardOperand limit v) := by
  cases v with
  | term t => exact h
  | automaton a =>
    by_cases hlarge : limit < a.size
    · rw [guardOperand, if_pos hlarge]
      exact rfl
    · rw [guardOperand, if_neg hlarge]
      exact h

/-- A reduction puts a usable value behind the place below, or it fails with an excuse. -/
theorem ends_reduce (hhook : ∀ a s, a.WellFormed → (source.onAtom a s).1.WellFormed)
    {stack below : List Slot} {slot : Slot} {q : Place}
    (hvs : List.Forall₂ blame.Fits rule.parts ((values stack).take rule.arity).reverse)
    (hdrop : stack.drop rule.arity = slot :: below) (hgoto : goto slot.place rule.symbol = some q)
    (s : σ) : blame.Ends limit
      (fun stack' => ∃ v, stack' = ⟨q, some v⟩ :: slot :: below ∧ v.Usable blame)
      (reduce source limit rule stack s).1 := by
  have hcombine : blame.Ends limit (·.Usable blame) (combine limit (source.encoding s) rule
      ((values stack).take rule.arity).reverse) := ends_combine hvs
  simp only [reduce, popValues_eq, List.append_nil, hdrop, hgoto]
  cases hv : combine limit (source.encoding s) rule ((values stack).take rule.arity).reverse with
  | error err =>
    rw [hv] at hcombine
    exact hcombine
  | ok v =>
    rw [hv] at hcombine
    have hguard : blame.Ends limit (·.Usable blame)
        (guardOperand limit (announce source rule v s).1) :=
      ends_guardOperand (usable_announce hhook hcombine rule s)
    cases hw : guardOperand limit (announce source rule v s).1 with
    | error err =>
      rw [hw] at hguard
      simp only [hw]
      exact hguard
    | ok w =>
      rw [hw] at hguard
      simp only [hw]
      exact ⟨w, rfl, hguard⟩

end

end Blame

/-- What holds of every stack. -/
structure Steady (blame : Blame) (stack : List Slot) : Prop where
  spells : ∃ ks, Spells (places stack) ks
  fits : ∀ slot ∈ stack, blame.Fits slot.place.via slot.value
  wellFormed : ∀ slot ∈ stack, ∀ a, slot.value = some (.automaton a) → a.WellFormed

/-- What a reduction finds: a state wherever one is looked up, and below the symbols of the rule a
place from which the table leads on. -/
structure Supported (limit : Nat) (e : Encoding) (rule : Rule) (stack : List Slot) : Prop where
  length_lt : rule.arity < stack.length
  checked : combineChecked limit e rule (popValues rule.arity stack []).1 =
    combine limit e rule (popValues rule.arity stack []).1
  transition : ∃ slot below q, (popValues rule.arity stack []).2 = slot :: below ∧
    goto slot.place rule.symbol = some q

namespace Steady
variable {blame : Blame} {σ : Type} {source : TokenSource σ} {limit : Nat} {token : Token}
  {top : Slot} {below : List Slot} {s : σ} {rule : Rule}

theorem start (blame : Blame) : Steady blame [⟨.start, none⟩] where
  spells := ⟨[], .start⟩
  fits slot hslot := by
    obtain rfl := List.mem_singleton.mp hslot
    trivial
  wellFormed slot hslot := by
    obtain rfl := List.mem_singleton.mp hslot
    nofun

theorem ne_nil {stack : List Slot} (h : Steady blame stack) : stack ≠ [] := by
  rintro rfl
  obtain ⟨ks, hspells⟩ := h.spells
  exact nomatch hspells

/-- Whatever lies on the stack, a rule has enough symbols, and a place to go on from. -/
theorem supported (h : Steady blame (top :: below)) (limit : Nat) (e : Encoding)
    (ha : action top.place token.terminal = .reduce rule) :
    Supported limit e rule (top :: below) := by
  obtain ⟨ks, hspells⟩ := h.spells
  obtain ⟨slot, rest, q, hdrop, hgoto, -, -⟩ := Spells.exists_reduction hspells h.fits ha
  have hpopped : popValues rule.arity (top :: below) [] =
      (((values (top :: below)).take rule.arity).reverse, slot :: rest) := by
    rw [popValues_eq, List.append_nil, hdrop]
  refine ⟨?_, ?_, slot, rest, q, congrArg Prod.snd hpopped, hgoto⟩
  · have hlength := congrArg List.length hdrop
    rw [List.length_drop, List.length_cons (a := slot)] at hlength
    omega
  · rw [hpopped]
    exact combineChecked_eq limit e (sound_values h.wellFormed rule.arity)

/-- The value that a token brings along fits its kind, or the token is to blame. -/
theorem fits_token (hlacking : token.Lacking → blame.lacking)
    (hmisplaced : token.Misplaced → blame.misplaced) :
    blame.Fits (.inl token.terminal) (token.term.map .term) := by
  obtain ⟨terminal, term, offset⟩ := token
  cases terminal with
  | letters | dot | caret | dollar =>
    refine ⟨fun hnone => hlacking (Option.map_eq_none_iff.mp hnone), fun o ho => ?_⟩
    obtain ⟨t, rfl, rfl⟩ := Option.map_eq_some_iff.mp ho
    cases t with
    | count least most => exact hmisplaced ⟨least, most, rfl⟩
    | choice | dot | anchor => trivial
  | count =>
    by_cases hcount : ∃ least most, term = some (.count least most)
    · obtain ⟨least, most, rfl⟩ := hcount
      exact .inr ⟨least, most, rfl⟩
    · exact .inl (hlacking fun least most heq => hcount ⟨least, most, heq⟩)
  | openParen | closeParen | pipe | amp | bang | eof => trivial

theorem shift (h : Steady blame (top :: below)) (hlacking : token.Lacking → blame.lacking)
    (hmisplaced : token.Misplaced → blame.misplaced) {q : Place}
    (ha : action top.place token.terminal = .shift q) :
    Steady blame (⟨q, token.term.map .term⟩ :: top :: below) := by
  obtain ⟨ks, hspells⟩ := h.spells
  refine ⟨⟨_, Spells.read hspells ha⟩, fun slot hslot => ?_, fun slot hslot a hvalue => ?_⟩
  · cases hslot with
    | head =>
      rw [(of_shift ha).1, via_place]
      exact fits_token hlacking hmisplaced
    | tail _ hslot => exact h.fits slot hslot
  · cases hslot with
    | head =>
      -- a token brings along a term and never an automaton
      cases hterm : token.term <;> simp [hterm] at hvalue
    | tail _ hslot => exact h.wellFormed slot hslot a hvalue

theorem reduce (h : Steady blame (top :: below))
    (hhook : ∀ a s, a.WellFormed → (source.onAtom a s).1.WellFormed)
    (ha : action top.place token.terminal = .reduce rule) (limit : Nat) (s : σ) :
    blame.Ends limit (Steady blame)
      (PatternAutomata.reduce source limit rule (top :: below) s).1 := by
  obtain ⟨ks, hspells⟩ := h.spells
  obtain ⟨slot, rest, q, hdrop, hgoto, hspells', hvs⟩ := Spells.exists_reduction hspells h.fits ha
  have hends : blame.Ends limit
      (fun stack' => ∃ v, stack' = ⟨q, some v⟩ :: slot :: rest ∧ v.Usable blame)
      (PatternAutomata.reduce source limit rule (top :: below) s).1 :=
    Blame.ends_reduce hhook hvs hdrop hgoto s
  generalize (PatternAutomata.reduce source limit rule (top :: below) s).1 = result at hends ⊢
  cases result with
  | error err => exact hends
  | ok stack =>
    obtain ⟨v, rfl, hv⟩ := hends
    have hrest (slot' : Slot) (hslot : slot' ∈ slot :: rest) : slot' ∈ top :: below :=
      List.mem_of_mem_drop (hdrop ▸ hslot)
    refine ⟨⟨ks, hspells'⟩, fun slot' hslot => ?_, fun slot' hslot a hvalue => ?_⟩
    · cases hslot with
      | head =>
        rw [via_of_goto hgoto]
        exact ⟨v, rfl, hv⟩
      | tail _ hslot => exact h.fits slot' (hrest slot' hslot)
    · cases hslot with
      | head =>
        obtain rfl := Option.some.inj hvalue
        exact hv
      | tail _ hslot => exact h.wellFormed slot' (hrest slot' hslot) a hvalue

theorem accept (h : Steady blame (top :: below)) (ha : action top.place token.terminal = .accept)
    (limit : Nat) (e : Encoding) :
    blame.Ends limit Automaton.WellFormed ((needed top.value).bind (·.toAutomaton e)) := by
  have hfits := h.fits top List.mem_cons_self
  rw [(of_accept ha).1] at hfits
  obtain ⟨v, hv, husable⟩ := hfits
  rw [hv]
  exact Blame.ends_toAutomaton husable

/-- One move keeps the stack steady, or ends the parse with a sound automaton or an excuse. -/
theorem step_spec {c : Configuration σ} (h : Steady blame c.stack)
    (hhook : ∀ a s, a.WellFormed → (source.onAtom a s).1.WellFormed)
    (hlacking : c.token.Lacking → blame.lacking)
    (hmisplaced : c.token.Misplaced → blame.misplaced) (limit : Nat) :
    (∀ c', step source limit c = .running c' → Steady blame c'.stack) ∧
      ∀ result s', step source limit c = .finished result s' →
        blame.Ends limit Automaton.WellFormed result := by
  obtain ⟨token, _ | ⟨top, below⟩, s⟩ := c
  · exact absurd rfl h.ne_nil
  · cases ha : action top.place token.terminal with
    | shift q =>
      rw [step_shift source limit below s ha]
      rcases source.next s with ⟨err | next, s'⟩
      · exact ⟨by simp, fun _ _ heq => (Progress.finished.inj heq).1 ▸ trivial⟩
      · refine ⟨fun c' heq => ?_, by simp⟩
        obtain rfl := Progress.running.inj heq
        exact h.shift hlacking hmisplaced ha
    | reduce rule =>
      have hends := h.reduce hhook ha limit s
      simp only [step, ha]
      rcases hreduce : PatternAutomata.reduce source limit rule (top :: below) s with
        ⟨err | stack, s'⟩ <;> rw [hreduce] at hends
      · exact ⟨by simp, fun _ _ heq => (Progress.finished.inj heq).1 ▸ hends⟩
      · exact ⟨fun c' heq => Progress.running.inj heq ▸ hends, by simp⟩
    | accept =>
      rw [step_accept source limit below s ha]
      refine ⟨by simp, fun _ _ heq => ?_⟩
      exact (Progress.finished.inj heq).1 ▸ h.accept ha limit (source.encoding s)
    | reject =>
      rw [step_reject source limit below s ha]
      exact ⟨by simp, fun _ _ heq => (Progress.finished.inj heq).1 ▸ trivial⟩

end Steady

/-! ## A whole parse -/

/-- Whether the next move finds all that it looks for. -/
structure Configuration.Moves {σ : Type} (limit : Nat) (e : Encoding) (c : Configuration σ) :
    Prop where
  nonempty : c.stack ≠ []
  reduce : ∀ top ∈ c.stack.head?, ∀ rule, action top.place c.token.terminal = .reduce rule →
    Supported limit e rule c.stack

namespace TokenStream
variable {σ : Type} {stream : TokenStream σ} {limit : Nat} {s₀ s : σ} {c : Configuration σ}
  {result : Except Error Automaton}

/-- Whether a token is pulled in the course of a parse. Every token pulled is ahead for a moment. -/
def Pulls (stream : TokenStream σ) (limit : Nat) (s₀ : σ) (t : Token) : Prop :=
  ∃ c, stream.Moment limit s₀ c ∧ c.token = t

/-- What the tokens pulled can be blamed for. -/
def blame (stream : TokenStream σ) (limit : Nat) (s₀ : σ) : Blame where
  lacking := ∃ t, stream.Pulls limit s₀ t ∧ t.Lacking
  misplaced := ∃ t, stream.Pulls limit s₀ t ∧ t.Misplaced

section
variable (hhook : ∀ a s, a.WellFormed → (stream.onAtom a s).1.WellFormed)
include hhook

theorem Moment.step_spec (h : stream.Moment limit s₀ c)
    (hc : Steady (stream.blame limit s₀) c.stack) :
    (∀ c', stream.move limit c = .running c' → Steady (stream.blame limit s₀) c'.stack) ∧
      ∀ result s', stream.move limit c = .finished result s' →
        (stream.blame limit s₀).Ends limit Automaton.WellFormed result := by
  have hupTo : ∀ a s, a.WellFormed → (stream.upTo.onAtom a s).1.WellFormed :=
    fun a s => hhook a s.1
  obtain ⟨hrunning, hfinished⟩ := Steady.step_spec (c := ⟨c.token, c.stack, (c.state, 1)⟩) hc hupTo
    (fun hlacking => ⟨c.token, ⟨c, h, rfl⟩, hlacking⟩)
    (fun hmisplaced => ⟨c.token, ⟨c, h, rfl⟩, hmisplaced⟩) limit
  constructor
  · intro c' hmove
    obtain ⟨n, hstep⟩ := move_running hmove
    exact hrunning _ hstep
  · intro result s' hmove
    obtain ⟨n, hstep⟩ := move_finished hmove
    exact hfinished _ _ hstep

theorem Moment.steady (h : stream.Moment limit s₀ c) :
    Steady (stream.blame limit s₀) c.stack := by
  induction h with
  | first h => exact .start _
  | next before hmove ih => exact (before.step_spec hhook ih).1 _ hmove

theorem Returns.ends (h : stream.Returns limit s₀ result s) :
    (stream.blame limit s₀).Ends limit Automaton.WellFormed result := by
  cases h with
  | refused h => trivial
  | finished before hmove => exact (before.step_spec hhook (before.steady hhook)).2 _ _ hmove

end

end TokenStream

/-- Whatever the tokens are, at every moment of a parse the next move finds a symbol on the stack,
enough symbols for a rule, a way on behind it and every state that is looked up. A parse ends with a
sound automaton, or with an error that blames the text or the limit, unless a term is missing or a
count stands out of its place in a token that was pulled. The tokens need not end. -/
theorem parse_blames {σ : Type} (stream : TokenStream σ) (limit : Nat) (s : σ)
    (hhook : ∀ a s, a.WellFormed → (stream.onAtom a s).1.WellFormed) :
    (∀ c, stream.Moment limit s c → c.Moves limit (stream.encoding c.state)) ∧
    (∀ result s', stream.Returns limit s result s' →
      (stream.blame limit s).Ends limit Automaton.WellFormed result) ∧
    ∀ source : TokenSource σ, source.stream = stream →
      (stream.blame limit s).Ends limit Automaton.WellFormed (parse source limit s).1 := by
  refine ⟨fun c hc => ?_, fun result s' h => h.ends hhook, ?_⟩
  · have hsteady := hc.steady hhook
    obtain ⟨token, _ | ⟨top, below⟩, state⟩ := c
    · exact absurd rfl hsteady.ne_nil
    · refine ⟨hsteady.ne_nil, fun top' htop rule ha => ?_⟩
      obtain rfl := Option.some.inj htop
      exact hsteady.supported limit _ ha
  · intro source heq
    subst heq
    exact (TokenStream.returns_parse source limit s).ends hhook

/-- A count in the place of a letter passes two rules before it is noticed. -/
theorem parse_blames_bareCount :
    let count : Token := ⟨.letters, some (.count 2 .infinity), 0⟩
    let s : Script := { entries := [⟨.ok count, none⟩] }
    let source := Script.source (Automaton.union .emptyText)
    (∀ a s, a.WellFormed → (source.onAtom a s).1.WellFormed) ∧
    (parse source 100 s).1 = .error (.broken .bareCount) ∧
    ∃ t, source.stream.Pulls 100 s t ∧ t.Misplaced := by
  intro count s source
  have hhook (a : Automaton) (s : Script) (h : a.WellFormed) :
      (source.onAtom a s).1.WellFormed := Automaton.wellFormed_emptyText.union h
  have hparse : (parse source 100 s).1 = .error (.broken .bareCount) :=
    apply_parse_of_parseWithin (n := 10) Prod.fst (by decide +kernel)
  have hblame := (parse_blames source.stream 100 s hhook).2.2 source rfl
  rw [hparse] at hblame
  exact ⟨hhook, hparse, hblame⟩

end PatternAutomata
