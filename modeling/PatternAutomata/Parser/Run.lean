import PatternAutomata.Parser.Step

/-!
# The parser

Moves follow one another until the pattern is accepted or an error stops them. A move that reads a
token leaves less to read, and any other one lowers the rank of the place that the parser stands at.
-/
namespace PatternAutomata

variable {σ : Type}

namespace Configuration

/-- How many tokens may still be read, with the one that is read already. -/
def ahead (source : TokenSource σ) (c : Configuration σ) : Nat :=
  source.remaining c.state + if c.token.terminal = .eof then 0 else 1

/-- The rank of the place that the parser stands at. -/
def rank (c : Configuration σ) : Nat :=
  match c.stack with
  | [] => 0
  | top :: _ => top.place.rank

end Configuration

theorem remaining_announce_le (source : TokenSource σ) (rule : Rule) (v : Operand) (s : σ) :
    source.remaining (announce source rule v s).2 ≤ source.remaining s := by
  unfold announce
  split
  · split
    · exact source.onAtom_le _ _
    · exact Nat.le_refl _
  · exact Nat.le_refl _

/-- A reduction puts a place of smaller rank on top. -/
theorem reduce_decreases {source : TokenSource σ} {limit : Nat} {rule : Rule} {top : Slot}
    {below stack : List Slot} {t : Terminal} {s s' : σ} (h : action top.place t = .reduce rule)
    (hr : reduce source limit rule (top :: below) s = (.ok stack, s')) :
    source.remaining s' ≤ source.remaining s ∧
      ∃ slot rest, stack = slot :: rest ∧ slot.place.rank < top.place.rank := by
  unfold reduce at hr
  dsimp only at hr
  split at hr
  · simp at hr
  · split at hr
    · simp at hr
    · next v _ =>
      have hle := remaining_announce_le source rule v s
      split at hr
      · simp at hr
      · split at hr
        · simp at hr
        · next hg =>
          obtain ⟨hs, rfl⟩ := Prod.mk.inj hr
          exact ⟨hle, _, _, (Except.ok.inj hs).symm, rank_goto_lt h hg⟩

/-- Every move leaves fewer tokens ahead, or as many and a smaller rank. -/
theorem step_decreases {source : TokenSource σ} {limit : Nat} {c c' : Configuration σ}
    (h : step source limit c = .running c') :
    c'.ahead source < c.ahead source ∨ c'.ahead source = c.ahead source ∧ c'.rank < c.rank := by
  obtain ⟨token, stack, s⟩ := c
  cases stack with
  | nil => simp [step] at h
  | cons top below =>
    simp only [step] at h
    split at h
    · next place ha =>
      have hne := ne_eof_of_action_shift ha
      have hle := source.next_le s
      have hlt := source.next_lt s
      split at h
      · simp at h
      · next next s' hn =>
        obtain rfl := Progress.running.inj h
        left
        simp only [hn] at hle hlt
        simp only [Configuration.ahead, hne, if_false]
        split
        · omega
        · next hnext =>
          have := hlt next rfl hnext
          omega
    · next rule ha =>
      split at h
      · simp at h
      · next stack s' hr =>
        obtain rfl := Progress.running.inj h
        obtain ⟨hle, slot, rest, rfl, hrank⟩ := reduce_decreases ha hr
        simp only [Configuration.ahead, Configuration.rank]
        omega
    · simp at h
    · simp at h

/-- Move until the parse is finished. -/
def runFrom (source : TokenSource σ) (limit : Nat) (c : Configuration σ) :
    Except Error Automaton × σ :=
  match _h : step source limit c with
  | .finished result s => (result, s)
  | .running c' => runFrom source limit c'
termination_by (c.ahead source, c.rank)
decreasing_by
  rcases step_decreases _h with hlt | ⟨heq, hlt⟩
  · exact Prod.Lex.left _ _ hlt
  · rw [heq]
    exact Prod.Lex.right _ hlt

/-- Parse a whole pattern. The first error ends the parse. -/
def parse (source : TokenSource σ) (limit : Nat) (s : σ) : Except Error Automaton × σ :=
  match source.next s with
  | (.error e, s') => (.error (.lexical e), s')
  | (.ok token, s') => runFrom source limit ⟨token, [⟨.start, none⟩], s'⟩

end PatternAutomata
