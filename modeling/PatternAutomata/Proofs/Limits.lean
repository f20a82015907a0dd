import PatternAutomata.Compile
import PatternAutomata.Proofs.Parser.Moments
import PatternAutomata.Proofs.Scanner.Locality

/-!
# Limits only refuse

A pattern that compiles under a limit, or fails for another reason than that limit, does the same
under every larger one.
-/
namespace PatternAutomata

/-- The limits of a configuration. -/
inductive Limit where
  | nesting
  | classSize
  | repetition
  | size

namespace Limit

/-- The configuration with one of its limits replaced. -/
def set : Limit → Nat → Config → Config
  | .nesting, n, config => { config with nestLimit := n }
  | .classSize, n, config => { config with classLimit := n }
  | .repetition, n, config => { config with repetitionLimit := n }
  | .size, n, config => { config with sizeLimit := n }

/-- Whether a text is not read on because a limit is exceeded. -/
def RefusesToken (limit : Limit) (err : LexError) : Prop :=
  match limit with
  | .nesting => ∃ n, err.cause = .nestLimitExceeded n
  | .classSize => ∃ n, err.cause = .classTooLarge n
  | .repetition => ∃ n, err.cause = .repetitionTooLarge n
  | .size => False

/-- Whether an error says that a limit is exceeded. -/
def Refuses (limit : Limit) : Error → Prop
  | .lexical err => limit.RefusesToken err
  | .tooLarge _ => limit = .size
  | _ => False

/-- Whether the second configuration is the first one with one of its limits raised. -/
inductive Raises (limit : Limit) : Config → Config → Prop
  | intro (config : Config) {n m : Nat} (h : n ≤ m) :
    Raises limit (limit.set n config) (limit.set m config)

/-- Whether the second scanner is the first one under a raised limit. -/
inductive RaisesFor (limit : Limit) : Scanner → Scanner → Prop
  | intro {s : Scanner} {config : Config} (h : limit.Raises s.config config) :
    RaisesFor limit s { s with config := config }

/-! ## Terms -/

namespace Raises
variable {limit : Limit} {config config' : Config}

theorem encoding (h : limit.Raises config config') : config'.encoding = config.encoding := by
  obtain ⟨config, -⟩ := h
  cases limit <;> rfl

theorem termOfLetter (h : limit.Raises config config') (c : Char) :
    Scanner.termOfLetter config' c = Scanner.termOfLetter config c := by
  obtain ⟨config, -⟩ := h
  cases limit <;> rfl

theorem termOfClass (h : limit.Raises config config') (origin : Nat) (members : CharClass)
    (negated : Bool) : SameUnless limit.RefusesToken
      (Scanner.termOfClass config origin members negated)
      (Scanner.termOfClass config' origin members negated) := by
  obtain ⟨config, hle⟩ := h
  cases limit with
  | classSize => exact .exceed (fun n => LexError.mk origin (.classTooLarge n)) hle ⟨_, rfl⟩ _ _
  | _ => exact .refl _ _

theorem checkBounds (h : limit.Raises config config') (origin least : Nat) (most : Bound) :
    SameUnless limit.RefusesToken
      (PatternAutomata.checkBounds origin config.repetitionLimit least most)
      (PatternAutomata.checkBounds origin config'.repetitionLimit least most) := by
  obtain ⟨config, hle⟩ := h
  cases limit with
  | repetition =>
    cases most <;>
      exact .exceed (fun n => LexError.mk origin (.repetitionTooLarge n)) hle ⟨_, rfl⟩ _ _
  | _ => exact .refl _ _

theorem nestLimit (h : limit.Raises config config') : config'.nestLimit = config.nestLimit ∨
    limit = .nesting ∧ config.nestLimit ≤ config'.nestLimit := by
  obtain ⟨config, hle⟩ := h
  cases limit with
  | nesting => exact .inr ⟨rfl, hle⟩
  | _ => exact .inl rfl

theorem sizeLimit (h : limit.Raises config config') :
    Looser limit.Refuses config.sizeLimit config'.sizeLimit := by
  obtain ⟨config, hle⟩ := h
  cases limit with
  | size => exact .inr ⟨hle, rfl⟩
  | _ => exact .inl rfl

theorem readClass (h : limit.Raises config config') (origin : Nat) (cur : Cursor) :
    Together limit.RefusesToken Eq (Scanner.readClass config origin cur)
      (Scanner.readClass config' origin cur) := by
  simp only [Scanner.readClass, h.encoding]
  rcases readItems config.encoding origin [] (Scanner.openClass cur).2
    with ⟨err | _ | ⟨r, rs⟩, after⟩
  · exact .same _ rfl
  · exact .same _ rfl
  · exact (h.termOfClass origin (.ofRanges (r :: rs)) _).together rfl

theorem readEscaped (h : limit.Raises config config') (origin : Nat) (cur : Cursor) :
    Together limit.RefusesToken Eq (Scanner.readEscaped config origin cur)
      (Scanner.readEscaped config' origin cur) := by
  simp only [Scanner.readEscaped, h.termOfLetter]
  rcases readEscape origin cur with ⟨err | c | ⟨members, negated⟩, after⟩
  · exact .same _ rfl
  · exact .same _ rfl
  · exact (h.termOfClass origin members negated).together rfl

theorem readCount (h : limit.Raises config config') (origin : Nat) (cur : Cursor) :
    Together limit.RefusesToken Eq (Scanner.readCount config origin cur)
      (Scanner.readCount config' origin cur) := by
  unfold Scanner.readCount
  rcases readBounds origin cur with ⟨err | ⟨least, most⟩, after⟩
  · exact .same _ rfl
  · exact ((h.checkBounds origin least most).map _).together rfl

end Raises

/-! ## Tokens -/

namespace RaisesFor
variable {limit : Limit} {s s' : Scanner}

theorem moved {config : Config} (h : limit.Raises s.config config) (cur : Cursor) (depth : Nat) :
    limit.RaisesFor { s with cursor := cur, depth := depth }
      { s with config := config, cursor := cur, depth := depth } :=
  .intro (s := { s with cursor := cur, depth := depth }) h

theorem reading {config : Config} (h : limit.Raises s.config config) {read read' : Read Term}
    (hread : Together limit.RefusesToken Eq read read') (f : Term → Token) :
    Together limit.RefusesToken limit.RaisesFor (read.1.map f, { s with cursor := read.2 })
      (read'.1.map f, { s with config := config, cursor := read'.2 }) := by
  cases hread with
  | refused herr => exact .refused herr _ _
  | same result hcursor =>
    subst hcursor
    exact .same _ (moved h _ _)

/-- A scanner under a raised limit reads the same token, if the limit was not the reason why none
was read. -/
theorem next (h : limit.RaisesFor s s') :
    Together limit.RefusesToken limit.RaisesFor s.next s'.next := by
  cases h with
  | @intro config h =>
    unfold Scanner.next
    dsimp only
    split
    · exact .same _ ⟨h⟩
    · next c rest hr =>
      split
      case h_4 =>
        rcases h.nestLimit with heq | ⟨rfl, hle⟩
        · rw [heq]
          split <;> exact .same _ (moved h _ _)
        · by_cases hdeep : s.config.nestLimit < s.depth + 1
          · rw [if_pos hdeep]
            exact .refused ⟨_, rfl⟩ _ _
          · rw [if_neg hdeep, if_neg (by omega)]
            exact .same _ (moved h _ _)
      case h_12 => exact reading h (h.readCount _ _) _
      case h_13 => exact reading h (h.readClass _ _) _
      case h_15 => exact reading h (h.readEscaped _ _) _
      case h_16 =>
        rw [h.termOfLetter]
        exact .same _ (moved h _ _)
      all_goals exact .same _ (moved h _ _)

theorem ofText {config config' : Config} (h : limit.Raises config config') (text : String) :
    limit.RaisesFor (.ofText config text) (.ofText config' text) :=
  .intro (s := .ofText config text) h

theorem echoes (h : limit.RaisesFor s s') :
    Scanner.source.Echoes Scanner.source limit.Refuses limit.RaisesFor s s' where
  now := h
  encoding := by
    obtain ⟨h⟩ := h
    exact h.encoding
  next := h.next
  onAtom a := by
    obtain ⟨h⟩ := h
    exact ⟨rfl, .intro (s := { s with atoms := s.atoms + 1 }) h⟩

end RaisesFor

end Limit

/-- Where the pattern is not refused for one of its limits, a larger one makes no difference: the
automaton is the same, state for state, or the error is. -/
theorem compile_raise (limit : Limit) (config : Config) (text : String) {n m : Nat} (h : n ≤ m)
    (hother : ∀ err, compile (limit.set n config) text = .error err → ¬ limit.Refuses err) :
    compile (limit.set m config) text = compile (limit.set n config) text := by
  have hraises : limit.Raises (limit.set n config) (limit.set m config) := .intro config h
  have htogether := parse_together (fun _ _ => Limit.RaisesFor.echoes) hraises.sizeLimit
    (Limit.RaisesFor.ofText hraises text)
  unfold compile at hother ⊢
  generalize parse Scanner.source (limit.set n config).sizeLimit
    (.ofText (limit.set n config) text) = x at hother htogether ⊢
  generalize parse Scanner.source (limit.set m config).sizeLimit
    (.ofText (limit.set m config) text) = y at htogether ⊢
  cases htogether with
  | refused herr => exact absurd herr (hother _ rfl)
  | same => rfl

/-- The least limits under which a text compiles. With one less it is refused for that limit, and
with one more it comes to the same automaton. A parenthesis that closes nothing is blamed behind it
either way. -/
theorem compile_raise_countedGroup :
    let text := "(a\x7b2\x7d)[b-c]"
    let least : List (Limit × Nat) :=
      [(.nesting, 1), (.classSize, 2), (.repetition, 2), (.size, 12)]
    (∀ limit n, (limit, n) ∈ least →
      (∃ err, compile (limit.set (n - 1) {}) text = .error err ∧ limit.Refuses err) ∧
        ∃ a, compile (limit.set n {}) text = .ok a ∧ a.size = 12 ∧
          compile (limit.set (n + 1) {}) text = .ok a) ∧
    compile (Limit.size.set 12 {}) (text ++ ")") = .error (.unexpected 11 .closeParen) ∧
    compile (Limit.size.set 13 {}) (text ++ ")") = .error (.unexpected 11 .closeParen) := by
  intro text least
  have hrefused : ∀ limit n, (limit, n) ∈ least →
      ∃ err, compile (limit.set (n - 1) {}) text = .error err ∧ limit.Refuses err := by
    intro limit n hleast
    simp only [least, List.mem_cons, Prod.mk.injEq, List.not_mem_nil, or_false] at hleast
    rcases hleast with ⟨rfl, rfl⟩ | ⟨rfl, rfl⟩ | ⟨rfl, rfl⟩ | ⟨rfl, rfl⟩
    · exact ⟨.lexical ⟨0, .nestLimitExceeded 0⟩,
        apply_parse_of_parseWithin (n := 50) Prod.fst (by decide +kernel), _, rfl⟩
    · exact ⟨.lexical ⟨6, .classTooLarge 1⟩,
        apply_parse_of_parseWithin (n := 50) Prod.fst (by decide +kernel), _, rfl⟩
    · exact ⟨.lexical ⟨2, .repetitionTooLarge 1⟩,
        apply_parse_of_parseWithin (n := 50) Prod.fst (by decide +kernel), _, rfl⟩
    · exact ⟨.tooLarge 11, apply_parse_of_parseWithin (n := 50) Prod.fst (by decide +kernel), rfl⟩
  have hcompiled : ∀ limit n, (limit, n) ∈ least →
      ∃ a, compile (limit.set n {}) text = .ok a ∧ a.size = 12 := by
    intro limit n hleast
    simp only [least, List.mem_cons, Prod.mk.injEq, List.not_mem_nil, or_false] at hleast
    rcases hleast with ⟨rfl, rfl⟩ | ⟨rfl, rfl⟩ | ⟨rfl, rfl⟩ | ⟨rfl, rfl⟩
    all_goals exact exists_ok_of_parseWithin (n := 50) Automaton.size (by decide +kernel)
  have hunexpected : compile (Limit.size.set 12 {}) (text ++ ")") =
      .error (.unexpected 11 .closeParen) :=
    apply_parse_of_parseWithin (n := 50) Prod.fst (by decide +kernel)
  refine ⟨fun limit n hleast => ⟨hrefused limit n hleast, ?_⟩, hunexpected, ?_⟩
  · obtain ⟨a, ha, hsize⟩ := hcompiled limit n hleast
    refine ⟨a, ha, hsize, ?_⟩
    refine (compile_raise limit {} text (Nat.le_succ n) fun err herr => ?_).trans ha
    rw [ha] at herr
    cases herr
  · refine (compile_raise .size {} _ (by decide) fun err herr => ?_).trans hunexpected
    rw [hunexpected] at herr
    obtain rfl := Except.error.inj herr
    exact id

end PatternAutomata
