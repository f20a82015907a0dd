import PatternAutomata.CommandLine
import PatternAutomata.Proofs.Compile

/-!
# Reports on inputs

How an automaton is shown, or whether it is shown at all, makes no difference to what is said of the
inputs. That is decided by the automaton of the pattern, and it is the last thing that is printed.
-/
namespace PatternAutomata.CommandLine

/-- The options that only say how the automaton is shown. -/
def displayFlags : List String := ["-d", "--dfa", "-q", "--quiet"]

/-- Whether two calls differ in display options at most. These may be added and removed wherever an
option is looked for: not in the place of an encoding, and not behind the end of the options. -/
inductive Redisplays : List String → List String → Prop
  | nil : Redisplays [] []
  | added {flag : String} {args args' : List String} (hflag : flag ∈ displayFlags)
    (rest : Redisplays args args') : Redisplays args (flag :: args')
  | removed {flag : String} {args args' : List String} (hflag : flag ∈ displayFlags)
    (rest : Redisplays args args') : Redisplays (flag :: args) args'
  | encoding {flag : String} (name : String) {args args' : List String}
    (hflag : flag = "-e" ∨ flag = "--encoding") (rest : Redisplays args args') :
    Redisplays (flag :: name :: args) (flag :: name :: args')
  | verbatim (args : List String) : Redisplays ("--" :: args) ("--" :: args)
  | kept {arg : String} {args args' : List String} (harg : arg ∉ ["-e", "--encoding", "--"])
    (rest : Redisplays args args') : Redisplays (arg :: args) (arg :: args')

/-- Whether two sets of options ask for the same automaton. -/
def Options.Agree (o o' : Options) : Prop :=
  o'.encoding = o.encoding ∧ o'.caseInsensitive = o.caseInsensitive

theorem Options.Agree.symm {o o' : Options} (h : o.Agree o') : o'.Agree o := ⟨h.1.symm, h.2.symm⟩

theorem Options.Agree.trans {o o' o'' : Options} (h : o.Agree o') (h' : o'.Agree o'') :
    o.Agree o'' := ⟨h'.1.trans h.1, h'.2.trans h.2⟩

variable {options options' shown : Options} {positional args args' inputs : List String}
  {pattern input : String} {a : Automaton}

/-! ## Reading the arguments -/

/-- A display option is read and leaves no other trace. -/
theorem readArguments_display {flag : String} (hflag : flag ∈ displayFlags) (options : Options)
    (positional args : List String) : ∃ options', options.Agree options' ∧
      readArguments options positional (flag :: args) = readArguments options' positional args := by
  simp only [displayFlags, List.mem_cons, List.not_mem_nil, or_false] at hflag
  rcases hflag with rfl | rfl | rfl | rfl
  · exact ⟨{ options with deterministic := true }, ⟨rfl, rfl⟩, by rw [readArguments.eq_def]; simp⟩
  · exact ⟨{ options with deterministic := true }, ⟨rfl, rfl⟩, by rw [readArguments.eq_def]; simp⟩
  · exact ⟨{ options with quiet := true }, ⟨rfl, rfl⟩, by rw [readArguments.eq_def]; simp⟩
  · exact ⟨{ options with quiet := true }, ⟨rfl, rfl⟩, by rw [readArguments.eq_def]; simp⟩

theorem readArguments_encoding {flag : String} (hflag : flag = "-e" ∨ flag = "--encoding")
    (options : Options) (positional : List String) (name : String) (args : List String) :
    readArguments options positional (flag :: name :: args) =
      match Encoding.ofName? name with
      | none => .error (.unknownEncoding name)
      | some encoding => readArguments { options with encoding := encoding } positional args := by
  rcases hflag with rfl | rfl <;> (rw [readArguments.eq_def]; rfl)

theorem readArguments_verbatim (options : Options) (positional args : List String) :
    readArguments options positional ("--" :: args) =
      match positional.reverse ++ args with
      | [] => .error .missingPattern
      | pattern :: inputs => .ok (.compile options pattern inputs) := by
  rw [readArguments.eq_def]
  rfl

theorem readArguments_kept {arg : String} (harg : arg ∉ ["-e", "--encoding", "--"])
    (options : Options) (positional args : List String) :
    readArguments options positional (arg :: args) =
      if arg = "-h" ∨ arg = "--help" then .ok .help
      else if arg = "-i" ∨ arg = "--case-insensitive" then
        readArguments { options with caseInsensitive := true } positional args
      else if arg = "-d" ∨ arg = "--dfa" then
        readArguments { options with deterministic := true } positional args
      else if arg = "-q" ∨ arg = "--quiet" then
        readArguments { options with quiet := true } positional args
      else if looksLikeOption arg then .error (.unknownOption arg)
      else readArguments options (arg :: positional) args := by
  simp only [List.mem_cons, List.not_mem_nil, or_false, not_or] at harg
  rw [readArguments.eq_def]
  simp only [harg, or_self, if_false]

/-- Calls that differ in display options ask for the same automaton and the same inputs. -/
theorem Redisplays.readArguments (h : Redisplays args args') (hoptions : options.Agree options')
    (hread : readArguments options positional args = .ok (.compile shown pattern inputs)) :
    ∃ shown', readArguments options' positional args' = .ok (.compile shown' pattern inputs) ∧
      shown.Agree shown' := by
  induction h generalizing options options' positional with
  | nil =>
    simp only [CommandLine.readArguments] at hread ⊢
    split at hread
    · cases hread
    · cases hread
      exact ⟨options', rfl, hoptions⟩
  | added hflag rest ih =>
    obtain ⟨_, hagree, hadded⟩ := readArguments_display hflag options' positional _
    rw [hadded]
    exact ih (hoptions.trans hagree) hread
  | removed hflag rest ih =>
    obtain ⟨_, hagree, hremoved⟩ := readArguments_display hflag options positional _
    rw [hremoved] at hread
    exact ih (hagree.symm.trans hoptions) hread
  | encoding name hflag rest ih =>
    rw [readArguments_encoding hflag] at hread ⊢
    cases hname : Encoding.ofName? name with
    | none => simp [hname] at hread
    | some encoding =>
      simp only [hname] at hread ⊢
      refine ih ?_ hread
      exact ⟨rfl, hoptions.2⟩
  | verbatim args =>
    rw [readArguments_verbatim] at hread ⊢
    split at hread
    · cases hread
    · cases hread
      exact ⟨options', rfl, hoptions⟩
  | kept harg rest ih =>
    rw [readArguments_kept harg] at hread ⊢
    split_ifs at hread ⊢
    · cases hread
    · refine ih ?_ hread
      exact ⟨hoptions.1, rfl⟩
    · refine ih ?_ hread
      exact hoptions
    · refine ih ?_ hread
      exact hoptions
    · exact ih hoptions hread

/-! ## Reporting -/

/-- The configuration that the options ask for. -/
def Options.config (options : Options) : Config :=
  { encoding := options.encoding, caseInsensitive := options.caseInsensitive }

theorem Options.Agree.config_eq {o o' : Options} (h : o.Agree o') : o'.config = o.config := by
  simp only [Options.config, h.1, h.2]

/-- What is said of an input depends on what the automaton accepts and not on how it is shown. -/
theorem inputLine_shownAutomaton (h : a.WellFormed) (hoptions : options.Agree options')
    (input : String) :
    inputLine options' (shownAutomaton options' a) input = inputLine options a input := by
  have haccepts (bytes : List UInt8) :
      (shownAutomaton options' a).accepts bytes = a.accepts bytes := by
    unfold shownAutomaton
    split
    · obtain ⟨_, -, hmeaning⟩ := Automaton.determinize_spec h
      rw [Bool.eq_iff_iff, Automaton.accepts_iff, Automaton.accepts_iff, hmeaning]
      rfl
    · rfl
  simp only [inputLine, verdict, haccepts, hoptions.1]

/-- The reports come last, whatever stands before them. -/
theorem report_compiled (h : compile options.config pattern = .ok a)
    (hoptions : options.Agree options') (inputs : List String) : ∃ table,
      report options' pattern inputs =
        ⟨0, joinLines (table ++ inputs.map (inputLine options a)), ""⟩ := by
  obtain ⟨tree, htree⟩ := exists_readFrom h
  have hlines : inputs.map (inputLine options' (shownAutomaton options' a)) =
      inputs.map (inputLine options a) :=
    List.map_congr_left fun input _ =>
      inputLine_shownAutomaton (htree.wellFormed h) hoptions input
  rw [← hoptions.config_eq, Options.config] at h
  unfold report
  simp only [h, hlines]
  exact ⟨_, rfl⟩

/-- There are three verdicts, and each of them tells what it says. -/
theorem verdict_iff (options : Options) (a : Automaton) (input : String) :
    (verdict options a input = "not representable in " ++ options.encoding.name ↔
        ∃ c ∈ input.toList, options.encoding.encode? c = none) ∧
      (verdict options a input = "accepted" ↔ ∃ bytes,
        options.encoding.encodeAll? input.toList = some bytes ∧ a.accepts bytes = true) ∧
      (verdict options a input = "rejected" ↔ ∃ bytes,
        options.encoding.encodeAll? input.toList = some bytes ∧ a.accepts bytes = false) := by
  rw [← Encoding.encodeAll?_eq_none_iff]
  unfold verdict
  cases options.encoding.encodeAll? input.toList with
  | none => cases options.encoding <;> simp [Encoding.name]
  | some bytes =>
    cases ha : a.accepts bytes <;> cases options.encoding <;> simp [ha, Encoding.name]

/-- Whether a run ends well and prints the given lines last. -/
def Outcome.EndsWith (outcome : Outcome) (lines : List String) : Prop :=
  ∃ table : List String, outcome = ⟨0, String.join ((table ++ lines).map (· ++ "\n")), ""⟩

/-- A call whose pattern compiles ends well and reports on its inputs last, one line for each: the
input in quotation marks and the verdict. So does every call that shows the automaton in another way
or not at all, and the lines are the same. The verdicts tell what the automaton of the pattern says
of the inputs. -/
theorem run_reports (hargs : parseArguments args = .ok (.compile options pattern inputs))
    (ha : compile { encoding := options.encoding, caseInsensitive := options.caseInsensitive }
      pattern = .ok a) :
    (run args).EndsWith (inputs.map fun input =>
        Text.quote input ++ ": " ++ verdict options a input) ∧
      (∀ args', Redisplays args args' → (run args').EndsWith (inputs.map fun input =>
        Text.quote input ++ ": " ++ verdict options a input)) ∧
      ∀ input,
        (verdict options a input = "not representable in " ++ options.encoding.name ↔
          ∃ c ∈ input.toList, options.encoding.encode? c = none) ∧
        (verdict options a input = "accepted" ↔ ∃ bytes,
          options.encoding.encodeAll? input.toList = some bytes ∧ a.accepts bytes = true) ∧
        (verdict options a input = "rejected" ↔ ∃ bytes,
          options.encoding.encodeAll? input.toList = some bytes ∧ a.accepts bytes = false) := by
  refine ⟨?_, ?_, verdict_iff options a⟩
  · obtain ⟨table, htable⟩ := report_compiled ha ⟨rfl, rfl⟩ inputs
    refine ⟨table, ?_⟩
    simp only [run, hargs, htable]
    rfl
  · intro args' h
    obtain ⟨shown, hread, hagree⟩ := h.readArguments ⟨rfl, rfl⟩ hargs
    obtain ⟨table, htable⟩ := report_compiled ha hagree inputs
    refine ⟨table, ?_⟩
    simp only [run, parseArguments, hread, htable]
    rfl

/-- The tree of an anchored loop, `^a*`. -/
def anchoredLoopTree : Tree .pattern :=
  let caret : Tree .atom := .single .caret ⟨⟨.caret, some (.anchor .textStart), 0⟩, rfl⟩
  let letter : Tree .atom := .single .letters ⟨⟨.letters, some (.ofChars ['a']), 1⟩, rfl⟩
  .pattern <| .firstAlternative <| .firstConjunct <| .plain <|
    .nextItem (.nextItem .emptySequence (.once caret))
      (.counted letter ⟨⟨.count, some (.count 0 .infinity), 2⟩, rfl⟩)

/-- The automaton of that tree in ASCII. -/
def anchoredLoop : Automaton :=
  (Automaton.emptyText.concat (Automaton.emptyText.appendAnchor .textStart)).concat
    (Automaton.emptyText.appendTexts {['a']} .ascii).star

/-- The same call with display options before, between and behind its other arguments. The `-d`
behind the end of the options is an input. -/
theorem run_reports_anchoredLoop :
    let lines := ["\"aa\": accepted", "\"é\": not representable in ascii", "\"-d\": rejected"]
    let args := ["-e", "ascii", "^a*", "aa", "--", "é", "-d"]
    let args' := ["-d", "-e", "ascii", "^a*", "--quiet", "aa", "-q", "--", "é", "-d"]
    (run args).EndsWith lines ∧ (run args').EndsWith lines := by
  intro lines args args'
  have hargs : parseArguments ["-e", "ascii", "^a*", "aa", "--", "é", "-d"] =
      .ok (.compile { encoding := .ascii } "^a*" ["aa", "é", "-d"]) := by decide +kernel
  have htree : anchoredLoopTree.ReadFrom { encoding := .ascii } "^a*" :=
    ⟨⟨.eof, none, 3⟩, by decide +kernel⟩
  have ha : compile { encoding := .ascii, caseInsensitive := false } "^a*" = .ok anchoredLoop := by
    rw [htree.compile_eq]
    decide +kernel
  have hdisplay : Redisplays ["-e", "ascii", "^a*", "aa", "--", "é", "-d"]
      ["-d", "-e", "ascii", "^a*", "--quiet", "aa", "-q", "--", "é", "-d"] :=
    .added (by decide) <| .encoding _ (.inl rfl) <| .kept (by decide) <| .added (by decide) <|
      .kept (by decide) <| .added (by decide) <| .verbatim _
  obtain ⟨hrun, hruns, hverdicts⟩ := run_reports hargs ha
  have haccepted : verdict { encoding := .ascii } anchoredLoop "aa" = "accepted" :=
    (hverdicts "aa").2.1.mpr ⟨[0x61, 0x61], by decide +kernel, by decide +kernel⟩
  have hunwritten : verdict { encoding := .ascii } anchoredLoop "é" =
      "not representable in ascii" := (hverdicts "é").1.mpr ⟨'é', by decide, by decide⟩
  have hrejected : verdict { encoding := .ascii } anchoredLoop "-d" = "rejected" :=
    (hverdicts "-d").2.2.mpr ⟨[0x2D, 0x64], by decide +kernel, by decide +kernel⟩
  have haa : Text.quote "aa" = "\"aa\"" := by decide +kernel
  have hé : Text.quote "é" = "\"é\"" := by decide +kernel
  have hd : Text.quote "-d" = "\"-d\"" := by decide +kernel
  have hlines : (["aa", "é", "-d"].map fun input =>
      Text.quote input ++ ": " ++ verdict { encoding := .ascii } anchoredLoop input) = lines := by
    simp only [List.map_cons, List.map_nil, haccepted, hunwritten, hrejected, haa, hé, hd]
    rfl
  rw [← hlines]
  exact ⟨hrun, hruns _ hdisplay⟩

end PatternAutomata.CommandLine
