import PatternAutomata.Proofs.CommandLine

/-!
# What a call asks for

The arguments of a call are pieces: switches, encodings with their names, and positional arguments.
After them comes the end, or the end of the options with whatever stands behind it, or something
that decides the call at once. There is no other way to write a call, and what it asks for can be
read off the pieces.
-/
namespace PatternAutomata

/-- The names of an encoding, in small letters. -/
def Encoding.names : Encoding → List String
  | .ascii => ["ascii"]
  | .latin1 => ["latin1", "latin-1", "iso-8859-1"]
  | .utf8 => ["utf8", "utf-8"]

/-- Whether the encoding goes by the name. ASCII capitals count as small letters. -/
def Encoding.Named (e : Encoding) (name : String) : Prop :=
  String.ofList (name.toList.map lowerAscii) ∈ e.names

instance (e : Encoding) (name : String) : Decidable (e.Named name) :=
  inferInstanceAs (Decidable (_ ∈ _))

theorem Encoding.ofName?_eq_some_iff {name : String} {e : Encoding} :
    ofName? name = some e ↔ e.Named name := by
  unfold ofName? Named
  dsimp only
  generalize String.ofList (name.toList.map lowerAscii) = lower
  cases e <;> (simp only [names, List.mem_cons, List.not_mem_nil, or_false]; grind)

theorem Encoding.ofName?_eq_none_iff {name : String} :
    ofName? name = none ↔ ∀ e : Encoding, ¬ e.Named name := by
  simp only [← ofName?_eq_some_iff, Option.eq_none_iff_forall_ne_some, ne_eq]

namespace CommandLine

/-- What is on if it is asked for and off otherwise. -/
inductive Switch where
  | caseInsensitive
  | deterministic
  | quiet
deriving DecidableEq, Repr

namespace Switch

/-- The arguments that turn a switch on. -/
def spellings : Switch → List String
  | .caseInsensitive => ["-i", "--case-insensitive"]
  | .deterministic => ["-d", "--dfa"]
  | .quiet => ["-q", "--quiet"]

/-- Whether a switch is on. -/
def isOn : Switch → Options → Bool
  | .caseInsensitive => Options.caseInsensitive
  | .deterministic => Options.deterministic
  | .quiet => Options.quiet

/-- The options with a switch turned on. -/
def turnOn : Switch → Options → Options
  | .caseInsensitive, options => { options with caseInsensitive := true }
  | .deterministic, options => { options with deterministic := true }
  | .quiet, options => { options with quiet := true }

@[simp] theorem encoding_turnOn (s : Switch) (options : Options) :
    (s.turnOn options).encoding = options.encoding := by
  cases s <;> rfl

@[simp] theorem isOn_turnOn (s s' : Switch) (options : Options) :
    s.isOn (s'.turnOn options) = true ↔ s = s' ∨ s.isOn options = true := by
  cases s <;> cases s' <;> simp [isOn, turnOn]

@[simp] theorem isOn_encoding (s : Switch) (options : Options) (e : Encoding) :
    s.isOn { options with encoding := e } = s.isOn options := by
  cases s <;> rfl

end Switch

/-- The arguments that a name of an encoding stands behind. -/
def encodingFlags : List String := ["-e", "--encoding"]

/-- The arguments that ask for help. -/
def helpFlags : List String := ["-h", "--help"]

/-- Whether an argument is none that an option could be. -/
def Plain (word : String) : Prop := word.toList.head? ≠ some '-' ∨ word = "-"

instance (word : String) : Decidable (Plain word) := inferInstanceAs (Decidable (_ ∨ _))

/-- Whether an argument could be an option but is none. -/
def Unknown (word : String) : Prop :=
  ¬ Plain word ∧ word ∉ helpFlags ∧ word ∉ encodingFlags ∧ word ≠ "--" ∧
    ∀ s : Switch, word ∉ s.spellings

/-- A piece of a call that leaves the call undecided. -/
inductive Piece where
  | switch (s : Switch) (word : String) (h : word ∈ s.spellings)
  | encoding (word name : String) (e : Encoding) (hword : word ∈ encodingFlags)
    (hname : e.Named name)
  | positional (word : String) (h : Plain word)

namespace Piece

/-- The arguments that a piece consists of. -/
def words : Piece → List String
  | .switch _ word _ => [word]
  | .encoding word name _ _ _ => [word, name]
  | .positional word _ => [word]

/-- The encoding that a piece asks for. -/
def encoding? : Piece → Option Encoding
  | .encoding _ _ e _ _ => some e
  | _ => none

/-- The positional argument that a piece is. -/
def positional? : Piece → Option String
  | .positional word _ => some word
  | _ => none

/-- The options behind a piece. -/
def apply (options : Options) : Piece → Options
  | .switch s _ _ => s.turnOn options
  | .encoding _ _ e _ _ => { options with encoding := e }
  | .positional _ _ => options

end Piece

/-- The arguments that pieces consist of. -/
def wordsOf (pieces : List Piece) : List String := pieces.flatMap Piece.words

/-- The positional arguments among pieces. -/
def positionalsOf (pieces : List Piece) : List String := pieces.filterMap Piece.positional?

/-- The encodings that pieces ask for. -/
def encodingsOf (pieces : List Piece) : List Encoding := pieces.filterMap Piece.encoding?

/-- What decides a call. What stands behind it is not looked at. -/
inductive Stop where
  | help (word : String) (h : word ∈ helpFlags) (rest : List String)
  | unknownOption (word : String) (h : Unknown word) (rest : List String)
  | missingEncoding (word : String) (h : word ∈ encodingFlags)
  | unknownEncoding (word name : String) (hword : word ∈ encodingFlags)
    (hname : ∀ e : Encoding, ¬ e.Named name) (rest : List String)

namespace Stop

/-- The arguments from the deciding one on. -/
def words : Stop → List String
  | .help word _ rest | .unknownOption word _ rest => word :: rest
  | .missingEncoding word _ => [word]
  | .unknownEncoding word name _ _ rest => word :: name :: rest

/-- What the call comes to. -/
def outcome : Stop → Except UsageError Request
  | .help _ _ _ => .ok .help
  | .unknownOption word _ _ => .error (.unknownOption word)
  | .missingEncoding _ _ => .error .missingEncoding
  | .unknownEncoding _ name _ _ _ => .error (.unknownEncoding name)

end Stop

/-- How an undecided call ends: as it is, or with the end of the options and further arguments. -/
def closing : Option (List String) → List String
  | none => []
  | some rest => "--" :: rest

variable {options : Options} {positional args : List String} {word : String}

/-! ## One argument -/

theorem looksLikeOption_iff : looksLikeOption word = true ↔ ¬ Plain word := by
  unfold looksLikeOption Plain
  have hdash : word = "-" ↔ word.toList = ['-'] := by
    rw [← String.toList_inj]
    rfl
  rw [hdash]
  rcases word.toList with _ | ⟨c, _ | ⟨d, cs⟩⟩
  · simp
  · simp
  · by_cases hc : c = '-' <;> simp [hc]

theorem readArguments_switch {s : Switch} (h : word ∈ s.spellings) (options : Options)
    (positional args : List String) : readArguments options positional (word :: args) =
      readArguments (s.turnOn options) positional args := by
  cases s <;> simp only [Switch.spellings, List.mem_cons, List.not_mem_nil, or_false] at h
  all_goals
    rcases h with rfl | rfl <;> (rw [readArguments_kept (by decide)]; simp [Switch.turnOn])

theorem readArguments_positional (h : Plain word) (options : Options)
    (positional args : List String) : readArguments options positional (word :: args) =
      readArguments options (word :: positional) args := by
  have hne {w : String} (hw : ¬ Plain w) : word ≠ w := fun heq => hw (heq ▸ h)
  have hlooks : ¬ looksLikeOption word = true := fun hlooks => looksLikeOption_iff.mp hlooks h
  have hkept : word ∉ ["-e", "--encoding", "--"] := by
    simp only [List.mem_cons, List.not_mem_nil, or_false, not_or]
    exact ⟨hne (by decide), hne (by decide), hne (by decide)⟩
  rw [readArguments_kept hkept, if_neg, if_neg, if_neg, if_neg, if_neg hlooks]
  all_goals exact not_or.mpr ⟨hne (by decide), hne (by decide)⟩

theorem readArguments_unknown (h : Unknown word) (options : Options)
    (positional args : List String) :
    readArguments options positional (word :: args) = .error (.unknownOption word) := by
  obtain ⟨hplain, hhelp, hencoding, hverbatim, hswitch⟩ := h
  have hkept : word ∉ ["-e", "--encoding", "--"] := by
    simp only [encodingFlags, List.mem_cons, List.not_mem_nil, or_false, not_or] at hencoding ⊢
    exact ⟨hencoding.1, hencoding.2, hverbatim⟩
  have hswitches := And.intro (hswitch .caseInsensitive)
    (And.intro (hswitch .deterministic) (hswitch .quiet))
  simp only [helpFlags, Switch.spellings, List.mem_cons, List.not_mem_nil, or_false]
    at hhelp hswitches
  rw [readArguments_kept hkept, if_neg hhelp, if_neg hswitches.1, if_neg hswitches.2.1,
    if_neg hswitches.2.2, if_pos (looksLikeOption_iff.mpr hplain)]

theorem readArguments_help (h : word ∈ helpFlags) (options : Options)
    (positional args : List String) :
    readArguments options positional (word :: args) = .ok .help := by
  simp only [helpFlags, List.mem_cons, List.not_mem_nil, or_false] at h
  rw [readArguments.eq_def]
  exact if_pos h

theorem encodingFlag_iff : word ∈ encodingFlags ↔ word = "-e" ∨ word = "--encoding" := by
  simp [encodingFlags]

/-- An argument is plain, or one of the known options, or unknown. -/
theorem word_cases (word : String) : Plain word ∨ word ∈ helpFlags ∨ word ∈ encodingFlags ∨
    word = "--" ∨ (∃ s : Switch, word ∈ s.spellings) ∨ Unknown word := by
  unfold Unknown
  grind

/-! ## Switches and words -/

namespace Switch
variable {s s' : Switch}

theorem not_plain (h : word ∈ s.spellings) : ¬ Plain word := by
  cases s <;> simp only [spellings, List.mem_cons, List.not_mem_nil, or_false] at h
  all_goals rcases h with rfl | rfl <;> decide

theorem not_encodingFlag (h : word ∈ s.spellings) : word ∉ encodingFlags := by
  cases s <;> simp only [spellings, List.mem_cons, List.not_mem_nil, or_false] at h
  all_goals rcases h with rfl | rfl <;> decide

theorem not_named (h : word ∈ s.spellings) (e : Encoding) : ¬ e.Named word := by
  rw [← Encoding.ofName?_eq_some_iff]
  cases s <;> simp only [spellings, List.mem_cons, List.not_mem_nil, or_false] at h
  all_goals rcases h with rfl | rfl <;> cases e <;> decide

theorem eq_of_spelling (h : word ∈ s.spellings) (h' : word ∈ s'.spellings) : s = s' := by
  cases s <;> simp only [spellings, List.mem_cons, List.not_mem_nil, or_false] at h
  all_goals rcases h with rfl | rfl <;> cases s' <;> first | rfl | exact absurd h' (by decide)

end Switch

/-- Behind a piece a switch is on if the piece turns it on or it was on before. The words of the
piece tell, as no name of an encoding and no positional argument is an option. -/
theorem isOn_apply (s : Switch) (options : Options) (piece : Piece) :
    s.isOn (piece.apply options) = true ↔
      (∃ word ∈ s.spellings, word ∈ piece.words) ∨ s.isOn options = true := by
  cases piece with
  | switch s' word h =>
    have hword : (∃ w ∈ s.spellings, w ∈ [word]) ↔ s = s' := by
      constructor
      · rintro ⟨w, hw, hmem⟩
        obtain rfl := List.mem_singleton.mp hmem
        exact Switch.eq_of_spelling hw h
      · rintro rfl
        exact ⟨word, h, List.mem_singleton_self word⟩
    simp only [Piece.apply, Piece.words, Switch.isOn_turnOn, hword]
  | encoding word name e hword hname =>
    have hnone : ¬ ∃ w ∈ s.spellings, w ∈ [word, name] := by
      rintro ⟨w, hw, hmem⟩
      rcases List.mem_pair.mp hmem with rfl | rfl
      · exact Switch.not_encodingFlag hw hword
      · exact Switch.not_named hw e hname
    simp only [Piece.apply, Piece.words, Switch.isOn_encoding, hnone, false_or]
  | positional word h =>
    have hnone : ¬ ∃ w ∈ s.spellings, w ∈ [word] := by
      rintro ⟨w, hw, hmem⟩
      obtain rfl := List.mem_singleton.mp hmem
      exact Switch.not_plain hw h
    simp only [Piece.apply, Piece.words, hnone, false_or]

/-! ## All arguments -/

/-- The options behind some pieces. -/
def optionsBehind (options : Options) (pieces : List Piece) : Options :=
  pieces.foldl Piece.apply options

theorem isOn_optionsBehind (s : Switch) (options : Options) (pieces : List Piece) :
    s.isOn (optionsBehind options pieces) = true ↔
      (∃ word ∈ s.spellings, word ∈ wordsOf pieces) ∨ s.isOn options = true := by
  induction pieces generalizing options with
  | nil => simp [optionsBehind, wordsOf]
  | cons piece pieces ih =>
    have hwords (word : String) :
        word ∈ wordsOf (piece :: pieces) ↔ word ∈ piece.words ∨ word ∈ wordsOf pieces := by
      simp [wordsOf]
    rw [optionsBehind, List.foldl_cons, ← optionsBehind, ih, isOn_apply]
    simp only [hwords, and_or_left, exists_or]
    rw [or_assoc, or_left_comm]

theorem encoding_optionsBehind (options : Options) (pieces : List Piece) :
    (optionsBehind options pieces).encoding =
      (encodingsOf pieces).getLast?.getD options.encoding := by
  induction pieces generalizing options with
  | nil => rfl
  | cons piece pieces ih =>
    rw [optionsBehind, List.foldl_cons, ← optionsBehind, ih]
    cases piece with
    | encoding word name e hword hname =>
      simp [encodingsOf, Piece.encoding?, Piece.apply, List.getLast?_cons]
    | switch s word h => simp [encodingsOf, Piece.encoding?, Piece.apply]
    | positional word h => simp [encodingsOf, Piece.encoding?, Piece.apply]

/-- Pieces are read one by one. -/
theorem readArguments_pieces (options : Options) (positional : List String) (pieces : List Piece)
    (args : List String) :
    readArguments options positional (wordsOf pieces ++ args) =
      readArguments (optionsBehind options pieces)
        ((positionalsOf pieces).reverse ++ positional) args := by
  induction pieces generalizing options positional with
  | nil => rfl
  | cons piece pieces ih =>
    rw [wordsOf, List.flatMap_cons, List.append_assoc, ← wordsOf]
    cases piece with
    | switch s word h => exact (readArguments_switch h options positional _).trans (ih _ _)
    | encoding word name e hword hname =>
      have hread := readArguments_encoding (encodingFlag_iff.mp hword) options positional name
        (wordsOf pieces ++ args)
      rw [Encoding.ofName?_eq_some_iff.mpr hname] at hread
      exact hread.trans (ih _ _)
    | positional word h =>
      refine (readArguments_positional h options positional _).trans ((ih _ _).trans ?_)
      simp [positionalsOf, Piece.positional?, optionsBehind, Piece.apply]

/-- The request with the given options and positional arguments. -/
def request (options : Options) : List String → Except UsageError Request
  | [] => .error .missingPattern
  | pattern :: inputs => .ok (.compile options pattern inputs)

theorem readArguments_closing (options : Options) (positional : List String)
    (verbatim : Option (List String)) :
    readArguments options positional.reverse (closing verbatim) =
      request options (positional ++ verbatim.getD []) := by
  cases verbatim with
  | none =>
    rw [closing, readArguments, List.reverse_reverse, Option.getD_none, List.append_nil]
    cases positional <;> rfl
  | some rest =>
    rw [closing, readArguments_verbatim, List.reverse_reverse, Option.getD_some]
    cases positional ++ rest <;> rfl

/-- An undecided call asks for what its pieces say. -/
theorem parseArguments_closing (pieces : List Piece) (verbatim : Option (List String)) :
    parseArguments (wordsOf pieces ++ closing verbatim) =
      request (optionsBehind {} pieces) (positionalsOf pieces ++ verbatim.getD []) := by
  rw [parseArguments, readArguments_pieces, List.append_nil, readArguments_closing]

theorem readArguments_stop (options : Options) (positional : List String) (stop : Stop) :
    readArguments options positional stop.words = stop.outcome := by
  cases stop with
  | help word h rest => exact readArguments_help h options positional rest
  | unknownOption word h rest => exact readArguments_unknown h options positional rest
  | missingEncoding word h =>
    rcases encodingFlag_iff.mp h with rfl | rfl <;> (rw [Stop.words, readArguments.eq_def]; rfl)
  | unknownEncoding word name hword hname rest =>
    have hread := readArguments_encoding (encodingFlag_iff.mp hword) options positional name rest
    rw [Encoding.ofName?_eq_none_iff.mpr hname] at hread
    exact hread

/-- Whatever the arguments are, they are pieces and then the end or something that decides. -/
theorem exists_pieces (args : List String) : ∃ pieces,
    (∃ verbatim, args = wordsOf pieces ++ closing verbatim) ∨
      ∃ stop : Stop, args = wordsOf pieces ++ stop.words := by
  have add (piece : Piece) {args : List String} (h : ∃ pieces,
      (∃ verbatim, args = wordsOf pieces ++ closing verbatim) ∨
        ∃ stop : Stop, args = wordsOf pieces ++ stop.words) : ∃ pieces,
      (∃ verbatim, piece.words ++ args = wordsOf pieces ++ closing verbatim) ∨
        ∃ stop : Stop, piece.words ++ args = wordsOf pieces ++ stop.words := by
    obtain ⟨pieces, ⟨verbatim, rfl⟩ | ⟨stop, rfl⟩⟩ := h
    · exact ⟨piece :: pieces, .inl ⟨verbatim, by simp [wordsOf]⟩⟩
    · exact ⟨piece :: pieces, .inr ⟨stop, by simp [wordsOf]⟩⟩
  induction hlength : args.length using Nat.strong_induction_on generalizing args with
  | _ n ih =>
    cases args with
    | nil => exact ⟨[], .inl ⟨none, rfl⟩⟩
    | cons word args =>
      have hshorter : args.length < n := by simp [← hlength]
      rcases word_cases word with h | h | h | rfl | ⟨s, h⟩ | h
      · exact add (.positional word h) (ih _ hshorter args rfl)
      · exact ⟨[], .inr ⟨.help word h args, rfl⟩⟩
      · -- the argument behind is a name, whatever it looks like
        cases args with
        | nil => exact ⟨[], .inr ⟨.missingEncoding word h, rfl⟩⟩
        | cons name args =>
          by_cases hname : ∃ e : Encoding, e.Named name
          · obtain ⟨e, hname⟩ := hname
            exact add (.encoding word name e h hname)
              (ih _ (Nat.lt_of_succ_lt hshorter) args rfl)
          · exact ⟨[], .inr ⟨.unknownEncoding word name h (not_exists.mp hname) args, rfl⟩⟩
      · exact ⟨[], .inl ⟨some args, rfl⟩⟩
      · exact add (.switch s word h) (ih _ hshorter args rfl)
      · exact ⟨[], .inr ⟨.unknownOption word h args, rfl⟩⟩

/-- Options may stand anywhere between the positional arguments and be repeated. A switch is on if
it is given before the end of the options, and the last encoding counts. Whatever a call looks like,
it is made of such pieces up to the first request for help, unknown option, or missing or unknown
encoding, which decides alone. What stands behind a flag that asks for an encoding is always taken
for its name. -/
theorem parseArguments_law :
    (∀ (pieces : List Piece) (verbatim : Option (List String)) (pattern : String)
      (inputs : List String), positionalsOf pieces ++ verbatim.getD [] = pattern :: inputs →
      ∃ options,
        parseArguments (wordsOf pieces ++ closing verbatim) =
          .ok (.compile options pattern inputs) ∧
        (∀ s : Switch, s.isOn options = true ↔ ∃ word ∈ s.spellings, word ∈ wordsOf pieces) ∧
        options.encoding = (encodingsOf pieces).getLast?.getD .utf8) ∧
    (∀ (pieces : List Piece) (stop : Stop),
      parseArguments (wordsOf pieces ++ stop.words) = stop.outcome) ∧
    ∀ args, ∃ pieces,
      (∃ verbatim, args = wordsOf pieces ++ closing verbatim ∧
        (positionalsOf pieces ++ verbatim.getD [] = [] →
          parseArguments args = .error .missingPattern)) ∨
      ∃ stop : Stop, args = wordsOf pieces ++ stop.words := by
  refine ⟨fun pieces verbatim pattern inputs h => ?_, fun pieces stop => ?_, fun args => ?_⟩
  · refine ⟨optionsBehind {} pieces, ?_, fun s => ?_, encoding_optionsBehind {} pieces⟩
    · rw [parseArguments_closing, h, request]
    · have hoff : ¬ s.isOn {} = true := by cases s <;> decide
      rw [isOn_optionsBehind, or_iff_left hoff]
  · rw [parseArguments, readArguments_pieces, readArguments_stop]
  · obtain ⟨pieces, ⟨verbatim, rfl⟩ | ⟨stop, rfl⟩⟩ := exists_pieces args
    · refine ⟨pieces, .inl ⟨verbatim, rfl, fun h => ?_⟩⟩
      rw [parseArguments_closing, h, request]
    · exact ⟨pieces, .inr ⟨stop, rfl⟩⟩

/-- Two encodings, a dash as the pattern, and arguments behind the end of the options. Where a name
is expected, `-h` is none. -/
theorem parseArguments_law_mixed :
    let pieces : List Piece := [.switch .quiet "-q" (by decide),
      .encoding "-e" "ASCII" .ascii (by decide) (by decide), .positional "-" (by decide),
      .encoding "--encoding" "Latin-1" .latin1 (by decide) (by decide)]
    positionalsOf pieces ++ (some ["-i", "--"]).getD [] = ["-", "-i", "--"] ∧
      (∃ options,
        parseArguments ["-q", "-e", "ASCII", "-", "--encoding", "Latin-1", "--", "-i", "--"] =
          .ok (.compile options "-" ["-i", "--"]) ∧
        (∀ s : Switch, s.isOn options = true ↔ ∃ word ∈ s.spellings, word ∈ wordsOf pieces) ∧
        options.encoding = .latin1) ∧
      parseArguments ["-q", "-e", "ASCII", "-", "--encoding", "Latin-1", "-e", "-h", "x"] =
        .error (.unknownEncoding "-h") := by
  intro pieces
  have hpositional : positionalsOf pieces ++ (some ["-i", "--"]).getD [] = ["-", "-i", "--"] := rfl
  obtain ⟨hasked, hstopped, -⟩ := parseArguments_law
  refine ⟨hpositional, hasked pieces (some ["-i", "--"]) "-" ["-i", "--"] hpositional, ?_⟩
  have hname (e : Encoding) : ¬ e.Named "-h" := by cases e <;> decide
  exact hstopped pieces (.unknownEncoding "-e" "-h" (by decide) hname ["x"])

end CommandLine

end PatternAutomata
