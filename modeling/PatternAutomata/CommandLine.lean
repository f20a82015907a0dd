import PatternAutomata.Compile
import PatternAutomata.Text.Quoted

/-!
# The command line

Compiles a pattern, prints its automaton, and reports for each input whether it is accepted. Every
run is a function from arguments to an exit code and two texts.
-/
namespace PatternAutomata.CommandLine

/-- What is printed on request, and after a call that makes no sense. -/
def usage : String := "Compile a pattern into a finite-state automaton and print it.

Usage:
    regex-fsm [options] <pattern> [<input> ...]

Every <input> is checked for whole-input acceptance and reported as
accepted or rejected.

Options:
    -e, --encoding <name>   ascii, latin1 or utf-8 (default: utf-8)
    -i, --case-insensitive  match literals and classes case insensitively
    -d, --dfa               print the determinized automaton
    -q, --quiet             don't print the automaton
    -h, --help              show this message

Set RUST_LOG=trace to see the grammar at work.
"

/-- What the options so far ask for. -/
structure Options where
  encoding : Encoding := .utf8
  caseInsensitive : Bool := false
  /-- Print the deterministic automaton. -/
  deterministic : Bool := false
  /-- Print no automaton. -/
  quiet : Bool := false
deriving DecidableEq, Repr

/-- What is asked for. -/
inductive Request where
  | help
  | compile (options : Options) (pattern : String) (inputs : List String)
deriving DecidableEq, Repr

/-- Why a call makes no sense. -/
inductive UsageError where
  | missingEncoding
  | unknownEncoding (name : String)
  | unknownOption (flag : String)
  | missingPattern
deriving DecidableEq, Repr

/-- The wording of a usage error. -/
def UsageError.message : UsageError → String
  | .missingEncoding => "--encoding needs a value"
  | .unknownEncoding name => Encoding.unknownMessage name
  | .unknownOption flag => "unknown option '" ++ flag ++ "'\n\n" ++ usage
  | .missingPattern => "missing <pattern>\n\n" ++ usage

/-- Whether an argument that is no known option still looks like one. -/
def looksLikeOption (arg : String) : Bool :=
  match arg.toList with
  | '-' :: _ :: _ => true
  | _ => false

/-- Read arguments from left to right, behind the given options and the positional arguments so far,
the latest first. The first of help and error decides. -/
def readArguments (options : Options) (positional : List String) :
    List String → Except UsageError Request
  | [] =>
    match positional.reverse with
    | [] => .error .missingPattern
    | pattern :: inputs => .ok (.compile options pattern inputs)
  | arg :: args =>
    if arg = "-h" ∨ arg = "--help" then .ok .help
    else if arg = "-i" ∨ arg = "--case-insensitive" then
      readArguments { options with caseInsensitive := true } positional args
    else if arg = "-d" ∨ arg = "--dfa" then
      readArguments { options with deterministic := true } positional args
    else if arg = "-q" ∨ arg = "--quiet" then
      readArguments { options with quiet := true } positional args
    else if arg = "-e" ∨ arg = "--encoding" then
      match args with
      | [] => .error .missingEncoding
      | name :: args =>
        match Encoding.ofName? name with
        | none => .error (.unknownEncoding name)
        | some encoding => readArguments { options with encoding := encoding } positional args
    else if arg = "--" then
      match positional.reverse ++ args with
      | [] => .error .missingPattern
      | pattern :: inputs => .ok (.compile options pattern inputs)
    else if looksLikeOption arg then .error (.unknownOption arg)
    else readArguments options (arg :: positional) args

/-- The request that the arguments spell. -/
def parseArguments (args : List String) : Except UsageError Request := readArguments {} [] args

/-- The lines of an automaton's table. -/
def tableLines (a : Automaton) : List String :=
  ["Start state: " ++ toString a.start,
    "Accepting states: [" ++ ", ".intercalate (a.accepting.toList.map toString) ++ "]",
    "States:"] ++
  a.states.toList.zipIdx.flatMap fun (s, id) =>
    let marker := if a.accepting.contains id then " (accepting)" else ""
    ("  " ++ toString id ++ marker ++ ":") ::
      (s.epsilons.map fun t => "    ε -> " ++ toString t) ++
      s.transitions.map fun t => "    " ++ t.label.text ++ " -> " ++ toString t.target

/-- The lines that show an automaton and where it comes from. -/
def automatonLines (options : Options) (pattern : String) (a : Automaton) : List String :=
  ("=== Pattern: '" ++ pattern ++ "' (" ++ options.encoding.name ++ ") ===") :: tableLines a

/-- What an automaton says of an input. -/
def verdict (options : Options) (a : Automaton) (input : String) : String :=
  match options.encoding.encodeAll? input.toList with
  | none => "not representable in " ++ options.encoding.name
  | some bytes => if a.accepts bytes then "accepted" else "rejected"

/-- The line that reports on an input. -/
def inputLine (options : Options) (a : Automaton) (input : String) : String :=
  Text.quote input ++ ": " ++ verdict options a input

/-- What a run leaves behind. -/
structure Outcome where
  code : Nat
  out : String
  err : String
deriving DecidableEq, Repr

/-- Each line with its end. -/
def joinLines (lines : List String) : String := String.join (lines.map (· ++ "\n"))

/-- A cause, moved to the right; its own lines stay below each other. -/
def indentCause (first further cause : String) : String :=
  first ++ ("\n" ++ further).intercalate (cause.splitOn "\n")

/-- The list of causes, numbered if there are several. -/
def causesText : List String → String
  | [] => ""
  | [cause] => "\n\nCaused by:\n" ++ indentCause "    " "    " cause
  | causes =>
    "\n\nCaused by:" ++ String.join (causes.zipIdx.map fun (cause, i) =>
      "\n" ++ indentCause ("    " ++ toString i ++ ": ") "       " cause)

/-- A run that fails. -/
def failure (message : String) (causes : List String) : Outcome :=
  ⟨1, "", "Error: " ++ message ++ causesText causes ++ "\n"⟩

/-- The texts of an error and of what is behind it. -/
def errorTexts (e : Error) : List String := e.message :: e.sourceMessage?.toList

/-- The automaton that is shown and asked about inputs. -/
def shownAutomaton (options : Options) (a : Automaton) : Automaton :=
  if options.deterministic then a.determinize else a

/-- Compile a pattern and report. -/
def report (options : Options) (pattern : String) (inputs : List String) : Outcome :=
  let config : Config :=
    { encoding := options.encoding, caseInsensitive := options.caseInsensitive }
  match compile config pattern with
  | .error e => failure ("failed to compile pattern '" ++ pattern ++ "'") (errorTexts e)
  | .ok a =>
    let shown := shownAutomaton options a
    let table := if options.quiet then [] else automatonLines options pattern shown
    ⟨0, joinLines (table ++ inputs.map (inputLine options shown)), ""⟩

/-- What comes of a call. -/
def run (args : List String) : Outcome :=
  match parseArguments args with
  | .error e => failure e.message []
  | .ok .help => ⟨0, usage, ""⟩
  | .ok (.compile options pattern inputs) => report options pattern inputs

end PatternAutomata.CommandLine
