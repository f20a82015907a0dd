import PatternAutomata.Main
import PatternAutomata.Proofs.Automaton.Laws
import PatternAutomata.Proofs.Composition
import PatternAutomata.Proofs.Limits
import PatternAutomata.Proofs.Parser.Recognition
import PatternAutomata.Proofs.Parser.Safety
import PatternAutomata.Proofs.Parser.Semantics
import PatternAutomata.Proofs.Parser.SizeLimit
import PatternAutomata.Proofs.Scanner
import PatternAutomata.Proofs.Automaton.Walk
import PatternAutomata.Proofs.Automaton.Tidy
import PatternAutomata.Proofs.History
import PatternAutomata.Proofs.Parser.Blame
import PatternAutomata.Proofs.CharClass
import PatternAutomata.Proofs.Scanner.Lexeme
import PatternAutomata.Proofs.AsciiText
import PatternAutomata.Proofs.Caseless
import PatternAutomata.Proofs.CommandLine
import PatternAutomata.Proofs.Automaton.Estimate
import PatternAutomata.Proofs.CharClass.Size
import PatternAutomata.Proofs.Scanner.ClassSize
import PatternAutomata.Proofs.CharClass.Complement
import PatternAutomata.Proofs.Scanner.ClassItems
import PatternAutomata.Proofs.Automaton.Named
import PatternAutomata.Proofs.NegatedClass
import PatternAutomata.Proofs.Automaton.Restriction
import PatternAutomata.Proofs.Automaton.Product
import PatternAutomata.Proofs.Automaton.Language
import PatternAutomata.Proofs.Automaton.Shape
import PatternAutomata.Proofs.Automaton.Idempotence
import PatternAutomata.Proofs.Automaton.Symmetry
import PatternAutomata.Proofs.Automaton.Trie
import PatternAutomata.Proofs.Appending
import PatternAutomata.Proofs.Characters
import PatternAutomata.Proofs.Scanner.Tiling
import PatternAutomata.Proofs.Nesting
import PatternAutomata.Proofs.Scanner.Seam
import PatternAutomata.Proofs.Automaton.Closure
import PatternAutomata.Proofs.CommandLine.Arguments
import PatternAutomata.Proofs.Parser.Course
import PatternAutomata.Proofs.Parser.TermEncodings
import PatternAutomata.Proofs.Automaton.RowReading
