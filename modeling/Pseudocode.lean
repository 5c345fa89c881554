import Pseudocode.Main
import Pseudocode.Session
import Pseudocode.Proofs.Ancestry
import Pseudocode.Proofs.RoundTrip
import Pseudocode.Proofs.Shadowing
import Pseudocode.Proofs.Environment
import Pseudocode.Proofs.Descent
import Pseudocode.Proofs.Itinerary
import Pseudocode.Proofs.Composition
import Pseudocode.Proofs.RootScope
import Pseudocode.Proofs.UnknownNames
import Pseudocode.Proofs.Formatting
import Pseudocode.Proofs.NormalValues
import Pseudocode.Proofs.Subterms
import Pseudocode.Proofs.Causes
import Pseudocode.Proofs.CommandLine
import Pseudocode.Proofs.Respect
import Pseudocode.Proofs.UnusedNames
import Pseudocode.Proofs.Pointing
import Pseudocode.Proofs.Excerpts
import Pseudocode.Proofs.Assignments
import Pseudocode.Proofs.Reading
import Pseudocode.Proofs.Shortest
import Pseudocode.Proofs.Numerals
import Pseudocode.Proofs.Quotes
import Pseudocode.Proofs.LineBreaks
import Pseudocode.Proofs.Overloads
import Pseudocode.Proofs.OpenBrackets
import Pseudocode.Proofs.JsonGrammar
import Pseudocode.Proofs.JsonReading
import Pseudocode.Proofs.NumberValue
import Pseudocode.Proofs.JsonExport
