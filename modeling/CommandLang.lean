import CommandLang.Automaton.Build
import CommandLang.CommandLine.Session
import CommandLang.Grammar.Spelling
import CommandLang.Main
import CommandLang.Parse.Replay
import CommandLang.Parse.Run
import CommandLang.Proofs.ErrorPosition
import CommandLang.Proofs.Linearisation
import CommandLang.Proofs.RoundTrip
import CommandLang.Schema.CatalogText
import CommandLang.Schema.Language
import CommandLang.Vector.Decode
import CommandLang.Vector.Prediction
import CommandLang.Proofs.Outcome
import CommandLang.Proofs.Verification
import CommandLang.Proofs.Directions
import CommandLang.Proofs.Canonicity
import CommandLang.Proofs.Acceptance
import CommandLang.Proofs.Clauses
import CommandLang.Proofs.Flattening
import CommandLang.Proofs.Devices
import CommandLang.Proofs.Copies
import CommandLang.Proofs.Quotation
import CommandLang.Proofs.Wording
import CommandLang.Proofs.Legibility
import CommandLang.Proofs.Counterparts
import CommandLang.Proofs.Division
import CommandLang.Proofs.Spacing
import CommandLang.Proofs.Splitting
import CommandLang.Proofs.Readback
import CommandLang.Proofs.Shortening
import CommandLang.Proofs.Compilation
import CommandLang.Proofs.Shape
import CommandLang.Proofs.Reductions
import CommandLang.Proofs.Substitution
import CommandLang.Proofs.Placement
import CommandLang.Proofs.Lookahead
import CommandLang.Proofs.Typing
import CommandLang.Proofs.Discernment
import CommandLang.Proofs.Occurrence
import CommandLang.Proofs.Predictions
import CommandLang.Proofs.Truncation
import CommandLang.Proofs.Paths
import CommandLang.Proofs.Declarations
import CommandLang.Proofs.Interning
import CommandLang.Proofs.Renaming
