import StackScript.Main
import StackScript.Proofs.Generated
import StackScript.Shell.Completion
import StackScript.Terminal.Highlight
import StackScript.Tree.Walk
import StackScript.Proofs.Execution
import StackScript.Proofs.Structured
import StackScript.Proofs.Marked
import StackScript.Proofs.Compiled
import StackScript.Proofs.Agreement
import StackScript.Proofs.Meaning
import StackScript.Proofs.Outcome
import StackScript.Proofs.CodeMeaning
import StackScript.Proofs.InPlaceMeaning
import StackScript.Proofs.Scoped
import StackScript.Proofs.Secure
import StackScript.Proofs.Safety
import StackScript.Proofs.CallStack
import StackScript.Proofs.Ancestors
import StackScript.Proofs.Patterns
import StackScript.Proofs.Phrases
import StackScript.Proofs.AdmittedMatches
import StackScript.Proofs.Builds
import StackScript.Proofs.Completeness
import StackScript.Proofs.Exhaustion
import StackScript.Proofs.Detaching
import StackScript.Proofs.Layout
import StackScript.Proofs.Passes
import StackScript.Proofs.Rows
import StackScript.Proofs.Writing
import StackScript.Proofs.Climbing
import StackScript.Proofs.Precedence
import StackScript.Proofs.Fixpoint
import StackScript.Proofs.Listings
import StackScript.Proofs.ExactDecimals
import StackScript.Proofs.Resolution
import StackScript.Proofs.Parameters
import StackScript.Proofs.SlotReuse
import StackScript.Proofs.Growing
import StackScript.Proofs.Balance
import StackScript.Proofs.LiveSlots
import StackScript.Proofs.Lossless
import StackScript.Proofs.Upholding
import StackScript.Proofs.BodyInvariants
import StackScript.Proofs.Shaped
import StackScript.Proofs.Bodies
import StackScript.Proofs.Pieces
import StackScript.Proofs.SlotArray
import StackScript.Proofs.Isolation
import StackScript.Proofs.Moments
import StackScript.Proofs.OwnBodies
import StackScript.Proofs.CallIsolation
import StackScript.Proofs.CallState
import StackScript.Proofs.GlobalNames
import StackScript.Proofs.KnownGlobals
import StackScript.Proofs.SessionGlobals
import StackScript.Proofs.LineBreaks
import StackScript.Proofs.SourceOrder
import StackScript.Proofs.Brackets
import StackScript.Proofs.Branches
import StackScript.Proofs.LeadingMinus
import StackScript.Proofs.RoundTrip
import StackScript.Proofs.WordBoundaries
import StackScript.Proofs.MapEntries
import StackScript.Proofs.Colouring
import StackScript.Proofs.HeldSlots
import StackScript.Proofs.Completions
import StackScript.Proofs.Whereabouts
