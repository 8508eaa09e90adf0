import ChordGrammar.Scalar.Exact
import ChordGrammar.Scalar.Float
import ChordGrammar.Oracle.LeastMotion
import ChordGrammar.Oracle.Recorded
import ChordGrammar.Text.Message
import ChordGrammar.Proofs.Exact
import ChordGrammar.Proofs.Placements
import ChordGrammar.Proofs.Voicings
import ChordGrammar.Proofs.ScoreOrder
import ChordGrammar.Proofs.Merging
import ChordGrammar.Proofs.Leading
import ChordGrammar.Proofs.Classification
import ChordGrammar.Proofs.Writing
import ChordGrammar.Generator.History
import ChordGrammar.Proofs.Agreement
import ChordGrammar.Proofs.Memoryless
import ChordGrammar.Proofs.Results
import ChordGrammar.Proofs.Brackets
import ChordGrammar.Proofs.Forms
import ChordGrammar.Proofs.Transposition
import ChordGrammar.Proofs.DepthFirst
import ChordGrammar.Proofs.WrittenNotes
import ChordGrammar.Proofs.Order
import ChordGrammar.Proofs.NoteByNote
import ChordGrammar.Voicing.History
import ChordGrammar.Proofs.Transparency
import ChordGrammar.Proofs.Orbit
import ChordGrammar.Proofs.Expression
import ChordGrammar.Text.Pattern
import ChordGrammar.Command.Grammar
import ChordGrammar.Proofs.Predictive
import ChordGrammar.Proofs.Numerals
import ChordGrammar.Proofs.Grammar
import ChordGrammar.Proofs.Rounding
import ChordGrammar.Proofs.Values
import ChordGrammar.Proofs.Steady
import ChordGrammar.Proofs.BinaryPlaces
import ChordGrammar.Proofs.ContextualAction
import ChordGrammar.Proofs.Idempotence
import ChordGrammar.Proofs.PrimeForm
import ChordGrammar.Proofs.ParallelFifths
import ChordGrammar.Proofs.GroupLaws
import ChordGrammar.Proofs.Ties
import ChordGrammar.Interpreter.History
import ChordGrammar.Proofs.Stopping
import ChordGrammar.Proofs.PrimeCommand
import ChordGrammar.Proofs.Odometer
import ChordGrammar.Score.History
import ChordGrammar.Proofs.StableOrder
import ChordGrammar.Production.Text
import ChordGrammar.Proofs.Morphism
import ChordGrammar.Proofs.VoicingIndex
import ChordGrammar.Interpreter.Trace
import ChordGrammar.Proofs.RunInvariants
import ChordGrammar.Proofs.Legato
import ChordGrammar.Proofs.Copies
import ChordGrammar.Proofs.Revoicing
import ChordGrammar.Proofs.Spelling
