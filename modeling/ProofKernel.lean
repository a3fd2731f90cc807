import ProofKernel.Main
import ProofKernel.Proof.Encode
import ProofKernel.Proof.Rules
import ProofKernel.Term.Normal
import ProofKernel.SimpleType.Cells
import ProofKernel.Proofs.Fresh
import ProofKernel.Proofs.Nameless
import ProofKernel.Proofs.Substitution
import ProofKernel.Proofs.Matching
import ProofKernel.Proofs.Unification
import ProofKernel.Proofs.Typing
import ProofKernel.Proofs.TypeSoundness
import ProofKernel.Proofs.Lexing
import ProofKernel.Proofs.Reading
import ProofKernel.Proofs.Leaves
import ProofKernel.Proofs.Room
import ProofKernel.Proofs.Written
import ProofKernel.Proofs.ReadingBack
import ProofKernel.Proofs.RoundTrip
import ProofKernel.Proofs.ExtendedTables
import ProofKernel.Proofs.Literals
import ProofKernel.Proofs.NormalForm
import ProofKernel.Proofs.MostGeneral
import ProofKernel.Proofs.AcyclicStores
import ProofKernel.Proofs.CellReading
import ProofKernel.Proofs.CellUnification
import ProofKernel.Proofs.CellInference
import ProofKernel.Proofs.Principality
import ProofKernel.Proofs.SubjectReduction
import ProofKernel.Proofs.Levels
import ProofKernel.Proofs.Sessions
import ProofKernel.Proofs.Justification
import ProofKernel.Proofs.Encoding
import ProofKernel.Proofs.Replay
import ProofKernel.Proofs.SavedProofs
import ProofKernel.Proofs.Tags
import ProofKernel.Proofs.RememberedParses
import ProofKernel.Proofs.LineReports
import ProofKernel.Proofs.Nesting
import ProofKernel.Proofs.AlphaEquivalence
import ProofKernel.Proofs.Renamings
import ProofKernel.Substitution.Copies
import ProofKernel.Proofs.Copies
import ProofKernel.Proofs.Sharing
import ProofKernel.Proofs.Decapture
import ProofKernel.Proofs.NormalSharing
import ProofKernel.Proofs.NamelessInference
import ProofKernel.Proofs.Expansion
import ProofKernel.Proofs.Unfolding
import ProofKernel.Proofs.Precedence
import ProofKernel.Proofs.GrowingEnvironments
import ProofKernel.Proofs.TypeNotation
import ProofKernel.Proofs.RenamedTypes
import ProofKernel.Proofs.TypeTexts
import ProofKernel.SimpleType.NamedCells
import ProofKernel.Proofs.NamedCells
import ProofKernel.Proofs.RunTexts
import ProofKernel.Proofs.AlikeRows
import ProofKernel.Proofs.AddedOperators
import ProofKernel.Proofs.Completions
import ProofKernel.Proofs.WordsKept
import ProofKernel.Term.Counter
import ProofKernel.Proofs.Counter
import ProofKernel.Proofs.Layout
import ProofKernel.Proofs.Spellings
import ProofKernel.Proofs.Dumps
import ProofKernel.Proofs.MaximalMunch
import ProofKernel.Text.LineTable
import ProofKernel.Proofs.Positions
import ProofKernel.IndexedCache
import ProofKernel.Replacement
import ProofKernel.Proofs.Capture
import ProofKernel.Proofs.PreOrder
import ProofKernel.Proofs.Queues
import ProofKernel.Proofs.Paths
import ProofKernel.Proofs.Progress
import ProofKernel.Proofs.ScopeDiscipline
import ProofKernel.Term.NameSets
import ProofKernel.Proofs.NameSets
