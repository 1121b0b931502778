import GaussJordan.EchelonForm
import GaussJordan.Report
import GaussJordan.RowCopies
import GaussJordan.RowTasks
import GaussJordan.Proofs.Shapes
import GaussJordan.Proofs.Derivation
import GaussJordan.Proofs.ColumnClearing
import GaussJordan.Proofs.PivotSearch
import GaussJordan.Proofs.RestartingSearch
import GaussJordan.Proofs.ReductionRun
import GaussJordan.Proofs.TraceShapes
import GaussJordan.Proofs.EchelonShape
import GaussJordan.Proofs.ExactArithmetic
import GaussJordan.Proofs.UnitColumns
import GaussJordan.Proofs.ExactReduction
import GaussJordan.Proofs.Idempotence
import GaussJordan.Proofs.Strays
import GaussJordan.Proofs.ReductionLaws
import GaussJordan.Proofs.ClassifiedRows
import GaussJordan.Proofs.PivotAgreement
import GaussJordan.Proofs.RowEquivalence
import GaussJordan.Proofs.Solutions
import GaussJordan.Proofs.Snapshots
import GaussJordan.Proofs.CanonicalForm
import GaussJordan.Proofs.DiagonalRun
import GaussJordan.Proofs.ExactInverse
import GaussJordan.Proofs.LeadingMinors
import GaussJordan.Proofs.CopiedCells
import GaussJordan.Proofs.Replay
import GaussJordan.Proofs.SharedColumns
import GaussJordan.Proofs.RowExchanges
import GaussJordan.Proofs.Lockstep
import GaussJordan.Proofs.SolvingByInverse
import GaussJordan.Proofs.SolvedSquare
import GaussJordan.Proofs.NearestDouble
import GaussJordan.Proofs.DoubleBits
import GaussJordan.Proofs.PrintedNumbers
import GaussJordan.Proofs.TokenRuns
import GaussJordan.Proofs.StackedRows
import GaussJordan.Proofs.FlatOperations
import GaussJordan.Proofs.RowLists
import GaussJordan.Proofs.TextGrammar
import GaussJordan.Proofs.PrintedMatrices
import GaussJordan.Proofs.ReportText
import GaussJordan.Proofs.Totality
import GaussJordan.Proofs.EventStream
import GaussJordan.Proofs.PivotBlocks
import GaussJordan.Proofs.ClearedColumns
import GaussJordan.Proofs.Descriptions
import GaussJordan.Proofs.LineKinds
import GaussJordan.Proofs.ReportLayout
import GaussJordan.Proofs.ReportOutline
import GaussJordan.Proofs.ColumnPrefix
import GaussJordan.Proofs.TransposeTrace
import GaussJordan.Proofs.TaskOrder
import GaussJordan.Proofs.ColumnCuts
import GaussJordan.Proofs.MatrixStore
import GaussJordan.Proofs.FlatRuns
