import GraphCalc.Main
import GraphCalc.Proofs.Eval.Agreement
import GraphCalc.Proofs.Eval.FreeNames
import GraphCalc.Proofs.Eval.Outcome
import GraphCalc.Proofs.Grammar.Complete
import GraphCalc.Proofs.Line.Definition
import GraphCalc.Proofs.Source.RoundTrip
import GraphCalc.Proofs.Json.Escape
import GraphCalc.Proofs.Worksheet.SaveLoad
import GraphCalc.Proofs.Eval.Memory
import GraphCalc.Proofs.Worksheet.History
import GraphCalc.Proofs.Source.Renaming
import GraphCalc.Proofs.Source.Scanning
import GraphCalc.Proofs.Grammar.Fault
import GraphCalc.Proofs.Eval.Limits
import GraphCalc.Proofs.Eval.Substitution
import GraphCalc.Proofs.Source.RenamedTree
import GraphCalc.Proofs.Line.Drawn
import GraphCalc.Proofs.Worksheet.Drawing
import GraphCalc.Proofs.Number.Order
import GraphCalc.Proofs.Number.Nearest
import GraphCalc.Proofs.Number.Residue
import GraphCalc.Proofs.Number.Arithmetic
import GraphCalc.Proofs.Number.Middle
import GraphCalc.Proofs.Plot.Merging
import GraphCalc.Proofs.Plot.Roots
import GraphCalc.Proofs.Plot.Limited
import GraphCalc.Proofs.Plot.InView
import GraphCalc.Proofs.Grammar.Heads
import GraphCalc.Proofs.Eval.Unrelated
import GraphCalc.Proofs.Worksheet.Unrelated
import GraphCalc.Proofs.Eval.CallDepth
import GraphCalc.Proofs.Number.Underflow
import GraphCalc.Proofs.Plot.Found
import GraphCalc.Proofs.Command.Traces
import GraphCalc.Proofs.Number.Accuracy
import GraphCalc.Proofs.Number.Grid
import GraphCalc.Proofs.Plot.Bisection
import GraphCalc.Proofs.Plot.Cells
import GraphCalc.Proofs.Quadrature.Samples
import GraphCalc.Proofs.Quadrature.Cubics
import GraphCalc.Proofs.Quadrature.Ends
import GraphCalc.Proofs.Plot.Symmetry
import GraphCalc.Proofs.Grammar.Juxtaposition
import GraphCalc.Proofs.Area.Extraction
import GraphCalc.Proofs.Area.Outermost
import GraphCalc.Proofs.Plot.Runs
import GraphCalc.Proofs.Plot.Segments
import GraphCalc.Proofs.Area.Polygons
import GraphCalc.Proofs.Number.Neighbours
import GraphCalc.Proofs.Plot.Span
import GraphCalc.Proofs.Grammar.WholeCall
import GraphCalc.Proofs.Source.Seams
import GraphCalc.Proofs.Eval.IntegralBounds
import GraphCalc.Proofs.Area.Reading
import GraphCalc.Proofs.Line.Tightest
import GraphCalc.Proofs.Line.Admitted
import GraphCalc.Proofs.Number.Readable
import GraphCalc.Proofs.Line.Described
import GraphCalc.Proofs.Plot.Cursor
import GraphCalc.Proofs.Source.Respacing
import GraphCalc.Proofs.Grammar.Progress
