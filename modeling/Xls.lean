import Xls.Bits
import Xls.Value
import Xls.Domains
import Xls.Ir.Op
import Xls.Ir.FunctionBase
import Xls.Ir.Verifier
import Xls.QueryEngine
import Xls.UnionQueryEngine
import Xls.SelectSimplification.Rewrite
import Xls.SelectSimplification.Basic
import Xls.SelectSimplification.Mask
import Xls.SelectSimplification.Split
import Xls.SelectSimplification.BitSource
import Xls.SelectSimplification.KnownSelector
import Xls.SelectSimplification.IdenticalCases
import Xls.SelectSimplification.EquivalentCases
import Xls.SelectSimplification.DeadCases
import Xls.SelectSimplification.MergeSelects
import Xls.SelectSimplification.Decompose
import Xls.SelectSimplification.OneHot
import Xls.SelectSimplification.Squeeze
import Xls.SelectSimplification.SelectChains
import Xls.SelectSimplification.SimplifyNode
import Xls.SelectSimplification.Pass
import Xls.EvalProcMain.MemoryModel
import Xls.EvalProcMain.RunBlock
import Xls.EvalProcMain.EvaluateProcs
import Xls.EvalProcMain.Cycle
import Xls.EvalProcMain.Run
import Xls.EvalProcMain.Setup
import Xls.Codegen.NameLegalization
