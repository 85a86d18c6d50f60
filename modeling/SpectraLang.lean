import SpectraLang.Passes.ConstantFoldingSound
import SpectraLang.Codegen.ScalarPromotion
import SpectraLang.Codegen.StackAllocasSound
import SpectraLang.Lowering.EscapeSound
import SpectraLang.Lowering.MonomorphizationSound
import SpectraLang.Analysis.Returns
import SpectraLang.Analysis.ExhaustivenessSound
import SpectraLang.Analysis.Captures
import SpectraLang.Runtime.HandleTable
import SpectraLang.Runtime.ManualHeap
import SpectraLang.Runtime.StaleFrames
import SpectraLang.Lowering.ConstEvaluation
import SpectraLang.Syntax.Precedence
import SpectraLang.Passes.FunctionInliningLoops
import SpectraLang.Lowering.Loops
import SpectraLang.Stdlib.Csv
import SpectraLang.Stdlib.JsonText
import SpectraLang.Stdlib.Base58
import SpectraLang.Stdlib.Calendar
import SpectraLang.Stdlib.PathLaws
import SpectraLang.Stdlib.Diff
import SpectraLang.Stdlib.SemverLaws
import SpectraLang.Database.PoolRuns
import SpectraLang.Database.Migrations
import SpectraLang.Database.Predicates
import SpectraLang.Runtime.IntegerMaps
import SpectraLang.Runtime.HostCache
import SpectraLang.Passes.TailCallMarking
import SpectraLang.Runtime.SourceStream
import SpectraLang.Codegen.CycleBlocks
import SpectraLang.Codegen.EmissionOrder
import SpectraLang.Stdlib.Algorithms
import SpectraLang.Stdlib.Glob
import SpectraLang.Stdlib.Kmp
import SpectraLang.Api.RateLimit
