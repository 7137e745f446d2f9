import PolyGlot.IR.Spacing
import PolyGlot.Antlr.Totality
import PolyGlot.Mutation.Extraction
import PolyGlot.Mutation.Novelty
import PolyGlot.Mutation.Availability
import PolyGlot.Types.Identity
import PolyGlot.Types.Pointers
import PolyGlot.Scope.Placement
import PolyGlot.Scope.Completeness
import PolyGlot.Scope.DataSearch
import PolyGlot.Generator.Callable
import PolyGlot.Generator.Closure
import PolyGlot.Generator.Shadowing
import PolyGlot.Generator.Progress
import PolyGlot.Generator.Traced
import PolyGlot.Generator.Range
import PolyGlot.Config.Reload
import PolyGlot.Validate.SourceOrder
import PolyGlot.Antlr.Frontend
import PolyGlot.Fuzzer.Startup
import PolyGlot.Fuzzer.TypeTable
import PolyGlot.Fuzzer.LibraryGrowth
import PolyGlot.Corpus.Evaluation
import PolyGlot.IR.HashBlocks
import PolyGlot.Fuzzer.SafeFixing
import PolyGlot.Scope.Lookup
import PolyGlot.Scope.Signatures
