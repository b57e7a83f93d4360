import Verum.Vbc.Specialization
import Verum.Vbc.ReachabilityExact
import Verum.Proof.LevelIdempotence
import Verum.Proof.Nesting
import Verum.Proof.ExportFaithful
import Verum.Proof.CheckerSoundness
import Verum.Proof.DeBruijn
import Verum.Proof.ConversionTransitivity
import Verum.Registry.SatResolution
import Verum.Registry.PubGrub
import Verum.Interpreter.Registers
import Verum.Interpreter.CbgrHeap
import Verum.NanBox.Runs
import Verum.SyntaxTree.Intended
import Verum.SyntaxTree.TextExact
import Verum.SyntaxTree.EditOrder
import Verum.SyntaxTree.LineColumns
import Verum.SyntaxTree.TriviaExact
import Verum.SyntaxTree.RedNavigation
import Verum.Exhaustiveness.RangeOverlaps
import Verum.Exhaustiveness.Reports
import Verum.Cubical.FaceProjection
import Verum.Cbgr.Frontiers
import Verum.Cbgr.SsaEscapes
import Verum.Cbgr.SsaLinking
import Verum.Collections.ConsistentHash
import Verum.Collections.DequeRuns
import Verum.Collections.DequeRotation
import Verum.Collections.MapEntryRuns
import Verum.Collections.BTreeRange
import Verum.Collections.BinaryHeapRuns
import Verum.Collections.UnionFindRuns
import Verum.Collections.Toposort
import Verum.Collections.Lru
import Verum.Collections.Trie
import Verum.Modules.ParallelGroups
import Verum.Json.Serializer
import Verum.Sqlite.ReaderMarks
import Verum.Sqlite.SessionApply
import Verum.Sqlite.SessionInvert
import Verum.Sqlite.WalIndex
import Verum.Cbor.Canonical
import Verum.Kernel.Refinements
import Verum.Kernel.DefinitionalEquality
import Verum.Kernel.UniverseOrder
import Verum.Kernel.OrdinalOrder
import Verum.Kernel.GodelCoding
import Verum.Mono.SubstitutionLaws
import Verum.Mono.InstantiationOrder
import Verum.Mono.OperandTypes
import Verum.Mono.DisplayTargets
import Verum.Mono.DisplayTyping
import Verum.Mono.Reencoding
import Verum.Codegen.LiveRegisters
import Verum.Encoding.Base64
