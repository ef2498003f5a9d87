import Pliron.Lib.FastLiveness
import Pliron.Analyses.LivenessPointsCorrect
import Pliron.IRBuild.RewriterCorrect
import Pliron.IRBuild.InserterCorrect
import Pliron.IRBuild.MatchRewriteCorrect
import Pliron.Analyses.LivenessShortcut
import Pliron.IR.Verify
import Pliron.IR.GivenNamesCorrect
import Pliron.IR.DefUseRuns
import Pliron.Graph.PostDominanceSpec
import Pliron.Graph.LoopTreeCorrect
import Pliron.Graph.SccCorrect
import Pliron.Graph.TraversalCorrect
import Pliron.Graph.ControlDependenceCorrect
import Pliron.Graph.DomFrontierCorrect
import Pliron.IR.SymbolTableRuns
import Pliron.IR.SymbolTableWalk
import Pliron.IRFmt.OutlinedCorrect
import Pliron.IRFmt.LocationTextCorrect
import Pliron.LLVM.ConstFoldSound
import Pliron.LLVM.ConstFoldMonotone
import Pliron.LLVM.AggregateFold
import Pliron.LLVM.FromLlvmCorrect
import Pliron.LLVM.MetadataImport
import Pliron.LLVM.ImportNamesCorrect
import Pliron.PassManager.Truthful
import Pliron.Builtin.OperandSegmentsEdit
import Pliron.IR.LinkedListIter
import Pliron.Utils.APIntShift
import Pliron.Utils.LegaliserCorrect
import Pliron.Utils.StorageUniquerCorrect
import Pliron.Utils.SmallSetCorrect
import Pliron.Graph.CommonRegion
import Pliron.Graph.WalkExact
import Pliron.Opts.SccpSound
import Pliron.Opts.SccpOrder
import Pliron.Opts.PhiPlacementCorrect
import Pliron.IRBuild.Recorder
import Pliron.Utils.UnionFind
import Pliron.LLVM.MetadataTable
import Pliron.LLVM.MetadataVerify
import Pliron.LLVM.MetadataTextCorrect
import Pliron.IRFmt.FormatStringCorrect
import Pliron.LLVM.AttributeListsCorrect
import Pliron.IRFmt.DerivedFormatCorrect
import Pliron.Opts.SccpFit
import Pliron.Opts.SccpTotal
import Pliron.Opts.RegionBranchVerify
