import CodeGraph.IncludeUnits
import CodeGraph.IndexRace
import CodeGraph.BootstrapCovers
import CodeGraph.CallEvidence
import CodeGraph.NewmanModularity
import CodeGraph.CommunityRepair
import CodeGraph.SemanticDiff
import CodeGraph.GitDiffExact
import CodeGraph.InjectLimit
import CodeGraph.ResponseCap
import CodeGraph.WalkTraced
import CodeGraph.FinalizeRecovery
import CodeGraph.CochangeRuns
import CodeGraph.ZeraGrammar
import CodeGraph.VectorWeights
import CodeGraph.TargetContext
import CodeGraph.BuildRows
import CodeGraph.PhaseAccounts
import CodeGraph.SiteSettled
import CodeGraph.RefreshRerun
import CodeGraph.CfgComments
import CodeGraph.LspAnswers
import CodeGraph.TwinIdentity
import CodeGraph.DiffComplete
import CodeGraph.ImpactExact
import CodeGraph.PathGateExact
import CodeGraph.ProcessTrace
import CodeGraph.FeatureClosure
import CodeGraph.CfgPrinted
import CodeGraph.FileUri
import CodeGraph.CypherLiterals
import CodeGraph.ModuleFiles
import CodeGraph.RustScopeExact
import CodeGraph.CoverageCarried
import CodeGraph.ManifestExact
import CodeGraph.EdgeStaging
import CodeGraph.FilePrefix
import CodeGraph.UnixTime
import CodeGraph.FindingIndex
import CodeGraph.CallerLabels
import CodeGraph.NestedScope
import CodeGraph.AssocFacts
import CodeGraph.EdgeRouting
import CodeGraph.BindRules
import CodeGraph.CppMacroMask
import CodeGraph.DocCountsExact
import CodeGraph.LabelRetrieval
import CodeGraph.GraphCache
import CodeGraph.ArtifactImport
import CodeGraph.Readiness
import CodeGraph.PrdMatching
import CodeGraph.LspResolvePass
import CodeGraph.OutsideTargets
import CodeGraph.MacroReceiver
import CodeGraph.HostInstall
import CodeGraph.VersionSpine
import CodeGraph.OtherOwner
