import QStar.Lowering.KeyMaterial
import QStar.Stella.NullBuild
import QStar.Lowering.Replay
import QStar.Ninja.CacheInputs
import QStar.Daemon.FreshGraph
import QStar.Daemon.BuildAgreement
import QStar.Daemon.Mirror
import QStar.Cleaning.Safety
import QStar.ActionCache.Material
import QStar.Testing.Results
import QStar.Testing.Scheduling
import QStar.Outputs.Ownership
import QStar.Explain.Prediction
import QStar.Stella.ManifestText
import QStar.Stella.CompileDb
import QStar.Stella.DepsTransparency
import QStar.Stella.GraphCache
import QStar.Base.DepfileEncoding
import QStar.Processes.WindowsCommandLine
import QStar.Daemon.EventStream
import QStar.Authoring.ProjectOptions
import QStar.Ninja.ConfigHeader
import QStar.Ninja.CommandText
import QStar.Actions.ResponseFiles
import QStar.Lowering.UsageClosure
import QStar.Testing.Resolution
import QStar.Staging.Layout
import QStar.Validation.GeneratedOutputs
import QStar.Authoring.ModuleExports
import QStar.Authoring.CommandSpecs
import QStar.LanguageServer.Server
import QStar.BuildGraph.UnityBatches
import QStar.BuildGraph.RelativeDirs
import QStar.ProjectCommands.Resolution
import QStar.BuildGraph.ArtifactSelection
import QStar.Authoring.ReadOnlyTables
import QStar.Authoring.OnceEvaluated
import QStar.ProjectCommands.Expansion
import QStar.RunTarget.Expectations
import QStar.Validation.ParserBounds
import QStar.Authoring.SharedGlobals
import QStar.Authoring.ConfigMerge
import QStar.ActionCache.Interruptions
import QStar.Scheduler.Order
