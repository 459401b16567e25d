import LogRules.Function.Catalog
import LogRules.Json.Report
import LogRules.Main
import LogRules.Proofs.Compilation
import LogRules.Proofs.CacheTransparency
import LogRules.Proofs.Accepted
import LogRules.Proofs.Answers
import LogRules.Proofs.CleanParsing
import LogRules.Proofs.CleanSources
import LogRules.Proofs.Operands
import LogRules.Proofs.Rereading
import LogRules.Proofs.Room
import LogRules.Proofs.RoundTrip
import LogRules.Proofs.KeySoundness
import LogRules.Proofs.Effects
import LogRules.Proofs.FaultReports
import LogRules.Proofs.CallBinding
import LogRules.Proofs.TypeSoundness
import LogRules.Proofs.Builtins
import LogRules.Proofs.Deployments
import LogRules.Proofs.KnownNames
import LogRules.Proofs.Composition
import LogRules.Proofs.InertConditions
import LogRules.Proofs.SiblingOrder
import LogRules.Proofs.Recovery
import LogRules.Proofs.StableFormatting
import LogRules.Proofs.RegistryIndependence
import LogRules.Proofs.ValidDeployments
import LogRules.Proofs.FormattedDeclarations
import LogRules.Proofs.RenderedNesting
import LogRules.Proofs.UnseenBindings
import LogRules.Proofs.FaultIsolation
import LogRules.Proofs.CollectedFaults
import LogRules.Proofs.ExpressionGrammar
import LogRules.Proofs.CacheAccounting
import LogRules.Proofs.ComposedRuns
import LogRules.Proofs.DeclaredTypes
import LogRules.Proofs.MessageReading
import LogRules.Proofs.AcceptedCalls
import LogRules.Proofs.LiteralValues
import LogRules.Proofs.NameDiagnostics
import LogRules.Proofs.DiagnosticSets
import LogRules.Proofs.StageNumbering
import LogRules.Proofs.Progress
import LogRules.Proofs.BoundedNesting
import LogRules.Proofs.ExactIntegers
import LogRules.Proofs.Places
import LogRules.Proofs.QuotedText
