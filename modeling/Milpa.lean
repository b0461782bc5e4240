import Milpa.Core.Flags
import Milpa.Core.Honoured
import Milpa.Core.Completeness
import Milpa.Core.GraphExact
import Milpa.Core.Answers
import Milpa.Core.RootAuthority
import Milpa.Core.ArtifactCache
import Milpa.Core.Attestation
import Milpa.Core.PathGate
import Milpa.Core.StubTable
import Milpa.Core.RootClaimsAgree
import Milpa.Types.VersionMap
import Milpa.Order.Stretch
import Milpa.Solver.VersionGaps
import Milpa.Solver.Refutation
import Milpa.Core.Binding
import Milpa.Core.SourceIdInjective
import Milpa.Core.LockfileCodec
import Milpa.Core.GateHistory
import Milpa.Core.IndexExtraction
import Milpa.Core.EntryAgree
import Milpa.Core.DagIdentity
import Milpa.Core.ImportSlot
import Milpa.Core.StoreRuns
import Milpa.Core.ExtractFaithful
import Milpa.Core.IndexCacheHeals
import Milpa.Core.IndexCacheSnapshot
import Milpa.Core.NimcfgLayout
import Milpa.Core.NimcfgOptions
import Milpa.Core.SlotRuns
import Milpa.Core.LockfileGraph
import Milpa.Core.GitMaterialize
import Milpa.Core.FlagFixpoint
import Milpa.Core.RootClaimsOrder
import Milpa.Solver.ConstraintRoundTrip
import Milpa.Solver.NextBound
import Milpa.Solver.SemverPrecedence
import Milpa.Solver.PickVersion
import Milpa.Core.RatchetDigest
import Milpa.Core.EpochCommitment
import Milpa.Core.EntryTrust
import Milpa.Core.RegistryCandidates
import Milpa.Core.EntryMandate
import Milpa.Solver.Constrainers
import Milpa.Core.PinStrip
import Milpa.Core.ViewSlots
import Milpa.Types.Calendar
import Milpa.Core.FetchAny
import Milpa.Core.ObservedRecord
import Milpa.Core.ViewVerified
import Milpa.Core.FrozenFlags
import Milpa.Nimble.Condition
import Milpa.Nimble.NimScript
import Milpa.Nimble.ConditionReading
import Milpa.Nimble.ConditionExact
import Milpa.Nimble.Branches
import Milpa.Nimble.ChainExact
import Milpa.Order.Brackets
import Milpa.Kdl.Lexical
import Milpa.Kdl.NestingGuard
import Milpa.Order.Consume
import Milpa.Nimble.Scan
import Milpa.Nimble.Statements
import Milpa.Nimble.ScanReaches
import Milpa.Nimble.ChainLines
import Milpa.Nimble.ScanExact
import Milpa.Core.FlagClosure
import Milpa.Core.NimcfgDefines
import Milpa.Core.TarReaderExact
import Milpa.Core.ExtractLimits
import Milpa.Core.CommitmentRecovery
import Milpa.Core.Captured
import Milpa.Core.LoadWorkspace
import Milpa.Core.BoundedHttp
import Milpa.Core.ProjectFiles
import Milpa.Types.FormUrlencoded
import Milpa.Core.WwwAuthenticate
import Milpa.Core.TokenRequest
import Milpa.Core.OciClient
import Milpa.Types.GitConfig
import Milpa.Core.GitRelativeUrl
import Milpa.Core.GitModules
import Milpa.Core.IndexAsOf
import Milpa.Core.RunAsOf
import Milpa.Core.ResolveAsOf
import Milpa.Core.FrozenSources
import Milpa.Core.Frozen
import Milpa.Core.FrozenFetch
import Milpa.Core.FrozenReplay
import Milpa.Core.Drift
