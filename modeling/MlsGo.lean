import MlsGo.InOrderLayout
import MlsGo.TreeMath
import MlsGo.TreeNodes
import MlsGo.CipherSuite
import MlsGo.SuiteLaws
import MlsGo.RatchetTree
import MlsGo.TreeSync
import MlsGo.TreeKem
import MlsGo.KeySchedule
import MlsGo.Framing
import MlsGo.GroupObjects
import MlsGo.MessageLaws
import MlsGo.ObjectLaws
import MlsGo.GroupState
import MlsGo.CommitReceiving
import MlsGo.CommitSending
import MlsGo.GroupJoining
import MlsGo.CodecReturns
import MlsGo.ReaderReturns
import MlsGo.ScheduleReturns
import MlsGo.CanonicalWire
import MlsGo.CanonicalForms
import MlsGo.SignedInputs
import MlsGo.TreeSlots
import MlsGo.LeafChanges
import MlsGo.PathSlots
import MlsGo.HashSlots
import MlsGo.PathRuns
import MlsGo.RepresentationInvariant
import MlsGo.ResolutionCover
import MlsGo.LeafPlacement
import MlsGo.WireCopies
import MlsGo.WireRoundTrips
import MlsGo.PathDecryption
import MlsGo.ProposalEffects
import MlsGo.ProposalOrder
import MlsGo.JoinerKeys
import MlsGo.PathSecrets
import MlsGo.CommitRuns
import MlsGo.CommitAgreement
import MlsGo.WireLimit
import MlsGo.TreeHashBinding
import MlsGo.ParentHashValidity
import MlsGo.FencingTokens
import MlsGo.LeaseFencing
import MlsGo.FencingSafety
import MlsGo.OrderingAnswers
import MlsGo.MessageAdmission
import MlsGo.CommitAcceptance
import MlsGo.CommitAdmission
import MlsGo.ValidationFaults
import MlsGo.PathReturns
import MlsGo.JoinRuns
import MlsGo.GroupRuns
import MlsGo.TicketCounters
import MlsGo.SenderSlots
import MlsGo.SecurityAssociations
import MlsGo.VniController
import MlsGo.OrderingFailures
import MlsGo.TranscriptChain
import MlsGo.InPlacePrograms
import MlsGo.GroupMemory
import MlsGo.MemoryOwnership
import MlsGo.InPlaceTrees
import MlsGo.CommitAtomicity
import MlsGo.GroupCoherence
import MlsGo.CommitReturns
import MlsGo.LimitErrors
import MlsGo.TreeValidity
import MlsGo.GroupInfoAuthentication
import MlsGo.MergedPaths
import MlsGo.PathValidity
import MlsGo.JoinerPlacement
import MlsGo.UpdatePathFit
import MlsGo.CommitValidity
import MlsGo.ExternalAgreement
import MlsGo.ExternalEntry
import MlsGo.WelcomeRuns
import MlsGo.WelcomeAgreement
import MlsGo.WelcomeEntry
import MlsGo.SeparateTrees
import MlsGo.EpochCounters
import MlsGo.LeafIndices
import MlsGo.ExternalProposals
import MlsGo.JoinerIdentity
import MlsGo.UnmergedLeaves
import MlsGo.MessageTransport
import MlsGo.OwnUpdates
import MlsGo.PathlessCommits
import MlsGo.PathKeys
import MlsGo.GroupWorlds
import MlsGo.GroupHistories
import MlsGo.SymbolicKnowledge
import MlsGo.PathSecrecy
import MlsGo.RemovalSecrecy
import MlsGo.ReplayWindow
import MlsGo.ForkRecovery
import MlsGo.LeaseExclusivity
import MlsGo.TruncatedTrees
import MlsGo.TreeIndices
import MlsGo.TreeAncestors
import MlsGo.SecretTreeKeys
import MlsGo.SenderAssociations
import MlsGo.MembershipPlans
import MlsGo.MembershipConvergence
import MlsGo.Reflector
import MlsGo.SimClient
import MlsGo.SimWorld
import MlsGo.ClientSteps
import MlsGo.SenderLag
import MlsGo.EpochBinding
import MlsGo.ForkDetection
import MlsGo.EpochHistories
import MlsGo.CommitConsensus
import MlsGo.BinaryHeap
import MlsGo.SimScheduler
import MlsGo.ControllerEntry
