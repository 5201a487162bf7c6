import Scarab.InterleaveProgram
import Scarab.InterleaveSystem
import Scarab.EngineTypes
import Scarab.EngineKeys
import Scarab.EngineDb
import Scarab.EngineRerun
import Scarab.EngineCancel
import Scarab.EngineEffects
import Scarab.EngineEvidence
import Scarab.EngineBacked
import Scarab.EngineBackedRuns
import Scarab.EngineBackedGates
import Scarab.EngineBackedAdmission
import Scarab.EngineBackedLaunch
import Scarab.EngineHistory
import Scarab.EngineEvolution
import Scarab.EngineMessages
import Scarab.RunSettlement
import Scarab.RunSupervision
import Scarab.AttemptTeardown
import Scarab.SlotExclusion
import Scarab.EvidenceOrder
import Scarab.EndingAnnouncements
import Scarab.CancelAccepted
import Scarab.SortedMap
import Scarab.TextBasics
import Scarab.PipelineValues
import Scarab.PipelineTemplates
import Scarab.PipelineScopes
import Scarab.PipelineImages
import Scarab.PipelineRender
import Scarab.PipelineBinding
import Scarab.ImagePreview
import Scarab.CommandBoundary
import Scarab.PipelineFiles
import Scarab.PipelineMatrix
import Scarab.PipelineReads
import Scarab.PipelineInterface
import Scarab.PipelineInline
import Scarab.PipelineCompile
import Scarab.PipelineInlined
import Scarab.OriginChain
import Scarab.PipelineNames
import Scarab.LibraryRefs
import Scarab.PipelineCycles
import Scarab.AuthoredOrder
import Scarab.GlobMatch
import Scarab.EnvironmentProtection
import Scarab.EnvironmentRelease
import Scarab.StepUpLoosening
import Scarab.GraphSearch
import Scarab.ApprovalGates
import Scarab.GraphInsertion
import Scarab.ApprovalGateAdded
import Scarab.Policies
import Scarab.PolicyDecisions
import Scarab.FailClosed
import Scarab.RowStore
import Scarab.DepotPacks
import Scarab.DepotCommands
import Scarab.DepotPrograms
import Scarab.DepotReclaim
import Scarab.DepotRules
import Scarab.DepotOrderly
import Scarab.DepotTransactions
import Scarab.DepotWriteOnce
import Scarab.RerunSets
import Scarab.RerunOrder
import Scarab.MixedRadix
import Scarab.PipelineProduct
import Scarab.MatrixExpansion
import Scarab.EngineJournal
import Scarab.RunBudget
import Scarab.AttemptRetries
import Scarab.InterleaveAlone
import Scarab.GateWaits
import Scarab.AdmissionAlone
import Scarab.AdmissionProgress
import Scarab.InterleaveContract
import Scarab.FlatManifests
import Scarab.BlobAllowlist
import Scarab.BlobAuthorization
import Scarab.ForwardSearch
import Scarab.GregorianDates
import Scarab.CronSchedule
import Scarab.CronFires
import Scarab.CronRefusals
import Scarab.KahnFold
import Scarab.RunCreateInput
import Scarab.RunCreateReach
import Scarab.OriginDepth
import Scarab.TreeStore
import Scarab.TreePrune
import Scarab.TreeExclude
import Scarab.ContentIdentity
import Scarab.WorkspaceScan
import Scarab.SnapshotManifests
import Scarab.FanInReport
import Scarab.WorkspaceFiles
import Scarab.WorkspaceMerge
import Scarab.FanIn
import Scarab.InvokeUnfolding
import Scarab.InvokeCaps
import Scarab.GlobInstances
import Scarab.CycleExact
import Scarab.TextEncoding
import Scarab.FenceKeys
import Scarab.PackIndex
import Scarab.PackWriting
import Scarab.TextReplace
import Scarab.WorkspaceTokens
import Scarab.StepCap
import Scarab.StepCapExact
import Scarab.CelEvaluation
import Scarab.CelReference
import Scarab.RuleSchema
import Scarab.RuleChecker
import Scarab.RuleEvaluation
import Scarab.RuleTyping
import Scarab.RuleValues
import Scarab.RuleSoundness
import Scarab.RuleProgress
import Scarab.RuleCost
import Scarab.JournalReplay
import Scarab.LaunchMessages
import Scarab.AttemptExclusion
import Scarab.DirectoryScan
import Scarab.WorkspaceRestore
import Scarab.WorkspaceRoundTrip
import Scarab.InterleaveDebts
import Scarab.StepUpStores
import Scarab.StepUpPrograms
import Scarab.StepUpMachine
import Scarab.StepUpRules
import Scarab.StepUpStanding
import Scarab.InterleaveRows
import Scarab.StepUpGuard
import Scarab.StepUpSpecs
import Scarab.StepUpHandlers
import Scarab.StepUpDuties
import Scarab.StepUpRows
import Scarab.StepUpAuthority
import Scarab.StepUpReplays
import Scarab.StepUpCaps
import Scarab.StepUpEnrollment
