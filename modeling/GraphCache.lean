import GraphCache.Client.Basic
import GraphCache.Client.PlanCache
import GraphCache.Config.Basic
import GraphCache.Config.Schema
import GraphCache.Context
import GraphCache.Decimal.Binary64
import GraphCache.Decimal.Layout
import GraphCache.Decimal.Shortest
import GraphCache.Dict
import GraphCache.Document.Basic
import GraphCache.Document.Bracket
import GraphCache.Document.Grammar
import GraphCache.Document.Token
import GraphCache.Error.Basic
import GraphCache.Error.Causes
import GraphCache.Error.Encoding
import GraphCache.Execution.Basic
import GraphCache.Execution.Completion
import GraphCache.Execution.Depth
import GraphCache.Execution.Drive
import GraphCache.Execution.Replacement
import GraphCache.Execution.Work
import GraphCache.Json.Basic
import GraphCache.Json.Described
import GraphCache.Json.Lexeme
import GraphCache.Json.Number
import GraphCache.Json.Path
import GraphCache.Json.Text
import GraphCache.Json.Written
import GraphCache.Plan.Basic
import GraphCache.Plan.Builder
import GraphCache.Plan.Encoding
import GraphCache.Proofs.Agreement
import GraphCache.Proofs.Answers
import GraphCache.Proofs.CallOrigins
import GraphCache.Proofs.CallTrees
import GraphCache.Proofs.CorrespondingPlans
import GraphCache.Proofs.DanglingReferences
import GraphCache.Proofs.Endings
import GraphCache.Proofs.ErrorPaths
import GraphCache.Proofs.Evaluation
import GraphCache.Proofs.FinishingOrder
import GraphCache.Proofs.Flattening
import GraphCache.Proofs.ForgetfulExecutions
import GraphCache.Proofs.FragmentGraph
import GraphCache.Proofs.HiddenReferences
import GraphCache.Proofs.Histories
import GraphCache.Proofs.IdentifiedRecords
import GraphCache.Proofs.Ledgers
import GraphCache.Proofs.LedgerCompletion
import GraphCache.Proofs.LedgerExecutions
import GraphCache.Proofs.LedgerWork
import GraphCache.Proofs.Leftovers
import GraphCache.Proofs.LinkedReads
import GraphCache.Proofs.Lockstep
import GraphCache.Proofs.LoopHeads
import GraphCache.Proofs.MergedRecursion
import GraphCache.Proofs.Merging
import GraphCache.Proofs.MissingFields
import GraphCache.Proofs.MissingPolicies
import GraphCache.Proofs.Numbering
import GraphCache.Proofs.Occurrences
import GraphCache.Proofs.PlanReuse
import GraphCache.Proofs.PlannedFields
import GraphCache.Proofs.PlanningRuns
import GraphCache.Proofs.Prevailing
import GraphCache.Proofs.Prospects
import GraphCache.Proofs.ReadBack
import GraphCache.Proofs.Readings
import GraphCache.Proofs.RecordedFaults
import GraphCache.Proofs.Relocation
import GraphCache.Proofs.RemoteData
import GraphCache.Proofs.RemoteParts
import GraphCache.Proofs.ResolvedReferences
import GraphCache.Proofs.Responses
import GraphCache.Proofs.Reuse
import GraphCache.Proofs.Rewriting
import GraphCache.Proofs.Sameness
import GraphCache.Proofs.SelectedInput
import GraphCache.Proofs.ServedFields
import GraphCache.Proofs.ServedRecords
import GraphCache.Proofs.SharedNames
import GraphCache.Proofs.Slots
import GraphCache.Proofs.StagedWrites
import GraphCache.Proofs.Steps
import GraphCache.Proofs.StoreHistory
import GraphCache.Proofs.StoredParts
import GraphCache.Proofs.Vacancies
import GraphCache.Proofs.WellFormedQueries
import GraphCache.Proofs.WritePass
import GraphCache.Proofs.WriteThenQuery
import GraphCache.Proofs.WrittenOut
import GraphCache.Query
import GraphCache.Resolver.Basic
import GraphCache.Resolver.Script
import GraphCache.Response
import GraphCache.Selection.Argument
import GraphCache.Selection.Basic
import GraphCache.Selection.Condition
import GraphCache.Selection.Encoding
import GraphCache.Store.Basic
import GraphCache.Store.Identity
import GraphCache.Store.Normalize
import GraphCache.Store.Reference
import GraphCache.Text.Invisible
import GraphCache.Text.Scan
import GraphCache.Yaml.Basic
import GraphCache.Yaml.BlockScalar
import GraphCache.Yaml.Node
import GraphCache.Yaml.Scalar
import GraphCache.Yaml.Spot
import GraphCache.Yaml.Tag
import GraphCache.Yaml.Token
import GraphCache.Proofs.RewrittenPlans
import GraphCache.Proofs.RewrittenQueries
import GraphCache.Proofs.LiteralConditions
import GraphCache.Proofs.ArgumentOrder
import GraphCache.Proofs.BoundArguments
import GraphCache.Proofs.Entries
import GraphCache.Proofs.FieldOrigins
import GraphCache.Proofs.IdentityKeys
import GraphCache.Proofs.IntegerArguments
import GraphCache.Proofs.JsonTexts
import GraphCache.Proofs.KeyOrder
import GraphCache.Proofs.StorageNames
import GraphCache.Proofs.WrittenFields
import GraphCache.Proofs.FailingAccesses
import GraphCache.Proofs.NestingLimits
import GraphCache.Proofs.SharedEntities
import GraphCache.Proofs.PathTexts
import GraphCache.Proofs.ReplacedFields
import GraphCache.Proofs.ReplacedSlots
