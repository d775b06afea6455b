import FastRules.Workflow.LevelOrder
import FastRules.Workflow.CycleCriteria
import FastRules.Workflow.Caching
import FastRules.Workflow.ListingOrder
import FastRules.Workflow.WellFounded
import FastRules.Async.Gating
import FastRules.Async.Visibility
import FastRules.Parallel.Modes
import FastRules.Parallel.Adaptive
import FastRules.Workflow.CompileParallel
import FastRules.Pool.EnginePool
import FastRules.Pool.WorkStealing
import FastRules.Rule.Timeout
import FastRules.Engine.Parameters
import FastRules.Versioning.Export
import FastRules.Types.Binding
import FastRules.Async.CoExecute
import FastRules.Limiter.Exactness
import FastRules.Limiter.Quota
import FastRules.Rule.CacheBound
import FastRules.Rule.Invalidation
import FastRules.Rule.Metrics
import FastRules.Workflow.DependencyChain
import FastRules.Workflow.BuilderCycle
import FastRules.Workflow.CompilationOrder
import FastRules.Rule.Inactive
import FastRules.Session.FailClosed
import FastRules.Validation.InputValidator
import FastRules.CApi.ObjectAccess
import FastRules.CApi.Results
import FastRules.Json.Scalars
import FastRules.Sandbox.Allocator
import FastRules.Sandbox.InstructionHook
import FastRules.Sandbox.Manager
import FastRules.Validation.ExpressionValidator
import FastRules.Repository.Agreement
import FastRules.Repository.Contents
import FastRules.Repository.Flush
import FastRules.Repository.Database
import FastRules.Versioning.Lookup
import FastRules.Versioning.Chains
import FastRules.Versioning.TimeLine
import FastRules.Memory.ObjectPool
import FastRules.Memory.Manager
import FastRules.Engine.Scalars
import FastRules.Engine.Deadlines
import FastRules.Session.Orphans
import FastRules.Engine.ActionSlots
import FastRules.Engine.Callbacks
import FastRules.Validation.BoundarySearch
import FastRules.Cache.ExpressionCache
import FastRules.Cache.AotCompiler
import FastRules.Async.ResultOrder
import FastRules.Engine.Predicates
import FastRules.Workflow.Graph
import FastRules.Validation.StringPredicates
import FastRules.Foundations.Progress
import FastRules.Foundations.Addresses
import FastRules.Repository.DbWorkflows
import FastRules.Memory.ContextLocks
import FastRules.Validation.CodeValidator
import FastRules.Limiter.Administration
import FastRules.Rule.Copy
import FastRules.Pool.AddressReuse
import FastRules.Rule.Counters
import FastRules.Json.Acceptance
import FastRules.Xml.Conversion
import FastRules.Engine.References
import FastRules.CApi.Handles
