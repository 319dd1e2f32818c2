import Rollout.Api.Canned
import Rollout.Api.Client
import Rollout.Api.Instant
import Rollout.Api.Request
import Rollout.Api.Resource
import Rollout.Api.Shape
import Rollout.Api.TypedObject
import Rollout.Apply.Engine
import Rollout.Apply.Report
import Rollout.Apply.Reporter
import Rollout.Apply.Run
import Rollout.Apply.Simulation
import Rollout.BuildError
import Rollout.Builder
import Rollout.Builder.Component
import Rollout.Builder.Stage
import Rollout.Cluster.Context
import Rollout.Cluster.Error
import Rollout.Cluster.Memory
import Rollout.Cluster.Mutation
import Rollout.Cluster.ObjectRef
import Rollout.Cluster.Selector
import Rollout.Cluster.Version
import Rollout.Command
import Rollout.Command.Arguments
import Rollout.Command.Failure
import Rollout.Command.Help
import Rollout.Command.Option
import Rollout.Diff
import Rollout.Diff.Compact
import Rollout.Diff.Script
import Rollout.Diff.Shortest
import Rollout.Document.Basic
import Rollout.Document.Category
import Rollout.Document.Graph
import Rollout.Document.Key
import Rollout.Document.Kind
import Rollout.Document.LastApplied
import Rollout.Document.Metadata
import Rollout.DocumentSet
import Rollout.DocumentSet.Crd
import Rollout.DocumentSet.Namespace
import Rollout.Files
import Rollout.Files.Tree
import Rollout.Graph
import Rollout.Json.Reader
import Rollout.Json.Writer
import Rollout.Manifest
import Rollout.Number.Binary64
import Rollout.Number.Shortest
import Rollout.Ordered
import Rollout.Path
import Rollout.Path.Edit
import Rollout.Plan
import Rollout.Plan.Change
import Rollout.Project
import Rollout.Text.Blank
import Rollout.Text.Quoted
import Rollout.Value
import Rollout.Value.Canonical
import Rollout.Value.Projection
import Rollout.Yaml.Cursor
import Rollout.Yaml.Node
import Rollout.Yaml.Reader
import Rollout.Yaml.Record
import Rollout.Yaml.Scalar
import Rollout.Yaml.Token
import Rollout.Yaml.Writer
import Rollout.Main
import Rollout.Proofs.Value.Pruning
import Rollout.Proofs.Plan.Drift
import Rollout.Proofs.Value.Sameness
import Rollout.Proofs.Plan.DroppedField
import Rollout.Proofs.Apply.Soundness
import Rollout.Proofs.Apply.Sequential
import Rollout.Proofs.Apply.Following
import Rollout.Proofs.Apply.Execution
import Rollout.Proofs.Apply.Simulated
import Rollout.Proofs.Document.Identity
import Rollout.Proofs.Apply.Confluence
import Rollout.Proofs.Graph.Sorting
import Rollout.Proofs.Document.Order
import Rollout.Proofs.DocumentSet.Indexed
import Rollout.Proofs.Apply.Reference
import Rollout.Proofs.Cluster.Memory
import Rollout.Proofs.Apply.Protection
import Rollout.Proofs.Json.Text
import Rollout.Proofs.Json.Reading
import Rollout.Proofs.Plan.Reapplied
import Rollout.Proofs.Number.Shortest
import Rollout.Proofs.Number.Rounding
import Rollout.Proofs.Number.Text
import Rollout.Proofs.Json.Injective
import Rollout.Proofs.Value.Equivalence
import Rollout.Proofs.Graph.Greedy
import Rollout.Proofs.Document.Placement
import Rollout.Proofs.Value.Agreement
import Rollout.Proofs.Document.Agreement
import Rollout.Proofs.DocumentSet.Collected
import Rollout.Proofs.DocumentSet.Regathered
import Rollout.Proofs.Builder.Components
import Rollout.Proofs.Builder.Registration
import Rollout.Proofs.Builder.Staging
import Rollout.Proofs.Builder.Composition
import Rollout.Proofs.Apply.Recorded
import Rollout.Proofs.Apply.Dependents
import Rollout.Proofs.Value.Merging
import Rollout.Proofs.Cluster.Writing
import Rollout.Proofs.Apply.Consent
import Rollout.Proofs.Plan.Stored
import Rollout.Proofs.Apply.Replanned
import Rollout.Proofs.Graph.Acyclic
import Rollout.Proofs.Graph.Cycles
import Rollout.Proofs.Graph.Smallest
import Rollout.Proofs.Path.Editing
import Rollout.Proofs.Document.Acceptance
import Rollout.Proofs.Document.Editing
import Rollout.Proofs.Document.Operations
import Rollout.Proofs.Builder.Running
import Rollout.Proofs.Document.References
import Rollout.Proofs.Builder.Resolution
import Rollout.Proofs.Plan.Reversed
import Rollout.Proofs.Apply.Deleting
import Rollout.Proofs.Apply.Shadowing
import Rollout.Proofs.Manifest.Rendered
import Rollout.Proofs.Path.Text
import Rollout.Proofs.Document.Restoring
import Rollout.Proofs.Plan.Additions
import Rollout.Proofs.Value.Entries
import Rollout.Proofs.Plan.Reordered
import Rollout.Proofs.Path.Lookup
import Rollout.Proofs.Path.Setting
import Rollout.Proofs.Path.Difference
import Rollout.Proofs.Path.Removing
import Rollout.Proofs.DocumentSet.Namespace
import Rollout.Proofs.Manifest.Normal
import Rollout.Proofs.Manifest.Splitting
import Rollout.Proofs.Plan.Deletes
import Rollout.Proofs.Diff.Script
import Rollout.Proofs.Diff.Shown
import Rollout.Proofs.Plan.Explained
import Rollout.Proofs.Builder.Registry
import Rollout.Proofs.DocumentSet.Refiled
import Rollout.Proofs.Document.Notes
import Rollout.Proofs.Plan.Stamped
import Rollout.Proofs.Cluster.Updating
