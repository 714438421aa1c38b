import ApiModel.Main
import ApiModel.Proofs.SortedSet
import ApiModel.Proofs.Schema.Arena
import ApiModel.Proofs.Work
import ApiModel.Proofs.Schema.Law
import ApiModel.Proofs.Schema.Outcome
import ApiModel.Proofs.Schema.Conjunction
import ApiModel.Proofs.Schema.Solver
import ApiModel.Proofs.Schema.Load
import ApiModel.Proofs.Schema.Session
import ApiModel.Proofs.Schema.Request
import ApiModel.Proofs.Schema.Settled
import ApiModel.Proofs.Json
import ApiModel.Proofs.Schema.Meaning
import ApiModel.Proofs.Schema.Keywords
import ApiModel.Proofs.Schema.Plain
import ApiModel.Proofs.Schema.Preservation
import ApiModel.Proofs.Schema.Parts
import ApiModel.Proofs.Schema.Intersection
import ApiModel.Proofs.TypeExpr
import ApiModel.Proofs.TypeExpr.Absorption
import ApiModel.Proofs.TypeExpr.Order
import ApiModel.Proofs.Schema.Typing
import ApiModel.Proofs.Client.Model
import ApiModel.Proofs.Client.Construction
import ApiModel.Proofs.Client.Construction.Parameters
import ApiModel.Proofs.Client.Construction.Responses
import ApiModel.Proofs.Client.Build
import ApiModel.Proofs.Schema.Provenance
import ApiModel.Proofs.Schema.Trail
import ApiModel.Proofs.Schema.Cycle
import ApiModel.Proofs.Schema.Recursion
import ApiModel.Proofs.Schema.Chart
import ApiModel.Proofs.Schema.Follow
import ApiModel.Proofs.Schema.Guidance
import ApiModel.Proofs.Schema.Guided
import ApiModel.Proofs.Schema.Order
import ApiModel.Proofs.Document
import ApiModel.Proofs.Schema.Descent
import ApiModel.Proofs.Schema.PointerGraph
import ApiModel.Proofs.Schema.Registration
import ApiModel.Proofs.Halting
import ApiModel.Proofs.Schema.Depth
import ApiModel.Proofs.Schema.Termination
import ApiModel.Proofs.Schema.Completion
import ApiModel.Proofs.Document.Resolution
import ApiModel.Proofs.Document.Record
import ApiModel.Proofs.Identifier
import ApiModel.Proofs.Fresh
import ApiModel.Proofs.Effect
import ApiModel.Proofs.Schema.Effect
import ApiModel.Proofs.Schema.Field
import ApiModel.Proofs.Client.Construction.Steady
import ApiModel.Proofs.Client.Construction.Requirements
import ApiModel.Proofs.Client.Declaration
import ApiModel.Proofs.Client.Walk
import ApiModel.Proofs.Client.Fields
import ApiModel.Proofs.Client.Operations
import ApiModel.Proofs.Client.Security
import ApiModel.Proofs.Agreement
import ApiModel.Proofs.Document.View
import ApiModel.Proofs.Document.Insertion
import ApiModel.Proofs.Schema.Agreement
import ApiModel.Proofs.Client.Construction.Agreement
import ApiModel.Proofs.Client.Emission
import ApiModel.Proofs.Client.Unreferenced
import ApiModel.Proofs.Schema.Offer
import ApiModel.Proofs.Schema.Absorption
import ApiModel.Proofs.Schema.Inclusion
import ApiModel.Proofs.Schema.Repetition
import ApiModel.Proofs.Schema.Restriction
import ApiModel.Proofs.Schema.Access
import ApiModel.Proofs.Schema.Optional
import ApiModel.Proofs.Schema.Faithful
import ApiModel.Proofs.Schema.Nullable
import ApiModel.Proofs.Schema.Retention
import ApiModel.Proofs.Schema.Mirror
import ApiModel.Proofs.Schema.Circular
import ApiModel.Proofs.Schema.Annotation
import ApiModel.Proofs.Client.Signature
import ApiModel.Proofs.Identifier.Image
import ApiModel.Proofs.Naming
import ApiModel.Proofs.Pointer
import ApiModel.Proofs.Text.Template
import ApiModel.Proofs.Client.BaseUrl
import ApiModel.Proofs.Schema.Interval
import ApiModel.Proofs.Schema.Passage
import ApiModel.Proofs.Schema.Sharing
import ApiModel.Proofs.Schema.ClassNames
import ApiModel.Proofs.Text.Natural
import ApiModel.Proofs.Client.Statuses
import ApiModel.Proofs.Schema.Overlap
import ApiModel.Proofs.Schema.Exclusion
import ApiModel.Proofs.Schema.Symmetry
import ApiModel.Proofs.Schema.FixedPoint
