import Deployment.Application
import Deployment.Block
import Deployment.Block.Check
import Deployment.Block.Remarks
import Deployment.Block.Render
import Deployment.Catalogue
import Deployment.Catalogue.Resolution
import Deployment.Chars
import Deployment.Closure
import Deployment.Descriptor
import Deployment.Diagnostic.Basic
import Deployment.Diagnostic.Code
import Deployment.Diagnostic.Order
import Deployment.Document
import Deployment.Document.Models
import Deployment.Draft
import Deployment.FileStore
import Deployment.Forest
import Deployment.Forest.Check
import Deployment.Forest.Replication
import Deployment.GraphCompilation
import Deployment.InstanceBuilder
import Deployment.InstanceBuilder.Replication
import Deployment.InstanceCompilation
import Deployment.Name
import Deployment.Options
import Deployment.Path
import Deployment.Reach
import Deployment.Relation
import Deployment.SourceMap
import Deployment.Status
import Deployment.Table
import Deployment.Text
import Deployment.Tree
import Deployment.TypeGraph
import Deployment.TypeGraph.Check
import Deployment.TypeGraph.Inheritance
import Deployment.TypeGraph.Placement
import Deployment.Variable
import Deployment.Write
import Deployment.Yaml
import Deployment.Yaml.Cursor
import Deployment.Yaml.Number
import Deployment.Yaml.Read
import Deployment.Yaml.Scalar
import Deployment.Yaml.Token
import Deployment.Yaml.Write
import Deployment.Proofs.Forest.Layout
import Deployment.Proofs.Block.Instances
import Deployment.Proofs.Block.Check
import Deployment.Proofs.Closure
import Deployment.Proofs.Draft.Expansion
import Deployment.Proofs.Draft.Chain
import Deployment.Proofs.InstanceCompilation.Paths
import Deployment.Proofs.InstanceCompilation.Chains
import Deployment.Proofs.Relation.Cycles
import Deployment.Proofs.Catalogue.Mentions
import Deployment.Proofs.Catalogue.Relations
import Deployment.Proofs.Catalogue.Resolution
import Deployment.Proofs.GraphCompilation
import Deployment.Proofs.Path
import Deployment.Proofs.FileStore
import Deployment.Proofs.ListValue
import Deployment.Proofs.Variable
import Deployment.Proofs.Block.Types
import Deployment.Proofs.Write.Lists
import Deployment.Proofs.Write.Exports
import Deployment.Proofs.Write.Types
import Deployment.Proofs.GraphCompilation.Clean
import Deployment.Proofs.Catalogue.Declarations
import Deployment.Proofs.GraphCompilation.RoundTrip
import Deployment.Proofs.Catalogue.Sites
import Deployment.Proofs.GraphCompilation.Modes
import Deployment.Proofs.GraphCompilation.Order
import Deployment.Proofs.Diagnostic.Order
import Deployment.Proofs.Checks
import Deployment.Proofs.InstanceCompilation.Sound
import Deployment.Proofs.Application
import Deployment.Proofs.Block.Clean
import Deployment.Proofs.Write.Channels
import Deployment.Proofs.Draft.Body
import Deployment.Proofs.Write.Instances
import Deployment.Proofs.Write.Forest
import Deployment.Proofs.InstanceCompilation.RoundTrip
import Deployment.Proofs.Block.Render
import Deployment.Proofs.Forest.Trees
import Deployment.Proofs.Write.Lines
import Deployment.Proofs.GraphCompilation.Representable
import Deployment.Proofs.InstanceCompilation.Representable
import Deployment.Proofs.Closure.BreadthFirst
import Deployment.Proofs.Closure.Walk
import Deployment.Proofs.Relation.Search
import Deployment.Proofs.GraphCompilation.Reachable
import Deployment.Proofs.Locations
import Deployment.Proofs.GraphCompilation.SourceMap
import Deployment.Proofs.InstanceCompilation.SourceMap
import Deployment.Proofs.Findings
import Deployment.Proofs.Application.Places
import Deployment.Proofs.Relation.Kept
import Deployment.Proofs.GraphCompilation.Maximal
import Deployment.Proofs.Reach
import Deployment.Proofs.Forest.Links
import Deployment.Proofs.TypeGraph.Inheritance
import Deployment.Proofs.TypeGraph.Substitution
import Deployment.Proofs.TypeGraph.Reachable
import Deployment.Proofs.Diagnostic.Canonical
import Deployment.Proofs.Catalogue.Losses
import Deployment.Proofs.GraphCompilation.Occurrences
import Deployment.Proofs.TypeGraph.Qualified
import Deployment.Proofs.Closure.Once
import Deployment.Proofs.Block.Entries
import Deployment.Proofs.Path.Destination
import Deployment.Proofs.Forest.Walks
import Deployment.Proofs.Forest.Operations
import Deployment.Proofs.Forest.Replication
import Deployment.Proofs.Forest.History
import Deployment.Proofs.Write.Remarks
import Deployment.Proofs.GraphCompilation.Remarks
import Deployment.Proofs.Write.NormalForm
import Deployment.Proofs.Forest.Spans
import Deployment.Proofs.Forest.Upwards
import Deployment.Proofs.Draft.Places
import Deployment.Proofs.InstanceBuilder.Build
import Deployment.Proofs.InstanceBuilder.Copies
import Deployment.Proofs.InstanceBuilder.Replicate
import Deployment.Proofs.InstanceBuilder.Checks
import Deployment.Proofs.InstanceCompilation.Drafts
import Deployment.Proofs.Write.Written
