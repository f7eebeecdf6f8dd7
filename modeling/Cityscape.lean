import Cityscape.Config.Basic
import Cityscape.Graph.Snapshot
import Cityscape.Http.Service
import Cityscape.Ingestion.Commits
import Cityscape.Ingestion.Files
import Cityscape.Ingestion.Repositories
import Cityscape.Ingestion.Spans
import Cityscape.Landscape.Codec
import Cityscape.Main
import Cityscape.Proofs.Resolution
import Cityscape.Proofs.Runs
import Cityscape.Query.Answer
import Cityscape.Proofs.Growth
import Cityscape.Proofs.Account
import Cityscape.Proofs.Commits
import Cityscape.Proofs.Repositories
import Cityscape.Proofs.Files
import Cityscape.Proofs.Spans
import Cityscape.Proofs.Calls
import Cityscape.Proofs.History
import Cityscape.Proofs.Apart
import Cityscape.Proofs.Forest
import Cityscape.Proofs.Isolation
import Cityscape.Proofs.Branches
import Cityscape.Proofs.Views
import Cityscape.Proofs.Delivery
import Cityscape.Proofs.Refusals
import Cityscape.Proofs.Edges
import Cityscape.Proofs.Repetition
import Cityscape.Proofs.Interleavings
import Cityscape.Proofs.JsonText
import Cityscape.Proofs.Codecs
import Cityscape.Proofs.Durability
import Cityscape.Proofs.Entities
import Cityscape.Proofs.Landscapes
import Cityscape.Proofs.Projection
import Cityscape.Proofs.Homes
import Cityscape.Proofs.Roots
import Cityscape.Proofs.Identity
import Cityscape.Proofs.Hydration
import Cityscape.Proofs.WaysUp
import Cityscape.Proofs.ShownCode
import Cityscape.Proofs.ClassTrees
import Cityscape.Proofs.Containment
import Cityscape.Proofs.Overlays
import Cityscape.Proofs.Owners
import Cityscape.Proofs.Comparison
import Cityscape.Proofs.TraceBounds
import Cityscape.Proofs.Arrival
import Cityscape.Proofs.Keys
import Cityscape.Proofs.Described
import Cityscape.Proofs.Selection
import Cityscape.Proofs.Versions
import Cityscape.Proofs.Outlines
import Cityscape.Proofs.VersionViews
import Cityscape.Proofs.Newest
import Cityscape.Proofs.Rejections
import Cityscape.Proofs.LongestMatch
import Cityscape.Proofs.WireForms
import Cityscape.Proofs.MetricPaths
import Cityscape.Proofs.RepeatedSpans
import Cityscape.Proofs.RepeatedFiles
import Cityscape.Proofs.StaticData
import Cityscape.Proofs.MissingSuffix
import Cityscape.Proofs.BranchPoints
import Cityscape.Proofs.Announcements
import Cityscape.Proofs.Reprojection
import Cityscape.Proofs.Restored
