import BlobCensus.Architecture
import BlobCensus.Blob
import BlobCensus.Closure
import BlobCensus.CommandLine
import BlobCensus.CommandLine.Invocation
import BlobCensus.Directory
import BlobCensus.Disk
import BlobCensus.Disk.Change
import BlobCensus.Failure
import BlobCensus.Graph
import BlobCensus.Inspection
import BlobCensus.Json
import BlobCensus.Main
import BlobCensus.NameIndex
import BlobCensus.Path
import BlobCensus.Report
import BlobCensus.Session
import BlobCensus.Settings
import BlobCensus.Survey
import BlobCensus.Text.Utf8
import BlobCensus.Toml.Document
import BlobCensus.Toml.Scalar
import BlobCensus.Toml.Value
import BlobCensus.Workbench
import BlobCensus.Proofs.Architecture
import BlobCensus.Proofs.Closure.Accounts
import BlobCensus.Proofs.Closure.Agreement
import BlobCensus.Proofs.Closure.BreadthFirst
import BlobCensus.Proofs.Closure.Course
import BlobCensus.Proofs.Closure.Crew
import BlobCensus.Proofs.Closure.Draining
import BlobCensus.Proofs.Closure.Faults
import BlobCensus.Proofs.Closure.Reachability
import BlobCensus.Proofs.Closure.Refusal
import BlobCensus.Proofs.Closure.SameArchitecture
import BlobCensus.Proofs.Closure.WithReport
import BlobCensus.Proofs.Disk.Below
import BlobCensus.Proofs.Disk.Canonical
import BlobCensus.Proofs.Disk.Listing
import BlobCensus.Proofs.Disk.Names
import BlobCensus.Proofs.Disk.Tree
import BlobCensus.Proofs.ElfImage
import BlobCensus.Proofs.FirstOfKey
import BlobCensus.Proofs.Glob.Matching
import BlobCensus.Proofs.Glob.Placeholders
import BlobCensus.Proofs.Graph.AnyOrder
import BlobCensus.Proofs.Graph.Draft
import BlobCensus.Proofs.Graph.FoldPass
import BlobCensus.Proofs.Graph.Folding
import BlobCensus.Proofs.Graph.Growth
import BlobCensus.Proofs.Graph.Invariants
import BlobCensus.Proofs.Inspection
import BlobCensus.Proofs.Json.Reader
import BlobCensus.Proofs.Json.Rendering
import BlobCensus.Proofs.NameIndex
import BlobCensus.Proofs.NameIndex.Order
import BlobCensus.Proofs.PrintableRuns
import BlobCensus.Proofs.Report.Filling
import BlobCensus.Proofs.Report.ReadBack
import BlobCensus.Proofs.Session.Edges
import BlobCensus.Proofs.Session.Expansion
import BlobCensus.Proofs.Session.FirstSpelling
import BlobCensus.Proofs.Session.Inventory
import BlobCensus.Proofs.Session.Job
import BlobCensus.Proofs.Session.NearestDirectory
import BlobCensus.Proofs.Session.References
import BlobCensus.Proofs.Session.Resolution
import BlobCensus.Proofs.Session.Scanning
import BlobCensus.Proofs.Survey.Aliases
import BlobCensus.Proofs.Survey.History
import BlobCensus.Proofs.Survey.Ignoring
import BlobCensus.Proofs.Survey.Listing
import BlobCensus.Proofs.Survey.Shortcut
import BlobCensus.Proofs.Survey.Toolchains
import BlobCensus.Proofs.Survey.Withholding
import BlobCensus.Proofs.Text.Utf8
import BlobCensus.Proofs.Usage
