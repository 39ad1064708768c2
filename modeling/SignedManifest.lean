import SignedManifest.Settings
import SignedManifest.Archive.Package
import SignedManifest.Archive.Verification
import SignedManifest.Cli.Arguments
import SignedManifest.Cli.Failure
import SignedManifest.Cli.Footprint
import SignedManifest.Cli.Invocation
import SignedManifest.Cli.Run
import SignedManifest.Decimal.Shortest
import SignedManifest.Digest.Sha256
import SignedManifest.Disk.Basic
import SignedManifest.Disk.Path
import SignedManifest.Disk.Volume
import SignedManifest.Record.Entitlement
import SignedManifest.Export.Error
import SignedManifest.Export.Exporter
import SignedManifest.Export.LegacyRules
import SignedManifest.Export.Plan
import SignedManifest.Export.Roster
import SignedManifest.Export.Source
import SignedManifest.Export.Writer
import SignedManifest.Json.Basic
import SignedManifest.Json.Codec
import SignedManifest.Json.Content
import SignedManifest.Json.Error
import SignedManifest.Json.Layout
import SignedManifest.Json.Scan
import SignedManifest.Json.Symbols
import SignedManifest.Key.Armor
import SignedManifest.Key.Der
import SignedManifest.Key.Rsa
import SignedManifest.Key.Signature
import SignedManifest.Main
import SignedManifest.Moment
import SignedManifest.Record.Certificate
import SignedManifest.Record.Consumer
import SignedManifest.Record.Product
import SignedManifest.Record.Reference
import SignedManifest.Settings.File
import SignedManifest.SortedMap
import SignedManifest.Subscription.Record
import SignedManifest.Subscription.Matching
import SignedManifest.Subscription.Reconciliation
import SignedManifest.Text.Basic
import SignedManifest.Text.Lossy
import SignedManifest.Text.Quoted
import SignedManifest.Yaml.Cursor
import SignedManifest.Yaml.Node
import SignedManifest.Yaml.Scalar
import SignedManifest.Yaml.Token
import SignedManifest.Zip.Inflate
import SignedManifest.Zip.Reader
import SignedManifest.Zip.Writer
import SignedManifest.Proofs.Subscription.Claiming
import SignedManifest.Proofs.Subscription.Matching
import SignedManifest.Proofs.Subscription.Resolving
import SignedManifest.Proofs.Subscription.Applying
import SignedManifest.Proofs.Subscription.ImportRuns
import SignedManifest.Proofs.SortedMap
import SignedManifest.Proofs.Disk.Spelling
import SignedManifest.Proofs.Disk.Walking
import SignedManifest.Proofs.Disk.Operations
import SignedManifest.Proofs.Disk.Volumes
import SignedManifest.Proofs.Export.Writing
import SignedManifest.Proofs.Export.Runs
import SignedManifest.Proofs.Archive.Packing
import SignedManifest.Proofs.Export.WorkArea
import SignedManifest.Proofs.Export.Rosters
import SignedManifest.Proofs.Disk.Listing
import SignedManifest.Proofs.Export.Closure
import SignedManifest.Proofs.Export.Sections
import SignedManifest.Proofs.Export.Completed
import SignedManifest.Proofs.Export.Contents
import SignedManifest.Proofs.Archive.Layers
import SignedManifest.Proofs.Archive.Verifying
import SignedManifest.Proofs.Export.Verified
import SignedManifest.Proofs.Export.Confinement
import SignedManifest.Proofs.Zip.Bytes
import SignedManifest.Proofs.Disk.Succeeding
import SignedManifest.Proofs.Export.Failing
import SignedManifest.Proofs.Subscription.Grouping
import SignedManifest.Proofs.Archive.Refusing
import SignedManifest.Proofs.Export.Failures
import SignedManifest.Proofs.Export.Trees
import SignedManifest.Proofs.Export.DirtyGate
import SignedManifest.Proofs.Export.Overwriting
import SignedManifest.Proofs.Export.Rejected
import SignedManifest.Proofs.Text.Digits
import SignedManifest.Proofs.Json.Scanning
import SignedManifest.Proofs.Json.Taking
import SignedManifest.Proofs.Json.Members
import SignedManifest.Proofs.Json.Layouts
import SignedManifest.Proofs.Json.Documents
import SignedManifest.Proofs.Moment
import SignedManifest.Proofs.Record.Restoring
import SignedManifest.Proofs.Subscription.Restoring
import SignedManifest.Proofs.Json.Accepting
import SignedManifest.Proofs.Record.RoundTrip
import SignedManifest.Proofs.Record.Nesting
import SignedManifest.Proofs.Record.Snapshots
import SignedManifest.Proofs.Export.Rereading
import SignedManifest.Proofs.Archive.Indexing
import SignedManifest.Proofs.Key.Signing
import SignedManifest.Proofs.Key.Armored
import SignedManifest.Proofs.Export.Fitting
import SignedManifest.Proofs.Cli.Stages
import SignedManifest.Proofs.Cli.Delivering
import SignedManifest.Proofs.Cli.Contract
import SignedManifest.Proofs.Export.Certificates
import SignedManifest.Proofs.Export.Admitting
import SignedManifest.Proofs.Export.Refilling
import SignedManifest.Proofs.Export.Reordering
import SignedManifest.Proofs.Subscription.Occurrences
import SignedManifest.Proofs.Subscription.Passes
import SignedManifest.Proofs.Subscription.Continuing
import SignedManifest.Proofs.Subscription.Ranking
import SignedManifest.Proofs.Subscription.Continuity
import SignedManifest.Proofs.Subscription.LocalIds
import SignedManifest.Proofs.Subscription.InputOrder
import SignedManifest.Proofs.Export.Reaching
import SignedManifest.Proofs.Export.Replacing
import SignedManifest.Proofs.Export.Simulating
import SignedManifest.Proofs.Archive.Deciding
import SignedManifest.Proofs.Export.Naming
import SignedManifest.Proofs.Archive.Duplicates
import SignedManifest.Proofs.Export.Namesakes
