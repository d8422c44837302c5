import OfflineCache.Archive.Gzip
import OfflineCache.Archive.Tar
import OfflineCache.Checksum
import OfflineCache.CommandLine.Arguments
import OfflineCache.CommandLine.Basic
import OfflineCache.CommandLine.Invocation
import OfflineCache.CommandLine.Option
import OfflineCache.CommandLine.Screen
import OfflineCache.Containment
import OfflineCache.Decimal.Basic
import OfflineCache.Decimal.Binary64
import OfflineCache.Dialect
import OfflineCache.Digest.Crc32
import OfflineCache.Digest.Sha256
import OfflineCache.Digest.Sha512
import OfflineCache.Duration
import OfflineCache.Fetch.Basic
import OfflineCache.Fetch.Error
import OfflineCache.Fetch.Retry
import OfflineCache.Fetch.Transport
import OfflineCache.FileTree.Basic
import OfflineCache.FileTree.Change
import OfflineCache.FileTree.Difference
import OfflineCache.FileTree.Listing
import OfflineCache.Git.Hosting
import OfflineCache.Git.Repository
import OfflineCache.Git.Revision
import OfflineCache.Json.Basic
import OfflineCache.Layout
import OfflineCache.Locator.Basic
import OfflineCache.Locator.Grammar
import OfflineCache.Locator.Ident
import OfflineCache.Locator.Protocol
import OfflineCache.Locator.Source
import OfflineCache.Lockfile
import OfflineCache.Log.Event
import OfflineCache.Log.FieldMatch
import OfflineCache.Log.Filter
import OfflineCache.Log.Format
import OfflineCache.Main
import OfflineCache.Path.Basic
import OfflineCache.Plan
import OfflineCache.Policy
import OfflineCache.Report
import OfflineCache.Run.Basic
import OfflineCache.Run.Worker
import OfflineCache.Run.World
import OfflineCache.Settings.Basic
import OfflineCache.Settings.File
import OfflineCache.Store
import OfflineCache.Text.Base64
import OfflineCache.Text.Blank
import OfflineCache.Text.Cut
import OfflineCache.Text.Hex
import OfflineCache.Text.Hidden
import OfflineCache.Text.Letter
import OfflineCache.Text.Natural
import OfflineCache.Text.Percent
import OfflineCache.Text.Quoted
import OfflineCache.Text.Utf8
import OfflineCache.Version.Basic
import OfflineCache.Version.Range
import OfflineCache.Version.Requirement
import OfflineCache.Yaml.Cursor
import OfflineCache.Yaml.Lexer
import OfflineCache.Yaml.Node
import OfflineCache.Yaml.Scalar
import OfflineCache.Yaml.Shape
import OfflineCache.Yaml.Token
import OfflineCache.Yaml.Value
import OfflineCache.Proofs.Text.Pieces
import OfflineCache.Proofs.Version.Alphabet
import OfflineCache.Proofs.Containment
import OfflineCache.Proofs.Fetch.Requests
import OfflineCache.Proofs.Locator.Form
import OfflineCache.Proofs.Locator.RoundTrip
import OfflineCache.Proofs.Plan.Entries
import OfflineCache.Proofs.Plan.FirstOfEach
import OfflineCache.Proofs.Run.Calls
import OfflineCache.Proofs.Plan.Collapsing
import OfflineCache.Proofs.FileTree.Change
import OfflineCache.Proofs.Path.Below
import OfflineCache.Proofs.Store.Places
import OfflineCache.Proofs.FileTree.LinkFree
import OfflineCache.Proofs.FileTree.Writing
import OfflineCache.Proofs.Store.Replacing
import OfflineCache.Proofs.Run.Workers
import OfflineCache.Proofs.Run.Deliveries
import OfflineCache.Proofs.Run.Contents
import OfflineCache.Proofs.Run.Reported
import OfflineCache.Proofs.FileTree.Directories
import OfflineCache.Proofs.FileTree.Making
import OfflineCache.Proofs.Store.Faults
import OfflineCache.Proofs.Run.Growth
import OfflineCache.Proofs.Run.Courses
import OfflineCache.Proofs.Store.Locks
import OfflineCache.Proofs.Run.Ending
import OfflineCache.Proofs.Run.Outcomes
import OfflineCache.Proofs.Store.Concurrent
import OfflineCache.Proofs.Run.Pinned
import OfflineCache.Proofs.Run.Independence
import OfflineCache.Proofs.Run.Cancelling
import OfflineCache.Proofs.Fetch.Attempts
import OfflineCache.Proofs.Layout.Template
import OfflineCache.Proofs.Layout.BelowRoot
import OfflineCache.Proofs.Text.Coding
import OfflineCache.Proofs.Checksum
import OfflineCache.Proofs.Layout.Keys
import OfflineCache.Proofs.Locator.Names
import OfflineCache.Proofs.Dialect.Meaning
import OfflineCache.Proofs.Dialect.Markers
import OfflineCache.Proofs.Plan.Strictness
import OfflineCache.Proofs.Version.Exact
import OfflineCache.Proofs.Fetch.Addresses
import OfflineCache.Proofs.Fetch.Dispatch
import OfflineCache.Proofs.Plan.Tightening
import OfflineCache.Proofs.Locator.GitArguments
import OfflineCache.Proofs.FileTree.Listing
import OfflineCache.Proofs.Layout.FinishedNames
import OfflineCache.Proofs.Store.Listed
import OfflineCache.Proofs.FileTree.Home
import OfflineCache.Proofs.RelativeRoot
import OfflineCache.Proofs.Version.Wildcards
import OfflineCache.Proofs.Fetch.Delays
import OfflineCache.Proofs.Components
import OfflineCache.Proofs.Locator.WellFormed
import OfflineCache.Proofs.Locator.Nesting
import OfflineCache.Proofs.Path.Normal
import OfflineCache.Proofs.FileTree.Resolving
import OfflineCache.Proofs.Layout.Segments
