import LoadOrder.Main
import LoadOrder.Disk
import LoadOrder.Merge.InMemory
import LoadOrder.Proofs.Script.RoundTrip
import LoadOrder.Proofs.Merge.Names
import LoadOrder.Proofs.Merge.Fold
import LoadOrder.Proofs.Definition.Index
import LoadOrder.Proofs.Conflict
import LoadOrder.Proofs.Merge.Group
import LoadOrder.Proofs.Merge.Once
import LoadOrder.Proofs.Merge.Orphans
import LoadOrder.Proofs.Disk
import LoadOrder.Proofs.Merge.Calls
import LoadOrder.Proofs.Merge.Purge
import LoadOrder.Proofs.Definition.Extract
import LoadOrder.Proofs.Definition.Reread
import LoadOrder.Proofs.Merge.Compose
import LoadOrder.Proofs.Merge.Blocks
import LoadOrder.Proofs.Script.Cut
import LoadOrder.Proofs.Merge.Contents
import LoadOrder.Proofs.Definition.History
import LoadOrder.Proofs.Script.Joined
import LoadOrder.Proofs.Merge.Untagged
import LoadOrder.Proofs.Script.Faithful
import LoadOrder.Proofs.Script.Rejoined
import LoadOrder.Proofs.Merge.Stable
import LoadOrder.Proofs.Classification
import LoadOrder.Proofs.Merge.EveryFile
import LoadOrder.Proofs.Merge.Chosen
import LoadOrder.Proofs.Files.Export
import LoadOrder.Proofs.Merge.Customs
import LoadOrder.Proofs.Definition.Identity
import LoadOrder.Proofs.Merge.References
import LoadOrder.Proofs.Files.Descriptor
import LoadOrder.Proofs.Files.Scan
import LoadOrder.Proofs.Merge.Copies
import LoadOrder.Proofs.Interleaving
import LoadOrder.Proofs.Merge.Outcome
import LoadOrder.Proofs.Merge.Requests
import LoadOrder.Proofs.Merge.Protocol
import LoadOrder.Proofs.Merge.Percentages
import LoadOrder.Proofs.Path
import LoadOrder.Proofs.Files.Footprint
import LoadOrder.Proofs.Merge.Latest
import LoadOrder.Proofs.Json.RoundTrip
import LoadOrder.Proofs.Json.Typed
import LoadOrder.Proofs.Config
import LoadOrder.Proofs.Text.Digits
import LoadOrder.Proofs.Timestamp
import LoadOrder.Proofs.PatchState
import LoadOrder.Proofs.Files.Stored
import LoadOrder.Proofs.Merge.Gathered
import LoadOrder.Proofs.Merge.Lossless
import LoadOrder.Proofs.Overriding
import LoadOrder.Proofs.Definition.Listing
import LoadOrder.Proofs.Script.Children
import LoadOrder.Proofs.Script.Faults
import LoadOrder.Proofs.Merge.Align
import LoadOrder.Proofs.Definition.Growth
import LoadOrder.Proofs.Definition.Objects
import LoadOrder.Proofs.Line.NormalForms
import LoadOrder.Proofs.Version
import LoadOrder.Proofs.Line.Pair
import LoadOrder.Proofs.Script.Runs
import LoadOrder.Proofs.Line.Meaning
import LoadOrder.Proofs.Number.Nearest
import LoadOrder.Proofs.Progress
import LoadOrder.Proofs.Merge.FilePercentages
import LoadOrder.Proofs.Merge.Rename
import LoadOrder.Proofs.Merge.FreshNames
import LoadOrder.Proofs.Rules
