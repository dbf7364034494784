import ExampleEngine.Base.Wp
import ExampleEngine.Base.Comparison
import ExampleEngine.Base.Chain
import ExampleEngine.Base.NumberedTree
import ExampleEngine.Base.Preserves
import ExampleEngine.Base.LittleEndian
import ExampleEngine.Storage.Block
import ExampleEngine.Storage.Node
import ExampleEngine.Index.BTree
import ExampleEngine.Index.Bindings
import ExampleEngine.Index.Blocks
import ExampleEngine.Index.Durability
import ExampleEngine.Base.Lexicographic
import ExampleEngine.Base.Loop
import ExampleEngine.Handler.Atomicity
import ExampleEngine.Handler.Counting
import ExampleEngine.Handler.Nulls
import ExampleEngine.Handler.Position
import ExampleEngine.Handler.Scan
import ExampleEngine.Index.Safety
import ExampleEngine.Handler.Consistency
import ExampleEngine.Handler.IndexOnly
import ExampleEngine.Handler.Rereads
import ExampleEngine.Index.Sizes
import ExampleEngine.Matu.Conditions
import ExampleEngine.Matu.Selection
import ExampleEngine.Handler.Crossing
import ExampleEngine.Handler.Modes
import ExampleEngine.Base.Memory
import ExampleEngine.Handler.Boundaries
import ExampleEngine.Handler.Images
import ExampleEngine.Handler.RoundTrip
import ExampleEngine.Index.Addressing
import ExampleEngine.Index.Revive
import ExampleEngine.Index.Rewrites
import ExampleEngine.Matu.Parsing
import ExampleEngine.Storage.Checksum
import ExampleEngine.Storage.Contract
import ExampleEngine.Storage.Slots
import ExampleEngine.Matu.Survival
import ExampleEngine.Index.Asking
import ExampleEngine.Index.Needs
import ExampleEngine.Index.Refusals
import ExampleEngine.Matu.Scanning
import ExampleEngine.Storage.Packed
import ExampleEngine.Handler.Updates
import ExampleEngine.Index.Unsaved
import ExampleEngine.Index.Fill
import ExampleEngine.Handler.Lifecycle
import ExampleEngine.Matu.Sessions
import ExampleEngine.Index.Stores
import ExampleEngine.Handler.Refinement
import ExampleEngine.Handler.Deletions
import ExampleEngine.Handler.Primary
import ExampleEngine.Handler.Ranges
import ExampleEngine.Base.Wanted
import ExampleEngine.Index.Reads
import ExampleEngine.Handler.Secondary
import ExampleEngine.Index.Room
