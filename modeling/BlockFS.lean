import BlockFS.Bitmap
import BlockFS.Block
import BlockFS.Block.Layout
import BlockFS.Bytes
import BlockFS.Bytes.Bits
import BlockFS.Bytes.Patch
import BlockFS.Codec
import BlockFS.CommandLine
import BlockFS.Device
import BlockFS.Error
import BlockFS.Filesystem.Check
import BlockFS.Filesystem.Directories
import BlockFS.Filesystem.Files
import BlockFS.Filesystem.Place
import BlockFS.Geometry
import BlockFS.Image
import BlockFS.Main
import BlockFS.Program
import BlockFS.Proofs.Atomicity
import BlockFS.Proofs.Bitmap.Bytes
import BlockFS.Proofs.Bitmap.Calls
import BlockFS.Proofs.Bitmap.Reloading
import BlockFS.Proofs.Calls
import BlockFS.Proofs.Canonical
import BlockFS.Proofs.Capacity
import BlockFS.Proofs.Check.Claims
import BlockFS.Proofs.Check.Graph
import BlockFS.Proofs.Check.Walk
import BlockFS.Proofs.Contents
import BlockFS.Proofs.FailedAppends
import BlockFS.Proofs.Footprint.Calls
import BlockFS.Proofs.Footprint.Operations
import BlockFS.Proofs.Footprint.Sessions
import BlockFS.Proofs.FreeSpace
import BlockFS.Proofs.Invariants
import BlockFS.Proofs.Kept
import BlockFS.Proofs.Layout
import BlockFS.Proofs.Machine.Arithmetic
import BlockFS.Proofs.Machine.Calls
import BlockFS.Proofs.Machine.Check
import BlockFS.Proofs.Machine.Operations
import BlockFS.Proofs.Machine.Safety
import BlockFS.Proofs.Mount
import BlockFS.Proofs.Noninterference
import BlockFS.Proofs.Occupancy
import BlockFS.Proofs.Operations.Append
import BlockFS.Proofs.Operations.Entries
import BlockFS.Proofs.Operations.Perform
import BlockFS.Proofs.Operations.Reading
import BlockFS.Proofs.Outcome
import BlockFS.Proofs.Programs
import BlockFS.Proofs.ReadBack
import BlockFS.Proofs.Refinement
import BlockFS.Proofs.Rollback
import BlockFS.Proofs.Roots
import BlockFS.Proofs.RoundTrip
import BlockFS.Proofs.Sessions
import BlockFS.Proofs.Shell.Persistence
import BlockFS.Proofs.Shell.Runs
import BlockFS.Proofs.Shell.Splitting
import BlockFS.Proofs.Spots
import BlockFS.Proofs.Stores.Agreement
import BlockFS.Proofs.Stores.Calls
import BlockFS.Proofs.Stores.Headers
import BlockFS.Proofs.Stores.Interchange
import BlockFS.Proofs.Stores.Lockstep
import BlockFS.Proofs.Stores.Mirrors
import BlockFS.Proofs.Stores.Opening
import BlockFS.Proofs.Stores.Reopening
import BlockFS.Proofs.Transactions
import BlockFS.Proofs.Tree
import BlockFS.Session
import BlockFS.Shell.Arguments
import BlockFS.Shell.Command
import BlockFS.Shell.Output
import BlockFS.Shell.Respond
import BlockFS.Shell.Run
import BlockFS.Store
import BlockFS.Store.Disk
import BlockFS.Store.Header
import BlockFS.Text.Utf8
import BlockFS.Text.Words
import BlockFS.Transaction
import BlockFS.Proofs.Prefixes
import BlockFS.Proofs.Shell.Words
import BlockFS.Proofs.Stores.Narrowing
import BlockFS.Proofs.Shell.Commands
import BlockFS.Proofs.Shell.Lines
import BlockFS.Proofs.Shell.Texts
import BlockFS.Proofs.Stores.Replacement
