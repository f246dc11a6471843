import Xv6fs.Lib.Bytes
import Xv6fs.Lib.Transition
import Xv6fs.Lib.Replay
import Xv6fs.Lib.Program
import Xv6fs.Lib.Ownership
import Xv6fs.Lib.Ring
import Xv6fs.Lib.Repeat
import Xv6fs.Common
import Xv6fs.BlockCache
import Xv6fs.Log.Basic
import Xv6fs.Log.Writes
import Xv6fs.Log.Recovery
import Xv6fs.Log.Machine
import Xv6fs.Log.Group
import Xv6fs.Log.Crash
import Xv6fs.Fs.State
import Xv6fs.Fs.Blocks
import Xv6fs.Fs.INode
import Xv6fs.Fs.Dir
import Xv6fs.Fs.Ops
import Xv6fs.Mkfs
import Xv6fs.Fs.Layout
import Xv6fs.Fs.Alloc
import Xv6fs.Fs.Owner
import Xv6fs.Fs.Content
import Xv6fs.Fs.Map
import Xv6fs.Fs.ReadWrite
import Xv6fs.Fs.Room
import Xv6fs.Fs.ByteArray
import Xv6fs.Fs.Space
import Xv6fs.Fs.Abstract
import Xv6fs.Fs.Trunc
import Xv6fs.Fs.Invariant
import Xv6fs.Fs.Steps
import Xv6fs.Fs.Entries
import Xv6fs.Fs.Lookup
import Xv6fs.Fs.Ledger
import Xv6fs.Fs.Accounts
import Xv6fs.Fs.Discipline
import Xv6fs.Fs.References
import Xv6fs.Files.Handles
import Xv6fs.Files.Offset
import Xv6fs.Files.Reading
import Xv6fs.Log.Cache
import Xv6fs.Log.Coherence
import Xv6fs.Fs.Budget
import Xv6fs.Fs.Create
import Xv6fs.Fs.Open
import Xv6fs.Fs.Close
import Xv6fs.Fs.Access
import Xv6fs.Fs.Check
import Xv6fs.Fs.Creation
import Xv6fs.Fs.Refusal
import Xv6fs.Fs.Statfs
import Xv6fs.Fs.FullNames
import Xv6fs.Fs.Paths
import Xv6fs.Files.Writing
import Xv6fs.Files.Chunks
import Xv6fs.Files.Session
import Xv6fs.Files.Truncation
import Xv6fs.Files.Listing
import Xv6fs.Fs.Unlink
import Xv6fs.Fs.Link
import Xv6fs.Fs.Rename
import Xv6fs.Files.Outside
import Xv6fs.Files.Runs
import Xv6fs.Fs.Tree
import Xv6fs.Fs.Growth
import Xv6fs.Fs.Removal
import Xv6fs.Fs.Renaming
import Xv6fs.Fs.Effects
import Xv6fs.Fs.Backing
import Xv6fs.Files.Orderly
import Xv6fs.Files.Naming
import Xv6fs.Files.WriteThrough
import Xv6fs.Pipe.Machine
import Xv6fs.Pipe.Fifo
import Xv6fs.Pipe.Waits
import Xv6fs.Files.OpenFiles
