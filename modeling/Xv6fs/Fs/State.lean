import Xv6fs.Common
import Xv6fs.Lib.Program

/-! The data of the file system layer: the super block, inodes and directory entries as they are on
disk, the inode cache, the file table, and the state of the process.  The layer sees the blocks
through the block cache, so the state holds the cached content of each block. -/

namespace Xv6fs

/-- The super block. -/
structure SuperBlock where
  size : Nat
  nblocks : Nat
  ninodes : Nat
  nlog : Nat
  logstart : Nat
  inodestart : Nat
  bmapstart : Nat

/-- The bytes of an inode on disk. -/
abbrev DINODE_SIZE : Nat := 64

abbrev INODE_PER_BLOCK : Nat := BSIZE / DINODE_SIZE

/-- The block that contains inode `i`. -/
def INODE_BLOCK (sb : SuperBlock) (i : Nat) : Nat := i / INODE_PER_BLOCK + sb.inodestart

/-- The block of the bitmap that contains the bit of block `b`. -/
def BIT_BLOCK (sb : SuperBlock) (b : Nat) : Nat := b / BIT_PER_BLOCK + sb.bmapstart

/-! ### Inodes and directory entries -/

namespace FileType

abbrev Invalid : UInt16 := 0

abbrev T_DIR : UInt16 := 1

abbrev T_FILE : UInt16 := 2

abbrev T_DEVICE : UInt16 := 3

end FileType

/-- An inode on disk. -/
@[ext] structure DiskINode where
  type : UInt16
  major : UInt16
  minor : UInt16
  nlink : UInt16
  size : UInt32
  addrs : Fin (NDIRECT + 1) → UInt32

namespace DiskINode

/-- The inode of zero bytes. -/
def zero : DiskINode := ⟨0, 0, 0, 0, 0, fun _ => 0⟩

/-- Entry `k` of `addrs`, and `0` past its end. -/
def addr (dip : DiskINode) (k : Nat) : UInt32 :=
  if h : k < NDIRECT + 1 then dip.addrs ⟨k, h⟩ else 0

/-- The inode after a store to entry `k` of `addrs`. -/
def setAddr (dip : DiskINode) (k : Nat) (v : UInt32) : DiskINode :=
  { dip with addrs := fun i => if i.val = k then v else dip.addrs i }

/-- The bytes of an inode on disk. -/
def bytes (dip : DiskINode) : Bytes.Source := fun i =>
  if i < 2 then Bytes.bytes16 dip.type i
  else if i < 4 then Bytes.bytes16 dip.major (i - 2)
  else if i < 6 then Bytes.bytes16 dip.minor (i - 4)
  else if i < 8 then Bytes.bytes16 dip.nlink (i - 6)
  else if i < 12 then Bytes.bytes32 dip.size (i - 8)
  else Bytes.bytes32 (dip.addr ((i - 12) / 4)) ((i - 12) % 4)

/-- The inode whose bytes are at offset `off` of a block. -/
def load (d : BlockData) (off : Nat) : DiskINode where
  type := d.get16 off
  major := d.get16 (off + 2)
  minor := d.get16 (off + 4)
  nlink := d.get16 (off + 6)
  size := d.get32 (off + 8)
  addrs k := d.get32 (off + 12 + 4 * k)

/-- The block after a store of the inode at offset `off`. -/
def store (dip : DiskINode) (d : BlockData) (off : Nat) : BlockData :=
  d.put off DINODE_SIZE dip.bytes

end DiskINode

/-- The bytes of a directory entry. -/
abbrev DIRENT_SIZE : Nat := 16

/-- A directory entry. -/
@[ext] structure DirEntry where
  inum : UInt16
  name : Bytes.Buffer DIRSIZ

namespace DirEntry

/-- The entry of zero bytes. -/
def zero : DirEntry := ⟨0, Bytes.Buffer.zero DIRSIZ⟩

def bytes (de : DirEntry) : Bytes.Source := fun i =>
  if i < 2 then Bytes.bytes16 de.inum i else de.name.get (i - 2)

def load (src : Bytes.Source) : DirEntry := 
  ⟨Bytes.word16 src, .ofSource DIRSIZ fun i => src (2 + i)⟩

/-- The string in `name`: its bytes before the first NUL, all of them when there is none. -/
def str (de : DirEntry) : List UInt8 := de.name.data.takeWhile (· != 0)

end DirEntry

/-- `strncpy` to the `name` of a directory entry. -/
def strncpy (name : List UInt8) : Bytes.Buffer DIRSIZ := 
  .ofSource DIRSIZ fun i => name.getD i 0

/-- `strcmp(a, b) == 0` for the string `a` and the string `b` in the `name` of a directory entry.
It reads past the end of `name` when no NUL stops it there. -/
def strcmp (a b : List UInt8) : Option Bool :=
  if b.length = DIRSIZ ∧ b <+: a then none else some (a == b)

/-! ### The process -/

/-- An inode in the cache.  One that is not cached has no references and nothing in it. -/
structure INode where
  ref : Nat
  locked : Bool
  valid : Bool
  dinode : DiskINode

/-- What `new INode()` leaves, and what the cache holds for an inode that is not in it. -/
def INode.absent : INode := ⟨0, false, false, .zero⟩

inductive FileKind
  | FD_NONE
  | FD_INODE
  | FD_DEVICE
  deriving DecidableEq

/-- An entry of the file table.  `ip` is the number of the inode that it points to. -/
structure OFile where
  type : FileKind
  ip : Nat
  off : Nat
  major : UInt16
  readable : Bool
  writable : Bool
  ref : Nat

/-- An entry of the file table when the process starts. -/
def OFile.none : OFile := ⟨.FD_NONE, 0, 0, 0, false, false, 0⟩

/-- What an operation has done, apart from its result. -/
inductive Event
  | begin_op
  | end_op
  | log_write (b : Nat)
  | lock (inum : Nat)
  | unlock (inum : Nat)
  | access (inum : Nat)
  deriving DecidableEq

/-- How the process ends in the middle of an operation: a failed assertion, an `abort`, a null
pointer, a read past the end of an array, or a wait that nobody ends. -/
inductive Fault
  | log_write_too_big
  | log_write_outside
  | begin_op_waits
  | freeing_free_block
  | bmap_out_of_range
  | ilock
  | ilock_no_type
  | ilock_deadlock
  | iunlock
  | dirlookup_not_dir
  | dirlookup_read
  | dirlink_read
  | strcmp_over_read
  | path_not_absolute
  | isdirempty_readi
  | unlink_nlink
  | unlink_writei
  | ofile_close
  | ofile_read
  | ofile_write
  | unknown_type
  | null_inode
  deriving DecidableEq

/-- The state of the process: the content of each block as the block cache shows it, the
transaction, the inode cache and the file table. -/
structure Fs where
  blocks : Nat → BlockData
  outstanding : Nat
  log : List Nat
  inodes : Nat → INode
  files : Nat → OFile
  trace : List Event

/-- A program of the process. -/
abbrev Prog (α : Type) := StateT Fs (Except Fault) α

/-- The state of a process that has just started over the image `d`. -/
def Fs.boot (d : Disk) : Fs := ⟨d, 0, [], fun _ => .absent, fun _ => .none, []⟩

end Xv6fs
