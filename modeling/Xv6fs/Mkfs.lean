import Xv6fs.Fs.Ops

/-! `mkfs.c`: the image that it writes for a list of files. -/

namespace Xv6fs.Mkfs

/-- An input file: the argument that names it, and the bytes that each `read` of it returns. -/
structure File where
  arg : List UInt8
  chunks : List (List UInt8)

/-- How `mkfs` ends without an image. -/
inductive Fault
  | shortname
  | rsect
  | file_too_big
  | balloc
  deriving DecidableEq

/-- The image so far, the next inode and the next block. -/
structure State where
  disk : Disk
  freeinode : Nat
  used_block : Nat

abbrev Prog (α : Type) := StateT State (Except Fault) α

/-- Number of blocks of the bitmap. -/
abbrev nbitmap : Nat := FSSIZE / (BSIZE * 8) + 1

/-- Number of blocks of inodes. -/
abbrev ninodeblocks : Nat := NINODES / INODE_PER_BLOCK + 1

abbrev nlog : Nat := LOG_SIZE

/-- Number of meta blocks: boot, super block, log, inodes, bitmap. -/
abbrev nmeta : Nat := 1 + 1 + nlog + ninodeblocks + nbitmap

/-- The super block that `mkfs` writes. -/
def sb : SuperBlock where
  size := FSSIZE
  nblocks := FSSIZE - nmeta
  ninodes := NINODES
  nlog := nlog
  logstart := 2
  inodestart := 2 + nlog
  bmapstart := 2 + nlog + ninodeblocks

/-- The block that holds the super block. -/
def superblock : BlockData :=
  ([FS_MAGIC, sb.size, sb.nblocks, sb.ninodes, sb.nlog, sb.logstart, sb.inodestart,
    sb.bmapstart].zipIdx).foldl (fun d p => d.put32 (4 * p.2) (UInt32.ofNat p.1))
    (Bytes.Buffer.zero BSIZE)

def wsect (bno : Nat) (buf : BlockData) : Prog PUnit :=
  modify fun s => { s with disk := setAt s.disk bno buf }

/-- `rsect`, which fails past the end of the image. -/
def rsect (bno : Nat) : Prog BlockData := do
  Program.assert (bno < FSSIZE) .rsect
  let s ← get
  pure (s.disk bno)

def winode (inum : Nat) (ip : DiskINode) : Prog PUnit := do
  let buf ← rsect (INODE_BLOCK sb inum)
  wsect (INODE_BLOCK sb inum) (ip.store buf (DINODE_SIZE * (inum % INODE_PER_BLOCK)))

def rinode (inum : Nat) : Prog DiskINode := do
  let buf ← rsect (INODE_BLOCK sb inum)
  pure (.load buf (DINODE_SIZE * (inum % INODE_PER_BLOCK)))

def ialloc (type : UInt16) : Prog Nat := do
  let s ← get
  modify fun s => { s with freeinode := s.freeinode + 1 }
  winode s.freeinode { DiskINode.zero with type, nlink := 1 }
  pure s.freeinode

/-- `used_block++`. -/
def next_block : Prog Nat := do
  let s ← get
  modify fun s => { s with used_block := s.used_block + 1 }
  pure s.used_block

/-- The block of the file at entry `k` of `addrs`, new when there is none, and the inode. -/
def append_addr (din : DiskINode) (k : Nat) : Prog (Nat × DiskINode) := do
  if din.addr k = 0 then
    let x ← next_block
    pure (x, din.setAddr k (UInt32.ofNat x))
  else pure ((din.addr k).toNat, din)

/-- The block of the file at entry `j` of the indirect block `ind`, new when there is none. -/
def append_indirect (ind j : Nat) : Prog Nat := do
  let indirect ← rsect ind
  if indirect.get32 (4 * j) = 0 then
    let x ← next_block
    wsect ind (indirect.put32 (4 * j) (UInt32.ofNat x))
    pure x
  else pure (indirect.get32 (4 * j)).toNat

/-- The block `fbn` of the file, new when there is none, and the inode. -/
def append_block (din : DiskINode) (fbn : Nat) : Prog (Nat × DiskINode) := do
  if fbn < NDIRECT then append_addr din fbn
  else
    let (ind, din) ← append_addr din NDIRECT
    let x ← append_indirect ind (fbn - NDIRECT)
    pure (x, din)

/-- The loop of `iappend`: what is left of the data, the offset, and the inode. -/
def iappend_loop : (fuel : Nat) → List UInt8 → (off : Nat) → DiskINode → Prog (Nat × DiskINode)
  | 0, _, off, din => pure (off, din)
  | fuel + 1, p, off, din => do
    if p = [] then pure (off, din)
    else
      let fbn := off / BSIZE
      Program.assert (fbn < MAX_FILE) .file_too_big
      let (x, din) ← append_block din fbn
      let n1 := min p.length ((fbn + 1) * BSIZE - off)
      let buf ← rsect x
      wsect x (buf.put (off - fbn * BSIZE) n1 fun i => p.getD i 0)
      iappend_loop fuel (p.drop n1) (off + n1) din

/-- `iappend` of the bytes `p` to inode `inum`. -/
def iappend (inum : Nat) (p : List UInt8) : Prog PUnit := do
  let din ← rinode inum
  let (off, din) ← iappend_loop p.length p din.size.toNat din
  winode inum { din with size := UInt32.ofNat off }

/-- `balloc`: the bitmap block with the first `used` bits set. -/
def balloc (used : Nat) : Prog PUnit := do
  Program.assert (used < BSIZE * 8) .balloc
  wsect sb.bmapstart ((List.range' 0 used).foldl
    (fun d i => d.put (i / 8) 1 fun _ => d.get (i / 8) ||| bit_mask i) (Bytes.Buffer.zero BSIZE))

/-- The bytes of a directory entry. -/
def dirent (inum : Nat) (name : List UInt8) : List UInt8 :=
  (List.range' 0 DIRENT_SIZE).map (DirEntry.mk (UInt16.ofNat inum) (strncpy name)).bytes

/-- The name of a file: its argument without the prefix `user/` and a leading `_`. -/
def shortname (arg : List UInt8) : List UInt8 :=
  let name := if [117, 115, 101, 114, 47] <+: arg then arg.drop 5 else arg
  if name.head? = some 95 then name.drop 1 else name

def append_chunks (inum : Nat) : List (List UInt8) → Prog PUnit
  | [] => pure ⟨⟩
  | p :: rest => do
    iappend inum p
    append_chunks inum rest

def add_files (rootino : Nat) : List File → Prog PUnit
  | [] => pure ⟨⟩
  | f :: rest => do
    Program.assert ((47 : UInt8) ∉ shortname f.arg) .shortname
    let inum ← ialloc FileType.T_FILE
    iappend rootino (dirent inum (shortname f.arg))
    append_chunks inum f.chunks
    add_files rootino rest

/-- `main` from the cleared image on. -/
def build (files : List File) : Prog PUnit := do
  wsect 1 superblock
  let rootino ← ialloc FileType.T_DIR
  iappend rootino (dirent rootino [46])
  iappend rootino (dirent rootino [46, 46])
  add_files rootino files
  let din ← rinode rootino
  winode rootino { din with size := UInt32.ofNat ((din.size.toNat / BSIZE + 1) * BSIZE) }
  let s ← get
  balloc s.used_block

/-- The image that `mkfs` writes for the files. -/
def main (files : List File) : Except Fault Disk :=
  (build files ⟨fun _ => Bytes.Buffer.zero BSIZE, 1, nmeta⟩).map fun r => r.2.disk

/-- The process that has just started over the image of the files. -/
def mount (files : List File) : Except Fault Fs := (main files).map Fs.boot

theorem mount_ok {files : List File} {s : Fs} (h : mount files = .ok s) :
    ∃ d, main files = .ok d ∧ s = Fs.boot d := by
  unfold mount at h
  cases hd : main files with
  | error e =>
    rw [hd] at h
    cases h
  | ok d =>
    rw [hd] at h
    cases h
    exact ⟨d, rfl, rfl⟩

/-- A computed run of calls over the image of the files. -/
theorem reach_of_run (files : List File) {init : Fs → Prop} (ok : Fs → Call → Prop)
    [∀ s call, Decidable (ok s call)] (hinit : ∀ s, mount files = .ok s → init s)
    (calls : List Call) {p : Fs → Bool}
    (h : (mount files).toOption.bind (fun s =>
      (Transition.run (Call.step sb) ok s calls).map p) = some true) :
    ∃ s, Transition.Reach init (Call.step sb) ok s ∧ p s = true := by
  cases hs : mount files with
  | error e =>
    rw [hs] at h
    cases h
  | ok s =>
    rw [hs] at h
    exact (Transition.Reach.start (hinit s hs)).of_run calls h

end Xv6fs.Mkfs
