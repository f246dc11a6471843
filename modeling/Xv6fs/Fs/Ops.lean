import Xv6fs.Fs.Dir
import Xv6fs.Lib.Transition

/-! The operations of the file system, `op_*.cxx`, and the file table that they use.  A handle is
the index of an entry of the file table. -/

namespace Xv6fs

open Program (assert)
open Fs (begin_op end_op)

abbrev O_WRONLY : Nat := 1

abbrev O_RDWR : Nat := 2

abbrev O_ACCMODE : Nat := 3

abbrev O_CREAT : Nat := 0o100

abbrev O_TRUNC : Nat := 0o1000

abbrev O_DIRECTORY : Nat := 0o200000

/-- `flags & mask` as a condition. -/
def has (flags mask : Nat) : Bool := flags &&& mask != 0

abbrev ENOENT : Int := 2

abbrev EIO : Int := 5

abbrev ENOMEM : Int := 12

abbrev ENOTDIR : Int := 20

abbrev EINVAL : Int := 22

/-- Maximum major device number. -/
abbrev NDEV : Nat := 10

abbrev CONSOLE : Nat := 1

variable (sb : SuperBlock)

/-! ### The file table -/

/-- A change of entry `i` of the file table. -/
def modify_file (i : Nat) (f : OFile → OFile) : Prog PUnit :=
  modify fun s => { s with files := setAt s.files i (f (s.files i)) }

/-- The first of the `fuel` entries of the file table from `i` on that is free. -/
def free_file (files : Nat → OFile) : (fuel i : Nat) → Option Nat
  | 0, _ => none
  | fuel + 1, i => if (files i).type = .FD_NONE then some i else free_file files fuel (i + 1)

/-- `ofile_alloc` finds an entry that is not open. -/
theorem free_file_some {files : Nat → OFile} {fuel i j : Nat} (h : free_file files fuel j = some i) :
    (files i).type = .FD_NONE ∧ i < j + fuel := by
  induction fuel generalizing j with
  | zero => cases h
  | succ fuel ih =>
    rw [free_file] at h
    split at h
    · cases h
      exact ⟨‹_›, by omega⟩
    · obtain ⟨h1, h2⟩ := ih h
      exact ⟨h1, by omega⟩

/-- `ofile_alloc` finds none when all are open. -/
theorem free_file_none {files : Nat → OFile} {fuel j : Nat} (h : free_file files fuel j = none) :
    ∀ i, j ≤ i → i < j + fuel → (files i).type ≠ .FD_NONE := by
  induction fuel generalizing j with
  | zero => exact fun i h1 h2 => by omega
  | succ fuel ih =>
    rw [free_file] at h
    split at h
    · cases h
    · next hne =>
      intro i h1 h2
      by_cases hij : i = j
      · rw [hij]
        exact hne
      · exact ih h i (by omega) (by omega)

/-- `ofile_alloc`: a free entry of the file table, now with one reference. -/
def ofile_alloc : Prog (Option Nat) := do
  let s ← get
  match free_file s.files NFILE 0 with
  | none => pure none
  | some i =>
    modify_file i fun f => { f with ref := 1 }
    pure (some i)

def ofile_close (i : Nat) : Prog PUnit := do
  let s ← get
  let ff := s.files i
  assert (ff.ref ≥ 1) .ofile_close
  if ff.ref - 1 > 0 then modify_file i fun f => { f with ref := f.ref - 1 }
  else
    modify_file i fun f => { f with ref := 0, type := .FD_NONE }
    match ff.type with
    | .FD_NONE => throw .ofile_close
    | .FD_INODE | .FD_DEVICE =>
      begin_op
      inode_put sb ff.ip
      end_op

/-- `OFile::read` of `n` bytes into `buf`. -/
def OFile.read (i : Nat) (buf : Bytes.Source) (n : Nat) : Prog (Int × Bytes.Source) := do
  let s ← get
  let f := s.files i
  if f.readable = false then pure (-1, buf)
  else
    match f.type with
    | .FD_NONE => throw .ofile_read
    | .FD_DEVICE => if f.major.toNat = CONSOLE then pure (0, buf) else pure (-1, buf)
    | .FD_INODE =>
      INode.lock sb f.ip
      let (r, buf) ← INode.read sb f.ip buf f.off n
      modify_file i fun f => { f with off := f.off + r }
      INode.unlock f.ip
      pure (r, buf)

/-- The loop of `OFile::write`, which has written `done` bytes, and the value of `i` after it. -/
def OFile.write_loop (i : Nat) (buf : Bytes.Source) (n : Nat) : (fuel done : Nat) → Prog Nat
  | 0, done => pure done
  | fuel + 1, done => do
    if done < n then
      let max := (MAX_OP_BLOCKS - 1 - 1 - 2) / 2 * BSIZE
      let n1 := min (n - done) max
      begin_op
      let s ← get
      let f := s.files i
      INode.lock sb f.ip
      let r ← INode.write sb f.ip (fun k => buf (done + k)) f.off n1
      modify_file i fun f => { f with off := f.off + r }
      INode.unlock f.ip
      end_op
      if r ≠ n1 then pure done else OFile.write_loop i buf n fuel (done + r)
    else pure done

def OFile.write (i : Nat) (buf : Bytes.Source) (n : Nat) : Prog Int := do
  let s ← get
  let f := s.files i
  if f.readable = false then pure (-1)
  else
    match f.type with
    | .FD_NONE => throw .ofile_write
    | .FD_DEVICE => if f.major.toNat = CONSOLE then pure 0 else pure (-1)
    | .FD_INODE =>
      let done ← OFile.write_loop sb i buf n n 0
      pure (if done = n then n else -1)

/-! ### Creation and opening -/

/-- `create`: the inode of a new file or directory, or of a file that was there, locked. -/
def create (path : List UInt8) (type major minor : UInt16) : Prog (Option Nat) := do
  match ← inode_name_parent sb path with
  | none => pure none
  | some (dp, name) =>
    INode.lock sb dp
    match ← INode.dirlookup sb dp name with
    | some (ip, _) =>
      inode_unlock_put sb dp
      INode.lock sb ip
      let s ← get
      let t := (s.inodes ip).dinode.type
      if type = FileType.T_FILE ∧ (t = FileType.T_FILE ∨ t = FileType.T_DEVICE) then
        pure (some ip)
      else
        inode_unlock_put sb ip
        pure none
    | none =>
      match ← inode_alloc sb type with
      | none =>
        inode_unlock_put sb dp
        pure none
      | some ip =>
        INode.lock sb ip
        modify_dinode ip fun dip => { dip with major, minor, nlink := 1 }
        INode.update sb ip
        let linked ← create_entries dp ip name
        if linked then
          if type = FileType.T_DIR then
            modify_dinode dp fun dip => { dip with nlink := dip.nlink + 1 }
            INode.update sb dp
            inode_unlock_put sb dp
            pure (some ip)
          else
            inode_unlock_put sb dp
            pure (some ip)
        else
          modify_dinode ip fun dip => { dip with nlink := 0 }
          INode.update sb ip
          inode_unlock_put sb ip
          inode_unlock_put sb dp
          pure none
where
  /-- The entries `.` and `..` of a new directory, and its own entry.  The first that cannot be
  added leaves out the others. -/
  create_entries (dp ip : Nat) (name : List UInt8) : Prog Bool := do
    if type = FileType.T_DIR then
      let dot ← INode.dirlink sb ip [46] ip
      if dot then
        let dotdot ← INode.dirlink sb ip [46, 46] dp
        if dotdot then INode.dirlink sb dp name ip else pure false
      else pure false
    else INode.dirlink sb dp name ip

/-- What `do_open` does with the inode that it has found, which is locked. -/
def open_inode (ip omode : Nat) : Prog (Option Nat) := do
  match ← ofile_alloc with
  | none =>
    inode_unlock_put sb ip
    end_op
    pure none
  | some i =>
    let s ← get
    let dip := (s.inodes ip).dinode
    let readable := !has omode O_WRONLY
    let writable := has omode O_WRONLY || has omode O_RDWR
    if dip.type = FileType.T_DEVICE then
      modify_file i fun f =>
        { f with type := .FD_DEVICE, major := dip.major, ip, readable, writable }
    else
      modify_file i fun f => { f with type := .FD_INODE, off := 0, ip, readable, writable }
    if has omode O_TRUNC ∧ dip.type = FileType.T_FILE then
      INode.trunc sb ip
      INode.unlock ip
      end_op
      pure (some i)
    else
      INode.unlock ip
      end_op
      pure (some i)

def do_open (path : List UInt8) (omode : Nat) : Prog (Option Nat) := do
  begin_op
  if has omode O_CREAT then
    match ← create sb path FileType.T_FILE 0 0 with
    | none =>
      end_op
      pure none
    | some ip => open_inode sb ip omode
  else
    match ← inode_name sb path with
    | none =>
      end_op
      pure none
    | some ip =>
      INode.lock sb ip
      let s ← get
      if (s.inodes ip).dinode.type = FileType.T_DIR ∧ omode &&& O_ACCMODE ≠ 0 ∧
          has omode O_TRUNC ∧ ¬has omode O_DIRECTORY then
        inode_unlock_put sb ip
        end_op
        pure none
      else open_inode sb ip omode

/-- `op_open`: its result and the handle. -/
def op_open (path : List UInt8) (flags : Nat) : Prog (Int × Option Nat) := do
  match ← do_open sb path flags with
  | none => pure (-ENOENT, none)
  | some i => pure (0, some i)

/-- `op_create`: its result and the handle.  It takes the mode of the file for the flags. -/
def op_create (path : List UInt8) (omode : Nat) : Prog (Int × Option Nat) := do
  begin_op
  match ← create sb path FileType.T_FILE 0 0 with
  | none =>
    end_op
    pure (- EIO, none)
  | some ip =>
    match ← ofile_alloc with
    | none =>
      inode_unlock_put sb ip
      end_op
      pure (- EIO, none)
    | some i =>
      modify_file i fun f => { f with
        type := .FD_INODE, off := 0, ip
        readable := !has omode O_WRONLY
        writable := has omode O_WRONLY || has omode O_RDWR }
      let s ← get
      if has omode O_TRUNC ∧ (s.inodes ip).dinode.type = FileType.T_FILE then
        INode.trunc sb ip
        INode.unlock ip
        end_op
        pure (0, some i)
      else
        INode.unlock ip
        end_op
        pure (0, some i)

/-- `op_mkdir`.  It does not check that `create` has returned an inode. -/
def op_mkdir (path : List UInt8) : Prog Int := do
  begin_op
  match ← create sb path FileType.T_DIR 0 0 with
  | none => throw .null_inode
  | some ip =>
    inode_unlock_put sb ip
    end_op
    pure 0

/-! ### Reading, writing and closing -/

/-- `op_read` of `size` bytes at `offset` into `buf`. -/
def op_read (fh : Nat) (buf : Bytes.Source) (size offset : Nat) : Prog (Int × Bytes.Source) := do
  let s ← get
  if offset > (s.inodes (s.files fh).ip).dinode.size.toNat then pure (0, buf)
  else
    modify_file fh fun f => { f with off := offset }
    let (_, buf) ← OFile.read sb fh buf (size % 2 ^ 32)
    pure (to_int size, buf)

def op_write (fh : Nat) (buf : Bytes.Source) (size offset : Nat) : Prog Int := do
  let s ← get
  if offset > (s.inodes (s.files fh).ip).dinode.size.toNat then pure (-1)
  else OFile.write sb fh buf (size % 2 ^ 32)

def op_truncate (path : List UInt8) (length : Nat) : Prog Int := do
  match ← do_open sb path O_RDWR with
  | none => pure (-ENOENT)
  | some i =>
    let s ← get
    let ip := (s.files i).ip
    let n_block_new := (length + BSIZE - 1) / BSIZE % 2 ^ 32
    begin_op
    INode.lock sb ip
    modify_dinode ip fun dip => { dip with size := UInt32.ofNat (n_block_new * BSIZE) }
    INode.update sb ip
    INode.unlock ip
    end_op
    ofile_close sb i
    pure 0

/-- What `do_fillstatbuf` fills in: the inode number, whether it is a directory, the links, the size
and the number of blocks. -/
structure StatBuf where
  st_ino : Nat
  dir : Bool
  st_nlink : Nat
  st_size : Nat
  st_blocks : Nat

def do_fillstatbuf (x : Nat) : Prog StatBuf := do
  let s ← get
  let dip := (s.inodes x).dinode
  assert (dip.type = FileType.T_DIR ∨ dip.type = FileType.T_FILE) .unknown_type
  pure ⟨x, dip.type = FileType.T_DIR, dip.nlink.toNat, dip.size.toNat,
    (dip.size.toNat + BSIZE - 1) % 2 ^ 32 / BSIZE⟩

def op_getattr (path : List UInt8) : Prog (Int × Option StatBuf) := do
  match ← do_open sb path 0 with
  | none => pure (-ENOENT, none)
  | some i =>
    let s ← get
    let st ← do_fillstatbuf (s.files i).ip
    ofile_close sb i
    pure (0, some st)

/-- What one call of the filler gets: the name, the attributes, and the offset of the next entry. -/
structure Filled where
  name : List UInt8
  st : StatBuf
  next : Nat

/-- The loop of `op_readdir` at `i`, with what the filler has got so far, last first.  The filler is
full at call `k` when `full k`. -/
def readdir_loop (fh : Nat) (full : Nat → Bool) :
    (fuel i : Nat) → List Filled → Prog (Int × List Filled)
  | 0, _, got => pure (0, got)
  | fuel + 1, i, got => do
    let s ← get
    if i < (s.inodes (s.files fh).ip).dinode.size.toNat then
      let (_, buf) ← OFile.read sb fh (fun _ => 0) DIRENT_SIZE
      let de := DirEntry.load buf
      if de.inum = 0 then readdir_loop fh full fuel (i + DIRENT_SIZE) got
      else
        let x := de.inum.toNat
        inode_get x
        INode.lock sb x
        let st ← do_fillstatbuf x
        inode_unlock_put sb x
        if full got.length then pure (-ENOMEM, got)
        else
          readdir_loop fh full fuel (i + DIRENT_SIZE) (⟨de.str, st, i + DIRENT_SIZE⟩ :: got)
    else pure (0, got)

def op_readdir (fh : Nat) (full : Nat → Bool) (offset : Nat) : Prog (Int × List Filled) := do
  let s ← get
  let size := (s.inodes (s.files fh).ip).dinode.size.toNat
  if offset > size then pure (0, [])
  else if offset % DIRENT_SIZE ≠ 0 then pure (-EINVAL, [])
  else readdir_loop sb fh full size offset []

def op_release (fh : Nat) : Prog Int := do
  ofile_close sb fh
  pure 0

/-- The loop of `op_flush` over the inodes in the cache, each in a transaction of its own. -/
def op_flush_loop : List Nat → Prog PUnit
  | [] => pure ⟨⟩
  | x :: rest => do
    begin_op
    INode.lock sb x
    INode.update sb x
    INode.unlock x
    end_op
    op_flush_loop rest

/-- `op_flush`.  The map of the cache is in the order of the inode numbers, which come from directory
entries or from `inode_alloc`.  The copies that it then makes to the log change no cached block. -/
def op_flush : Prog Int := do
  let s ← get
  op_flush_loop sb ((List.range (max (2 ^ 16) sb.ninodes)).filter fun x => (s.inodes x).ref ≠ 0)
  pure 0

/-! ### Names -/

/-- `do_link`.  All inodes are on one device. -/
def do_link (source dest : List UInt8) : Prog Int := do
  begin_op
  match ← inode_name sb source with
  | none =>
    end_op
    pure (-1)
  | some ip =>
    INode.lock sb ip
    let s ← get
    if (s.inodes ip).dinode.type = FileType.T_DIR then
      inode_unlock_put sb ip
      end_op
      pure (-1)
    else
      modify_dinode ip fun dip => { dip with nlink := dip.nlink + 1 }
      INode.unlock ip
      INode.unlock ip
      match ← inode_name_parent sb dest with
      | none => roll_back ip
      | some (dp, name) =>
        INode.lock sb dp
        let linked ← INode.dirlink sb dp name ip
        inode_unlock_put sb dp
        if linked then
          inode_put sb ip
          end_op
          pure 0
        else roll_back ip
where
  /-- The error paths after the link count has been increased. -/
  roll_back (ip : Nat) : Prog Int := do
    INode.lock sb ip
    modify_dinode ip fun dip => { dip with nlink := dip.nlink - 1 }
    INode.update sb ip
    inode_unlock_put sb ip
    end_op
    pure (-1)

def op_link (source dest : List UInt8) : Prog Int := do_link sb source dest

/-- The loop of `is_dir_empty` from offset `off` on. -/
def is_dir_empty_loop (x : Nat) : (fuel off : Nat) → Prog Bool
  | 0, _ => pure true
  | fuel + 1, off => do
    let s ← get
    if off < (s.inodes x).dinode.size.toNat then
      let (n, buf) ← INode.read sb x (fun _ => 0) off DIRENT_SIZE
      assert (n = DIRENT_SIZE) .isdirempty_readi
      if (DirEntry.load buf).inum ≠ 0 then pure false
      else is_dir_empty_loop x fuel (off + DIRENT_SIZE)
    else pure true

def is_dir_empty (x : Nat) : Prog Bool := do
  let s ← get
  is_dir_empty_loop sb x (s.inodes x).dinode.size.toNat (2 * DIRENT_SIZE)

def do_unlink (path : List UInt8) : Prog Int := do
  begin_op
  match ← inode_name_parent sb path with
  | none =>
    end_op
    pure (-1)
  | some (dp, basename) =>
    if basename = [46] ∨ basename = [46, 46] then
      inode_unlock_put sb dp
      end_op
      pure (-1)
    else
      match ← INode.dirlookup sb dp basename with
      | none =>
        inode_unlock_put sb dp
        end_op
        pure (-1)
      | some (ip, off) =>
        INode.lock sb ip
        let s ← get
        assert ((s.inodes ip).dinode.nlink ≥ 1) .unlink_nlink
        let removable ← (if (s.inodes ip).dinode.type = FileType.T_DIR then is_dir_empty sb ip
          else pure true)
        if removable then remove dp ip off
        else
          inode_unlock_put sb ip
          inode_unlock_put sb dp
          end_op
          pure (-1)
where
  /-- The removal of the entry at `off` of `dp`, which names `ip`. -/
  remove (dp ip off : Nat) : Prog Int := do
    let n ← INode.write sb dp DirEntry.zero.bytes off DIRENT_SIZE
    assert (n = DIRENT_SIZE) .unlink_writei
    let s ← get
    if (s.inodes ip).dinode.type = FileType.T_DIR then
      modify_dinode dp fun dip => { dip with nlink := dip.nlink - 1 }
      INode.update sb dp
      rest dp ip
    else rest dp ip
  /-- What follows the change of the parent. -/
  rest (dp ip : Nat) : Prog Int := do
    inode_unlock_put sb dp
    modify_dinode ip fun dip => { dip with nlink := dip.nlink - 1 }
    INode.update sb ip
    inode_unlock_put sb ip
    end_op
    pure 0

def op_unlink (path : List UInt8) : Prog Int := do_unlink sb path

/-- `same_parent`.  It reads the type of the parent without its lock, and drops its reference on all
paths but one. -/
def same_parent (source dest : List UInt8) : Prog Int := do
  begin_op
  match ← inode_name sb (Path.parent_path source) with
  | none =>
    end_op
    pure (-ENOENT)
  | some dp =>
    let s ← get
    if (s.inodes dp).dinode.type ≠ FileType.T_DIR then
      end_op
      pure (-ENOTDIR)
    else
      match ← INode.dirlookup sb dp (Path.filename source) with
      | none =>
        inode_unlock_put sb dp
        end_op
        pure (-ENOENT)
      | some (ip, off) =>
        let de : DirEntry := ⟨UInt16.ofNat ip, strncpy (Path.filename dest)⟩
        let n ← INode.write sb dp de.bytes off DIRENT_SIZE
        if n ≠ DIRENT_SIZE then
          inode_unlock_put sb ip
          inode_unlock_put sb dp
          end_op
          pure (- EIO)
        else
          INode.update sb dp
          inode_unlock_put sb ip
          inode_unlock_put sb dp
          end_op
          pure 0

/-- `different_parent`, once both parents are found. -/
def move_entry (dp_src dp_dest : Nat) (source_base dest_base : List UInt8) : Prog Int := do
  match ← INode.dirlookup sb dp_src source_base with
  | none =>
    inode_unlock_put sb dp_src
    inode_unlock_put sb dp_dest
    end_op
    pure (-ENOENT)
  | some (ip, off) =>
    let linked ← INode.dirlink sb dp_dest dest_base ip
    if linked then
      INode.update sb dp_dest
      let s ← get
      let last := (s.inodes dp_src).dinode.size.toNat - DIRENT_SIZE
      let (n, buf) ← INode.read sb dp_src (fun _ => 0) last DIRENT_SIZE
      if n ≠ DIRENT_SIZE then
        let s ← get
        let last := (s.inodes dp_dest).dinode.size.toNat - DIRENT_SIZE
        let _ ← INode.write sb dp_dest DirEntry.zero.bytes last DIRENT_SIZE
        INode.update sb dp_dest
        inode_unlock_put sb ip
        inode_unlock_put sb dp_src
        inode_unlock_put sb dp_dest
        end_op
        pure (- EIO)
      else
        let _ ← INode.write sb dp_src buf off DIRENT_SIZE
        INode.update sb dp_src
        inode_put sb ip
        inode_unlock_put sb dp_src
        inode_unlock_put sb dp_dest
        end_op
        pure 0
    else
      inode_unlock_put sb ip
      inode_unlock_put sb dp_src
      inode_unlock_put sb dp_dest
      end_op
      pure (- EIO)

/-- `different_parent`.  It drops no reference to a parent that is not a directory. -/
def different_parent (source dest : List UInt8) : Prog Int := do
  begin_op
  match ← inode_name sb (Path.parent_path source) with
  | none =>
    end_op
    pure (-ENOENT)
  | some dp_src =>
    let s ← get
    if (s.inodes dp_src).dinode.type ≠ FileType.T_DIR then
      end_op
      pure (-ENOENT)
    else
      match ← inode_name sb (Path.parent_path dest) with
      | none => no_dest dp_src
      | some dp_dest =>
        let s ← get
        if (s.inodes dp_dest).dinode.type ≠ FileType.T_DIR then no_dest dp_src
        else move_entry sb dp_src dp_dest (Path.filename source) (Path.filename dest)
where
  no_dest (dp_src : Nat) : Prog Int := do
    inode_unlock_put sb dp_src
    end_op
    pure (-ENOENT)

def op_rename (source dest : List UInt8) : Prog Int :=
  if Path.same (Path.parent_path source) (Path.parent_path dest) then same_parent sb source dest
  else different_parent sb source dest

/-! ### Calls -/

/-- A call of an operation of the file system, with its arguments. -/
inductive Call
  | create (path : List UInt8) (mode : Nat)
  | mkdir (path : List UInt8)
  | open (path : List UInt8) (flags : Nat)
  | read (fh : Nat) (buf : Bytes.Source) (size offset : Nat)
  | write (fh : Nat) (buf : Bytes.Source) (size offset : Nat)
  | truncate (path : List UInt8) (length : Nat)
  | getattr (path : List UInt8)
  | readdir (fh : Nat) (full : Nat → Bool) (offset : Nat)
  | flush
  | release (fh : Nat)
  | link (source dest : List UInt8)
  | unlink (path : List UInt8)
  | rename (source dest : List UInt8)

/-- What a call returns. -/
inductive Reply
  | status (r : Int)
  | handle (r : Int) (fh : Option Nat)
  | bytes (r : Int) (buf : Bytes.Source)
  | stat (r : Int) (st : Option StatBuf)
  | entries (r : Int) (got : List Filled)

def Call.run : Call → Prog Reply
  | create path mode => (fun r => .handle r.1 r.2) <$> op_create sb path mode
  | mkdir path => .status <$> op_mkdir sb path
  | .open path flags => (fun r => .handle r.1 r.2) <$> op_open sb path flags
  | read fh buf size offset => (fun r => .bytes r.1 r.2) <$> op_read sb fh buf size offset
  | write fh buf size offset => .status <$> op_write sb fh buf size offset
  | truncate path length => .status <$> op_truncate sb path length
  | getattr path => (fun r => .stat r.1 r.2) <$> op_getattr sb path
  | readdir fh full offset => (fun r => .entries r.1 r.2) <$> op_readdir sb fh full offset
  | flush => .status <$> op_flush sb
  | release fh => .status <$> op_release sb fh
  | link source dest => .status <$> op_link sb source dest
  | unlink path => .status <$> op_unlink sb path
  | rename source dest => .status <$> op_rename sb source dest

/-- The state after a call, if it returns. -/
def Call.step (s : Fs) (call : Call) : Option Fs := (call.run sb s).toOption.map Prod.snd

theorem Call.step_eq_some {sb : SuperBlock} {s s' : Fs} {call : Call} :
    call.step sb s = some s' ↔ ∃ r, call.run sb s = .ok (r, s') := by
  unfold Call.step
  cases call.run sb s with
  | error e => simp [Except.toOption]
  | ok r => simp [Except.toOption, Prod.ext_iff]

end Xv6fs
