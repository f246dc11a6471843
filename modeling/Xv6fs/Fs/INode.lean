import Xv6fs.Fs.Blocks

/-! Inodes: their locks, their content, and the inode cache.  An inode is named by its number, which
stands for the pointer to the one `INode` of that number in the cache. -/

namespace Xv6fs

open Program (assert)

/-- A change of inode `x` in the cache. -/
def modify_inode (x : Nat) (f : INode → INode) : Prog PUnit :=
  modify fun s => { s with inodes := setAt s.inodes x (f (s.inodes x)) }

/-- A change of the copy of inode `x` in memory. -/
def modify_dinode (x : Nat) (f : DiskINode → DiskINode) : Prog PUnit :=
  modify_inode x fun ip => { ip with dinode := f ip.dinode }

/-- `mtx.lock()` of inode `x`. -/
def mtx_lock (x : Nat) : Prog PUnit := do
  let s ← get
  assert ((s.inodes x).locked = false) .ilock_deadlock
  record (.lock x)
  modify_inode x fun ip => { ip with locked := true }

/-- `mtx.unlock()` of inode `x`. -/
def mtx_unlock (x : Nat) : Prog PUnit := do
  record (.unlock x)
  modify_inode x fun ip => { ip with locked := false }

variable (sb : SuperBlock)

/-- Inode `x` on disk. -/
def Fs.dinode (s : Fs) (x : Nat) : DiskINode :=
  .load (s.blocks (INODE_BLOCK sb x)) (DINODE_SIZE * (x % INODE_PER_BLOCK))

/-- A store of inode `x` to its block. -/
def store_dinode (x : Nat) (dip : DiskINode) : Prog PUnit :=
  modify_block (INODE_BLOCK sb x) fun d => dip.store d (DINODE_SIZE * (x % INODE_PER_BLOCK))

namespace INode

def lock (x : Nat) : Prog PUnit := do
  let s ← get
  assert ((s.inodes x).ref ≥ 1) .ilock
  mtx_lock x
  if (s.inodes x).valid = false then
    modify_inode x fun ip => { ip with dinode := s.dinode sb x, valid := true }
    assert ((s.dinode sb x).type ≠ FileType.Invalid) .ilock_no_type
  else pure ⟨⟩

def unlock (x : Nat) : Prog PUnit := do
  let s ← get
  assert ((s.inodes x).ref ≥ 1) .iunlock
  mtx_unlock x

def update (x : Nat) : Prog PUnit := do
  record (.access x)
  let s ← get
  store_dinode sb x (s.inodes x).dinode
  Fs.log_write sb (INODE_BLOCK sb x)

/-- The loop of `trunc` over the direct blocks. -/
def trunc_direct (x : Nat) : List Nat → Prog PUnit
  | [] => pure ⟨⟩
  | i :: rest => do
    let s ← get
    let b := ((s.inodes x).dinode.addr i).toNat
    if b ≠ 0 then
      block_free sb b
      modify_dinode x fun dip => dip.setAddr i 0
      trunc_direct x rest
    else trunc_direct x rest

/-- The loop of `trunc` over the entries of the indirect block `ind`. -/
def trunc_indirect (ind : Nat) : List Nat → Prog PUnit
  | [] => pure ⟨⟩
  | j :: rest => do
    let s ← get
    let b := ((s.blocks ind).get32 (4 * j)).toNat
    if b ≠ 0 then
      block_free sb b
      trunc_indirect ind rest
    else trunc_indirect ind rest

/-- What `trunc` does with the indirect block. -/
def trunc_rest (x : Nat) : Prog PUnit := do
  let s ← get
  let ind := ((s.inodes x).dinode.addr NDIRECT).toNat
  if ind ≠ 0 then
    trunc_indirect sb ind (List.range' 0 NINDIRECT)
    block_free sb ind
    modify_dinode x fun dip => dip.setAddr NDIRECT 0
  else pure ⟨⟩

def trunc (x : Nat) : Prog PUnit := do
  record (.access x)
  trunc_direct sb x (List.range' 0 NDIRECT)
  trunc_rest sb x
  modify_dinode x fun dip => { dip with size := 0 }
  update sb x

end INode

/-- The block at entry `k` of the `addrs` of inode `x`, allocated when there is none. -/
def block_map_addr (x k : Nat) : Prog Nat := do
  let s ← get
  let bno_phy := ((s.inodes x).dinode.addr k).toNat
  if bno_phy = 0 then
    let bno_phy ← block_alloc sb
    if bno_phy = 0 then pure 0
    else
      modify_dinode x fun dip => dip.setAddr k (UInt32.ofNat bno_phy)
      pure bno_phy
  else pure bno_phy

/-- The block at entry `j` of the indirect block `ind`, allocated when there is none. -/
def block_map_indirect (ind j : Nat) : Prog Nat := do
  let s ← get
  let bno_phy := ((s.blocks ind).get32 (4 * j)).toNat
  if bno_phy = 0 then
    let bno_phy ← block_alloc sb
    if bno_phy ≠ 0 then
      modify_block ind fun d => d.put32 (4 * j) (UInt32.ofNat bno_phy)
      Fs.log_write sb ind
      pure bno_phy
    else pure bno_phy
  else pure bno_phy

/-- The block that holds block `bno_logi` of inode `x`, allocated when there is none, or `0`. -/
def block_map (x bno_logi : Nat) : Prog Nat := do
  if bno_logi < NDIRECT then block_map_addr sb x bno_logi
  else if bno_logi - NDIRECT < NINDIRECT then
    let ind ← block_map_addr sb x NDIRECT
    if ind = 0 then pure 0 else block_map_indirect sb ind (bno_logi - NDIRECT)
  else throw .bmap_out_of_range

/-- `(uint32_t)-1`. -/
abbrev UINT32_ERR : Nat := 2 ^ 32 - 1

namespace INode

/-- The loop of `INode::read`, with the buffer as it is filled so far. -/
def read_loop (x n : Nat) : (fuel tot off : Nat) → Bytes.Source → Prog (Nat × Bytes.Source)
  | 0, tot, _, buf => pure (tot, buf)
  | fuel + 1, tot, off, buf => do
    if tot < n then
      let bno_phy ← block_map sb x (off / BSIZE)
      if bno_phy = 0 then pure (tot, buf)
      else
        let s ← get
        let m := min (n - tot) (BSIZE - off % BSIZE)
        read_loop x n fuel (tot + m) (off + m) fun i =>
          if tot ≤ i ∧ i < tot + m then (s.blocks bno_phy).get (off % BSIZE + (i - tot)) else buf i
    else pure (tot, buf)

/-- `INode::read` of `n` bytes at `off` into `buf`: the number of bytes read, and the buffer. -/
def read (x : Nat) (buf : Bytes.Source) (off n : Nat) : Prog (Nat × Bytes.Source) := do
  record (.access x)
  let s ← get
  let size := (s.inodes x).dinode.size.toNat
  if off > size ∨ off + n < off then pure (0, buf)
  else
    let n := if off + n > size then size - off else n
    read_loop sb x n n 0 off buf

/-- The loop of `INode::write`: the number of bytes written, and the offset after them. -/
def write_loop (x : Nat) (buf : Bytes.Source) (n : Nat) : (fuel tot off : Nat) → Prog (Nat × Nat)
  | 0, tot, off => pure (tot, off)
  | fuel + 1, tot, off => do
    if tot < n then
      let bno_phy ← block_map sb x (off / BSIZE)
      if bno_phy = 0 then pure (tot, off)
      else
        let m := min (n - tot) (BSIZE - off % BSIZE)
        modify_block bno_phy fun d => d.put (off % BSIZE) m fun i => buf (tot + i)
        Fs.log_write sb bno_phy
        write_loop x buf n fuel (tot + m) (off + m)
    else pure (tot, off)

/-- `INode::write` of the `n` bytes of `buf` at `off`. -/
def write (x : Nat) (buf : Bytes.Source) (off n : Nat) : Prog Nat := do
  record (.access x)
  let s ← get
  if off > (s.inodes x).dinode.size.toNat ∨ off + n < off then pure UINT32_ERR
  else if off + n > MAX_FILE * BSIZE then pure UINT32_ERR
  else
    let (tot, off) ← write_loop sb x buf n n 0 off
    modify_dinode x fun dip =>
      if off > dip.size.toNat then { dip with size := UInt32.ofNat off } else dip
    update sb x
    pure tot

end INode

/-! ### The inode cache -/

/-- `inode_get` of inode `inum`. -/
def inode_get (inum : Nat) : Prog PUnit :=
  modify_inode inum fun ip => { ip with ref := ip.ref + 1 }

/-- The loop of `inode_alloc`, from inode `inum` on. -/
def inode_alloc_from (type : UInt16) : (fuel inum : Nat) → Prog (Option Nat)
  | 0, _ => pure none
  | fuel + 1, inum => do
    if inum < sb.ninodes then
      let s ← get
      if (s.dinode sb inum).type = FileType.Invalid then
        store_dinode sb inum { DiskINode.zero with type }
        Fs.log_write sb (INODE_BLOCK sb inum)
        inode_get inum
        pure (some inum)
      else inode_alloc_from type fuel (inum + 1)
    else pure none

/-- `inode_alloc`: the number of an inode that was free, now of type `type`. -/
def inode_alloc (type : UInt16) : Prog (Option Nat) := inode_alloc_from sb type sb.ninodes 1

/-- What `inode_put` does with the last reference to an inode without links. -/
def inode_free (x : Nat) : Prog PUnit := do
  mtx_lock x
  INode.trunc sb x
  modify_dinode x fun dip => { dip with type := FileType.Invalid }
  INode.update sb x
  modify_inode x fun ip => { ip with valid := false }
  mtx_unlock x

/-- One reference less to inode `x`, which leaves the cache with its last reference. -/
def inode_drop (x : Nat) : Prog PUnit :=
  modify_inode x fun ip => if ip.ref - 1 = 0 then .absent else { ip with ref := ip.ref - 1 }

def inode_put (x : Nat) : Prog PUnit := do
  let s ← get
  let ip := s.inodes x
  if ip.ref = 1 ∧ ip.valid = true ∧ ip.dinode.nlink = 0 then
    inode_free sb x
    inode_drop x
  else inode_drop x

def inode_unlock_put (x : Nat) : Prog PUnit := do
  INode.unlock x
  inode_put sb x

end Xv6fs
