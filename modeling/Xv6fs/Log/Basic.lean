import Xv6fs.BlockCache

/-! The log of `Log.cxx`: its header in memory and on disk, the block writes of `commit`, and those
of `recover_from_log`.  `start` and `size` are `Log::start` and `Log::size`: the log is the `size`
blocks from `start` on, the header first. -/

namespace Xv6fs

open Function (update update_self update_of_ne)

/-- The log header in memory.  Only the first `n` entries count. -/
structure LogHeader where
  n : Nat
  block : Nat → Nat

namespace LogHeader

/-- Block `b` is one of the `n` blocks of the header. -/
def Has (h : LogHeader) (b : Nat) : Prop := ∃ i < h.n, h.block i = b

instance (h : LogHeader) (b : Nat) : Decidable (h.Has b) :=
  decidable_of_iff (∃ i : Fin h.n, h.block i = b) ⟨fun ⟨i, hi⟩ => ⟨i, i.isLt, hi⟩,
    fun ⟨i, hi, hb⟩ => ⟨⟨i, hi⟩, hb⟩⟩

/-- No block is in two of the `n` entries. -/
def Distinct (h : LogHeader) : Prop := ∀ i < h.n, ∀ j < h.n, h.block i = h.block j → i = j

/-- The index of block `b` in the header, and `n` when it is not there. -/
def index (h : LogHeader) (b : Nat) : Nat := (List.range h.n).findIdx fun i => h.block i == b

/-- The header block `old` after `write_head` has stored the header in it. -/
def store (h : LogHeader) (old : BlockData) : BlockData :=
  (List.range h.n).foldl (fun d i => d.put32 (4 + 4 * i) (UInt32.ofNat (h.block i)))
    (old.put32 0 (UInt32.ofNat h.n))

/-- The header after `read_head` has loaded it from the header block `d`. -/
def load (h : LogHeader) (d : BlockData) : LogHeader where
  n := (d.get32 0).toNat
  block i := if i < (d.get32 0).toNat then (d.get32 (4 + 4 * i)).toNat else h.block i

end LogHeader

/-- The block cache and the header in memory. -/
structure LogMem where
  cache : BlockCache
  log_hdr : LogHeader

namespace Log

variable (start : Nat)

def read_head (m : LogMem) : LogMem :=
  let c := m.cache.block_read start
  { cache := c.block_release start, log_hdr := m.log_hdr.load (c.content start) }

def write_head (m : LogMem) : LogMem :=
  let c := m.cache.block_read start
  let c := c.modify start m.log_hdr.store
  let c := c.block_write start
  { m with cache := c.block_release start }

/-- The iteration of `write_log` for `tail`. -/
def write_log_at (m : LogMem) (tail : Nat) : LogMem :=
  let dst_blk := start + tail + 1
  let src_blk := m.log_hdr.block tail
  let c := m.cache.block_read dst_blk
  let c := c.block_read src_blk
  let c := c.modify dst_blk fun _ => c.content src_blk
  let c := c.block_write dst_blk
  let c := c.block_release src_blk
  { m with cache := c.block_release dst_blk }

/-- The iteration of the loop of `commit` for `tail`. -/
def install_at (m : LogMem) (tail : Nat) : LogMem :=
  let log_blk := start + tail + 1
  let dst_blk := m.log_hdr.block tail
  let c := m.cache.block_read log_blk
  let c := c.block_read dst_blk
  let c := c.modify dst_blk fun _ => c.content log_blk
  let c := c.block_write dst_blk
  let c := c.block_unpin dst_blk
  let c := c.block_release log_blk
  { m with cache := c.block_release dst_blk }

/-- The iteration of the loop of `recover_from_log` for `tail`. -/
def recover_at (m : LogMem) (tail : Nat) : LogMem :=
  let log_blk := start + tail + 1
  let dst_blk := m.log_hdr.block tail
  let c := m.cache.block_read log_blk
  let c := c.block_read dst_blk
  let c := c.modify dst_blk fun _ => c.content log_blk
  let c := c.block_write dst_blk
  let c := c.block_release log_blk
  { m with cache := c.block_release dst_blk }

/-- The header with no block in it. -/
def clear (m : LogMem) : LogMem := { m with log_hdr := { m.log_hdr with n := 0 } }

/-- Where `commit` is.  Each step writes at most one block. -/
inductive CommitPc
  | enter
  | write_log (tail : Nat)
  | write_head
  | install (tail : Nat)
  | erase
  | finish
  deriving DecidableEq

def commitStep : LogMem × CommitPc → LogMem × CommitPc
  | (m, .enter) => if m.log_hdr.n > 0 then (m, .write_log 0) else (m, .finish)
  | (m, .write_log tail) =>
    if tail < m.log_hdr.n then (write_log_at start m tail, .write_log (tail + 1))
    else (m, .write_head)
  | (m, .write_head) => (write_head start m, .install 0)
  | (m, .install tail) =>
    if tail < m.log_hdr.n then (install_at start m tail, .install (tail + 1))
    else (clear m, .erase)
  | (m, .erase) => (write_head start m, .finish)
  | (m, .finish) => (m, .finish)

/-- Where `recover_from_log` is.  Each step writes at most one block. -/
inductive RecoverPc
  | enter
  | install (tail : Nat)
  | erase
  | finish
  deriving DecidableEq

def recoverStep : LogMem × RecoverPc → LogMem × RecoverPc
  | (m, .enter) => (read_head start m, .install 0)
  | (m, .install tail) =>
    if tail < m.log_hdr.n then (recover_at start m tail, .install (tail + 1))
    else (clear m, .erase)
  | (m, .erase) => (write_head start m, .finish)
  | (m, .finish) => (m, .finish)

/-- The memory of a process that has just started over the image `d`: no block is cached. -/
def boot (d : Disk) : LogMem where
  cache := { disk := d, blocks := fun _ => none }
  log_hdr := { n := 0, block := fun _ => 0 }

/-- `recover_from_log`. -/
def recover_from_log (m : LogMem) : LogMem :=
  let m := read_head start m
  write_head start (clear ((List.range m.log_hdr.n).foldl (recover_at start) m))

/-- The image after a process has started over `d` and `Log::init` has run. -/
def recover (d : Disk) : Disk := (recover_from_log start (boot d)).cache.disk

end Log

/-- Block `b` is a home block of the log of `size` blocks at `start`: its number is a 32-bit word
that names no block of the log. -/
def Home (start size b : Nat) : Prop := b < 2 ^ 32 ∧ (b < start ∨ start + size ≤ b)

instance (start size b : Nat) : Decidable (Home start size b) := by
  unfold Home; infer_instance

end Xv6fs
