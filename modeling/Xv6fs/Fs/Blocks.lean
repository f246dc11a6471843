import Xv6fs.Fs.State

/-! Transactions and the allocation of blocks: `begin_op`, `end_op` and `log_write` of `Log.cxx` for
operations that run one after another, and the first part of `fs.cxx`. -/

namespace Xv6fs

open Program (assert)

/-- Adds an event to the trace. -/
def record (e : Event) : Prog PUnit := modify fun s => { s with trace := e :: s.trace }

/-- In-place modification of the data of a block. -/
def modify_block (b : Nat) (f : BlockData → BlockData) : Prog PUnit :=
  modify fun s => { s with blocks := setAt s.blocks b (f (s.blocks b)) }

namespace Fs

/-- `begin_op`.  Nothing commits between two operations, so to wait is to wait forever. -/
def begin_op : Prog PUnit := do
  let s ← get
  assert (¬s.log.length + (s.outstanding + 1) * MAX_OP_BLOCKS > LOG_SIZE) .begin_op_waits
  record .begin_op
  modify fun s => { s with outstanding := s.outstanding + 1 }

/-- `end_op`.  The end of the last outstanding operation commits, which leaves the log empty and the
content of every block as it is. -/
def end_op : Prog PUnit := do
  record .end_op
  modify fun s => { s with
    outstanding := s.outstanding - 1
    log := if s.outstanding - 1 = 0 then [] else s.log }

end Fs

variable (sb : SuperBlock)

/-- `log_write` of block `b`. -/
def Fs.log_write (b : Nat) : Prog PUnit := do
  let s ← get
  assert (s.log.length < LOG_SIZE ∧ s.log.length < sb.nlog - 1) .log_write_too_big
  assert (s.outstanding ≥ 1) .log_write_outside
  record (.log_write b)
  modify fun s => { s with log := if b ∈ s.log then s.log else s.log ++ [b] }

def block_zeroed (bno : Nat) : Prog PUnit := do
  modify_block bno fun _ => Bytes.Buffer.zero BSIZE
  Fs.log_write sb bno

/-- The mask of bit `bi` in its byte. -/
def bit_mask (bi : Nat) : UInt8 := 1 <<< UInt8.ofNat (bi % 8)

/-- Bit `bi` of a bitmap block. -/
def bit_set (d : BlockData) (bi : Nat) : Bool := d.get (bi / 8) &&& bit_mask bi != 0

/-- The first of the `fuel` bits from `bi` on that is clear, among those below `limit`. -/
def first_clear (d : BlockData) (limit : Nat) : (fuel bi : Nat) → Option Nat
  | 0, _ => none
  | fuel + 1, bi =>
    if bi < limit then
      if bit_set d bi then first_clear d limit fuel (bi + 1) else some bi
    else none

/-- The loop of `block_alloc` over the blocks of the bitmap, from that of block `b` on. -/
def block_alloc_from : (fuel b : Nat) → Prog Nat
  | 0, _ => pure 0
  | fuel + 1, b => do
    if b < sb.size then
      let s ← get
      match first_clear (s.blocks (BIT_BLOCK sb b)) (sb.size - b) BIT_PER_BLOCK 0 with
      | some bi =>
        modify_block (BIT_BLOCK sb b) fun d =>
          d.put (bi / 8) 1 fun _ => d.get (bi / 8) ||| bit_mask bi
        Fs.log_write sb (BIT_BLOCK sb b)
        block_zeroed sb (b + bi)
        pure (b + bi)
      | none => block_alloc_from fuel (b + BIT_PER_BLOCK)
    else pure 0

/-- `block_alloc`: the number of a free block, now in use and zeroed, or `0`. -/
def block_alloc : Prog Nat := block_alloc_from sb sb.size 0

def block_free (b : Nat) : Prog PUnit := do
  let bi := b % BIT_PER_BLOCK
  let s ← get
  assert (bit_set (s.blocks (BIT_BLOCK sb b)) bi = true) .freeing_free_block
  modify_block (BIT_BLOCK sb b) fun d =>
    d.put (bi / 8) 1 fun _ => d.get (bi / 8) &&& ~~~bit_mask bi
  Fs.log_write sb (BIT_BLOCK sb b)

end Xv6fs
