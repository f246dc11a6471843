import Xv6fs.Log.Recovery
import Xv6fs.Lib.Transition

/-! Operations, commits and flushes that run over one log in any order.  An operation calls
`begin_op`, then modifies blocks, each under the block's lock and followed by `log_write` before the
lock is released, then calls `end_op`, which runs `commit` step by step when it ends the last
outstanding operation.  `op_flush` runs `write_log` and `write_head` outside of any operation. -/

namespace Xv6fs.Log

open Function (update update_self update_of_ne)

/-- Where an operation is. -/
inductive OpPc
  | idle
  | running
  | commit (pc : CommitPc)
  | done
  deriving DecidableEq

/-- The operation has called `end_op`. -/
def OpPc.ended : OpPc → Bool
  | .idle | .running => false
  | .commit _ | .done => true

/-- Where the `write_log` and `write_head` of a call of `op_flush` are. -/
inductive FlushPc
  | write_log (tail : Nat)
  | write_head
  | done
  deriving DecidableEq

/-- What the operations have done: the modifications in their order, the blocks that each operation
has logged, the blocks logged since the last commit, and the operations whose commit has
returned. -/
structure History where
  writes : List (Nat × Nat × (BlockData → BlockData))
  logged : Nat → Finset Nat
  group : Finset Nat
  returned : Nat → Bool

/-- The log, the operations and the flushes.  `held` pairs each locked block with the operation that
modifies it. -/
structure Machine where
  mem : LogMem
  outstanding : Nat
  committing : Bool
  op : Nat → OpPc
  held : List (Nat × Nat)
  flush : Nat → FlushPc
  hist : History

/-- A step of operation `i` or of flush `j`. -/
inductive Action
  | begin_op (i : Nat)
  | write (i b : Nat) (f : BlockData → BlockData)
  | log_write (i b : Nat)
  | end_op (i : Nat)
  | commit (i : Nat)
  | flush (j : Nat)

/-- `log_write` puts block `b` in the header, and pins it the first time. -/
def log_write (m : LogMem) (b : Nat) : LogMem :=
  let i := m.log_hdr.index b
  let hdr := { m.log_hdr with block := update m.log_hdr.block i b }
  if i = m.log_hdr.n then { cache := m.cache.block_pin b, log_hdr := { hdr with n := hdr.n + 1 } }
  else { m with log_hdr := hdr }

namespace Machine

variable (start size : Nat) (s : Machine)

/-- `begin_op` does not wait. -/
def Admits : Prop :=
  s.committing = false ∧ ¬s.mem.log_hdr.n + (s.outstanding + 1) * MAX_OP_BLOCKS > LOG_SIZE

/-- The assertions of `log_write`. -/
def LogWriteOk : Prop :=
  (s.mem.log_hdr.n < LOG_SIZE ∧ s.mem.log_hdr.n < size - 1) ∧ s.outstanding ≥ 1

/-- No operation holds the lock of block `b`. -/
def Unlocked (b : Nat) : Prop := ∀ p ∈ s.held, p.1 ≠ b

instance : Decidable s.Admits := by unfold Admits; infer_instance

instance : Decidable (s.LogWriteOk size) := by unfold LogWriteOk; infer_instance

instance (b : Nat) : Decidable (s.Unlocked b) := by unfold Unlocked; infer_instance

/-- The home block that the step of `commit` at `pc` locks is not locked. -/
def CommitFree : CommitPc → Prop
  | .write_log t | .install t => t < s.mem.log_hdr.n → s.Unlocked (s.mem.log_hdr.block t)
  | _ => True

instance (pc : CommitPc) : Decidable (s.CommitFree pc) := by
  cases pc <;> (unfold CommitFree; infer_instance)

/-- The step of operation `i`, in `end_op`, at `pc` of its `commit` or after it. -/
def commitOp (i : Nat) : CommitPc → Machine
  | .finish => { s with
      committing := false
      op := update s.op i .done
      hist := { s.hist with returned := fun k => (s.op k).ended, group := ∅ } }
  | pc =>
    let next := commitStep start (s.mem, pc)
    { s with mem := next.1, op := update s.op i (.commit next.2) }

/-- The step of flush `j`.  Each iteration of its loop reads the header anew. -/
def flushOp (j : Nat) : Option Machine :=
  match s.flush j with
  | .write_log t =>
    if t < s.mem.log_hdr.n then
      if s.Unlocked (s.mem.log_hdr.block t) then
        some { s with mem := write_log_at start s.mem t,
                      flush := update s.flush j (.write_log (t + 1)) }
      else none
    else some { s with flush := update s.flush j .write_head }
  | .write_head =>
    some { s with mem := write_head start s.mem, flush := update s.flush j .done }
  | .done => none

/-- A step of the system.  A step that waits cannot be taken, and neither can one that fails an
assertion, which ends the process where it is. -/
def step : Action → Option Machine
  | .begin_op i =>
    if s.op i = .idle ∧ s.Admits then
      some { s with outstanding := s.outstanding + 1, op := update s.op i .running }
    else none
  | .write i b f =>
    if s.op i = .running ∧ Home start size b ∧ s.Unlocked b then
      some { s with
        mem := { s.mem with cache := (s.mem.cache.block_read b).modify b f }
        held := (b, i) :: s.held
        hist := { s.hist with writes := s.hist.writes ++ [(i, b, f)] } }
    else none
  | .log_write i b =>
    if s.op i = .running ∧ (b, i) ∈ s.held ∧ s.LogWriteOk size then
      let mem := log_write s.mem b
      some { s with
        mem := { mem with cache := mem.cache.block_release b }
        held := s.held.erase (b, i)
        hist := { s.hist with
          logged := update s.hist.logged i (insert b (s.hist.logged i))
          group := insert b s.hist.group } }
    else none
  | .end_op i =>
    if s.op i = .running ∧ (∀ p ∈ s.held, p.2 ≠ i) ∧ s.committing = false then
      if s.outstanding - 1 = 0 then
        some { s with outstanding := s.outstanding - 1, committing := true,
                      op := update s.op i (.commit .enter) }
      else
        some { s with outstanding := s.outstanding - 1, op := update s.op i .done }
    else none
  | .commit i =>
    match s.op i with
    | .commit pc => if s.CommitFree pc then some (s.commitOp start i pc) else none
    | _ => none
  | .flush j => s.flushOp start j

/-- The system over the image `d` when no operation has begun, with an empty log. -/
def boot (d : Disk) : Machine where
  mem := Log.boot d
  outstanding := 0
  committing := false
  op _ := .idle
  held := []
  flush _ := .write_log 0
  hist := { writes := [], logged := fun _ => ∅, group := ∅, returned := fun _ => false }

/-- The system when it starts: over any image whose log is empty, as `Log::init` leaves it. -/
def Init : Machine → Prop := fun s => ∃ d : Disk, ((d start).get32 0).toNat = 0 ∧ s = boot d

end Machine

end Xv6fs.Log
