import Xv6fs.Fs.ByteArray
import Xv6fs.Fs.Ops
import Xv6fs.Lib.Transition

/-! Requests of `op_read` on one open handle in any order.  A request sets the offset of the handle
and then calls `OFile::read`, which reads at the offset that it finds once it has the lock of the
inode. -/

namespace Xv6fs

open Program (Runs runs_bind runs_pure runs_get runs_modify runs_assert)

variable (sb : SuperBlock)

/-- The first part of `op_read`, up to its assignment of the offset: whether `OFile::read` is
called. -/
def op_read_seek (fh offset : Nat) : Prog Bool := do
  let s ← get
  if offset > (s.inodes (s.files fh).ip).dinode.size.toNat then pure false
  else
    modify_file fh fun f => { f with off := offset }
    pure true

/-- The two parts of `op_read`. -/
theorem op_read_eq (fh : Nat) (buf : Bytes.Source) (size offset : Nat) :
    op_read sb fh buf size offset = (do
      if ← op_read_seek fh offset then
        let (_, buf) ← OFile.read sb fh buf (size % 2 ^ 32)
        pure (to_int size, buf)
      else pure (0, buf)) := by
  funext s
  simp only [op_read, op_read_seek, bind, StateT.bind, Except.bind, get, getThe, MonadStateOf.get,
    StateT.get, pure, Except.pure, modify_file, modify, modifyGet, MonadStateOf.modifyGet]
  split
  · rfl
  · rfl

namespace SharedRead

/-- A request of `op_read`, with the buffer that it gets. -/
structure Request where
  offset : Nat
  size : Nat
  buf : Bytes.Source

/-- Where a request is. -/
inductive Pc
  | start
  | seeked
  | done (buf : Bytes.Source)

/-- The process, and the requests on the handle. -/
structure State where
  fs : Fs
  pc : Nat → Pc

/-- A step of request `k`. -/
inductive Action
  | seek (k : Nat)
  | read (k : Nat)

variable (fh : Nat) (request : Nat → Request)

/-- A step, if the program that it runs does not end with a fault. -/
def step (s : State) : Action → Option State
  | .seek k =>
    match s.pc k, op_read_seek fh (request k).offset s.fs with
    | .start, .ok (true, fs) => some ⟨fs, setAt s.pc k .seeked⟩
    | .start, .ok (false, fs) => some ⟨fs, setAt s.pc k (.done (request k).buf)⟩
    | _, _ => none
  | .read k =>
    match s.pc k, OFile.read sb fh (request k).buf ((request k).size % 2 ^ 32) s.fs with
    | .seeked, .ok ((_, buf), fs) => some ⟨fs, setAt s.pc k (.done buf)⟩
    | _, _ => none

/-- The handle is open for reading on an inode that has been read, that nobody has locked, and that
has no holes. -/
structure Open (s : Fs) : Prop where
  type : (s.files fh).type = .FD_INODE
  readable : (s.files fh).readable = true
  ref : 0 < (s.inodes (s.files fh).ip).ref
  valid : (s.inodes (s.files fh).ip).valid = true
  unlocked : (s.inodes (s.files fh).ip).locked = false
  solid : Solid s.blocks (s.inodes (s.files fh).ip).dinode

/-- The number of bytes that a request at an offset gets. -/
def Request.count (r : Request) (s : Fs) : Nat :=
  min (r.size % 2 ^ 32) ((s.inodes (s.files fh).ip).dinode.size.toNat - r.offset)

/-- The request has placed in its buffer the bytes of the file from its own offset on. -/
def Request.Served (r : Request) (s : Fs) (buf : Bytes.Source) : Prop :=
  ∀ i, buf i = if i < r.count fh s then s.byte (s.files fh).ip (r.offset + i) else r.buf i

/-- Every request that is done has been served from the file as it is in `s0`. -/
def Undisturbed (s0 : Fs) (s : State) : Prop :=
  ∀ k buf, s.pc k = .done buf → (request k).Served fh s0 buf

/-- When `OFile::read` of a request has the lock, the offset of the handle is the request's own. -/
def InPlace (s : State) : Action → Prop
  | .seek _ => True
  | .read k => (s.fs.files fh).off = (request k).offset

instance (s : State) (a : Action) : Decidable (InPlace fh request s a) := by
  cases a <;> (unfold InPlace; infer_instance)

variable {sb : SuperBlock} {fh : Nat} {request : Nat → Request} {s s' s0 : Fs}

/-- The process differs from `s0` in the offset of the handle only. -/
structure Same (fh : Nat) (s0 s : Fs) : Prop where
  blocks : s.blocks = s0.blocks
  inodes : s.inodes = s0.inodes
  handle : s.files fh = { s0.files fh with off := (s.files fh).off }

theorem Same.refl : Same fh s s := ⟨rfl, rfl, rfl⟩

theorem Same.opened (h : Same fh s0 s) (h0 : Open fh s0) : Open fh s := by
  have hip : (s.files fh).ip = (s0.files fh).ip := by rw [h.handle]
  constructor
  · rw [h.handle]; exact h0.type
  · rw [h.handle]; exact h0.readable
  · rw [h.inodes, hip]; exact h0.ref
  · rw [h.inodes, hip]; exact h0.valid
  · rw [h.inodes, hip]; exact h0.unlocked
  · rw [h.blocks, h.inodes, hip]; exact h0.solid

theorem Same.trans {s1 s2 s3 : Fs} (h1 : Same fh s1 s2) (h2 : Same fh s2 s3) :
    Same fh s1 s3 := by
  refine ⟨h2.blocks.trans h1.blocks, h2.inodes.trans h1.inodes, ?_⟩
  rw [h2.handle, h1.handle]

theorem Same.byte (h : Same fh s0 s) (x off : Nat) : s.byte x off = s0.byte x off := by
  rw [Fs.byte, Fs.byte, h.blocks, h.inodes]

theorem seek_same (fh offset : Nat) :
    Runs (op_read_seek fh offset) s (fun r s' => Same fh s s' ∧
      (r = true → (s'.files fh).off = offset) ∧
      (r = false → offset > (s.inodes (s.files fh).ip).dinode.size.toNat)) fun _ => False := by
  simp only [op_read_seek, modify_file, runs_bind, runs_get]
  split
  · next h => exact ⟨.refl, nofun, fun _ => h⟩
  · refine ⟨⟨rfl, rfl, ?_⟩, fun _ => ?_, nofun⟩ <;> simp

/-- `lock` of an inode that has been read and is not locked. -/
theorem lock_valid {x : Nat} {E : Fault → Prop} (href : 0 < (s.inodes x).ref)
    (hvalid : (s.inodes x).valid = true) (hlocked : (s.inodes x).locked = false) :
    Runs (INode.lock sb x) s (fun _ s' => s' = { s with
      trace := .lock x :: s.trace
      inodes := setAt s.inodes x { s.inodes x with locked := true } }) E := by
  simp only [INode.lock, mtx_lock, record, modify_inode, runs_bind, runs_get, runs_assert,
    runs_modify]
  refine ⟨fun _ => ⟨fun _ => ?_, fun h => absurd hlocked h⟩, fun h => absurd href h⟩
  rw [if_neg (by rw [hvalid]; decide)]
  rfl

/-- `OFile::read` delivers the bytes from the offset of the handle on. -/
theorem read_same (sb : SuperBlock) (h : Open fh s) (buf : Bytes.Source) (size : Nat) :
    Runs (OFile.read sb fh buf (size % 2 ^ 32)) s (fun r s' => Same fh s s' ∧
      (⟨(s.files fh).off, size, buf⟩ : Request).Served fh s r.2) fun _ => False := by
  rw [OFile.read]
  simp only [runs_bind, runs_get]
  rw [if_neg (by rw [h.readable]; decide)]
  simp only [h.type]
  refine Runs.bind (lock_valid h.ref h.valid h.unlocked) ?_
  rintro - s1 rfl
  have hsolid : Solid s.blocks
      (setAt s.inodes (s.files fh).ip { s.inodes (s.files fh).ip with locked := true }
        (s.files fh).ip).dinode := by
    rw [setAt_self]
    exact h.solid
  refine Runs.bind (read_solid hsolid _ _) ?_
  rintro ⟨r, buf'⟩ s2 ⟨rfl, hr, hbuf⟩
  simp only [modify_file, INode.unlock, mtx_unlock, record, modify_inode, runs_bind, runs_get,
    runs_assert, runs_modify, runs_pure]
  simp only [setAt_self] at hr hbuf ⊢
  refine ⟨fun _ => ⟨⟨rfl, ?_, by simp only [setAt_self]⟩, fun i => ?_⟩, fun hf => absurd h.ref hf⟩
  · funext y
    by_cases hy : y = (s.files fh).ip
    · subst hy
      simp only [setAt_self]
      have := h.unlocked
      generalize s.inodes (s.files fh).ip = ip at *
      cases ip
      simp_all
    · simp only [setAt_of_ne hy]
  · have hcount : r = (⟨(s.files fh).off, size, buf⟩ : Request).count fh s := by
      rw [hr]
      simp only [Request.count]
      split <;> omega
    rw [hbuf i, hcount, Fs.byte, Fs.byte]
    simp only [setAt_self]

/-- What holds in every run whose reads are in place. -/
structure Inv (fh : Nat) (request : Nat → Request) (s0 : Fs) (s : State) : Prop where
  same : Same fh s0 s.fs
  undisturbed : Undisturbed fh request s0 s

theorem Inv.finish {t : State} {k : Nat} {buf : Bytes.Source} {fs : Fs} (h : Inv fh request s0 t)
    (hs : Same fh s0 fs) (hk : (request k).Served fh s0 buf) :
    Inv fh request s0 ⟨fs, setAt t.pc k (.done buf)⟩ := by
  refine ⟨hs, fun k' buf' hk' => ?_⟩
  dsimp only at hk'
  by_cases hkk : k' = k
  · subst hkk
    rw [setAt_self] at hk'
    cases hk'
    exact hk
  · rw [setAt_of_ne hkk] at hk'
    exact h.undisturbed k' buf' hk'

theorem Inv.step {t t' : State} (h0 : Open fh s0) (h : Inv fh request s0 t) {a : Action}
    (hok : InPlace fh request t a) (hs : step sb fh request t a = some t') :
    Inv fh request s0 t' := by
  have hip : (t.fs.files fh).ip = (s0.files fh).ip := by rw [h.same.handle]
  cases a with
  | seek k =>
    simp only [SharedRead.step] at hs
    split at hs
    · next fs hpc hrun =>
      cases hs
      have hseek := (seek_same fh (request k).offset).of_ok hrun
      refine ⟨h.same.trans hseek.1, fun k' buf hk' => ?_⟩
      dsimp only at hk'
      by_cases hkk : k' = k
      · subst hkk
        rw [setAt_self] at hk'
        cases hk'
      · rw [setAt_of_ne hkk] at hk'
        exact h.undisturbed k' buf hk'
    · next fs hpc hrun =>
      cases hs
      have hseek := (seek_same fh (request k).offset).of_ok hrun
      refine h.finish (h.same.trans hseek.1) fun i => ?_
      have hgt := hseek.2.2 rfl
      rw [h.same.inodes, hip] at hgt
      rw [if_neg]
      simp only [Request.count]
      omega
    · cases hs
  | read k =>
    simp only [SharedRead.step] at hs
    split at hs
    · next r buf fs hpc hrun =>
      cases hs
      have hread := (read_same sb (h.same.opened h0) (request k).buf (request k).size).of_ok hrun
      refine h.finish (h.same.trans hread.1) fun i => ?_
      have hi := hread.2 i
      rw [show (t.fs.files fh).off = (request k).offset from hok] at hi
      simp only [Request.count, h.same.inodes, hip, h.same.byte] at hi ⊢
      exact hi
    · cases hs

/-- In every run whose reads are in place, every request that is done has got the bytes of the file
from its own offset on, and no request that is not done is stuck. -/
theorem shared_reads_undisturbed (h0 : Open fh s0) {t : State}
    (h : Transition.Reach (fun t => t.fs = s0 ∧ ∀ k, t.pc k = .start) (step sb fh request)
      (InPlace fh request) t) :
    Undisturbed fh request s0 t ∧
      ∀ k, (t.pc k = .start → (step sb fh request t (.seek k)).isSome) ∧
        (t.pc k = .seeked → (step sb fh request t (.read k)).isSome) := by
  have hinv : Inv fh request s0 t := by
    refine h.invariant (Inv fh request s0) ?_ fun t a t' ht hok hs => ht.step h0 hok hs
    rintro t ⟨rfl, hpc⟩
    refine ⟨.refl, fun k buf hk => ?_⟩
    rw [hpc k] at hk
    cases hk
  refine ⟨hinv.undisturbed, fun k => ⟨fun hk => ?_, fun hk => ?_⟩⟩
  · have hseek := seek_same (s := t.fs) fh (request k).offset
    simp only [Runs] at hseek
    simp only [step, hk]
    split at hseek
    · next r fs hrun =>
      rw [hrun]
      cases r <;> rfl
    · exact hseek.elim
  · have hread := read_same sb (hinv.same.opened h0) (request k).buf (request k).size
    simp only [Runs] at hread
    simp only [step, hk]
    split at hread
    · next r fs hrun =>
      rw [hrun]
      rfl
    · exact hread.elim

/-! A file of three bytes, open once. -/

def abcFs : Fs where
  blocks := setAt (fun _ => Bytes.Buffer.zero BSIZE) 34
    ((Bytes.Buffer.zero BSIZE).put 0 3 fun i => 97 + UInt8.ofNat i)
  outstanding := 0
  log := []
  inodes := setAt (fun _ => .absent) 1
    ⟨1, false, true, { DiskINode.zero with
      type := FileType.T_FILE, nlink := 1, size := 3, addrs := fun i => if i = 0 then 34 else 0 }⟩
  files := setAt (fun _ => .none) 0 ⟨.FD_INODE, 1, 0, 0, true, false, 1⟩
  trace := []

/-- Requests for the first byte and for the second. -/
def twoRequests (k : Nat) : Request := ⟨if k = 0 then 0 else 1, 1, fun _ => 0⟩

theorem abcFs_open : Open 0 abcFs := by
  refine ⟨rfl, rfl, by decide, rfl, rfl, ⟨by decide, fun n hn => ?_⟩⟩
  have hsize : (abcFs.inodes (abcFs.files 0).ip).dinode.size.toNat = 3 := rfl
  rw [hsize] at hn
  have hn : n = 0 := by
    simp only [BSIZE] at hn
    omega
  subst hn
  decide

/-- Request `k` is done, and has got the byte `v` first. -/
def State.got (t : State) (k : Nat) (v : UInt8) : Bool :=
  match t.pc k with
  | .done buf => buf 0 = v
  | _ => false

/-- Requests that run one after the other. -/
theorem shared_reads_undisturbed_two : ∃ t, Undisturbed 0 twoRequests abcFs t ∧
    (t.got 0 97 && t.got 1 98) = true := by
  have hstart : Transition.Reach (fun t => t.fs = abcFs ∧ ∀ k, t.pc k = .start)
      (step smallSb 0 twoRequests) (InPlace 0 twoRequests) ⟨abcFs, fun _ => .start⟩ :=
    .start ⟨rfl, fun _ => rfl⟩
  obtain ⟨t, ht, hgot⟩ := hstart.of_run [.seek 0, .read 0, .seek 1, .read 1]
    (p := fun t => t.got 0 97 && t.got 1 98) (by decide +kernel)
  exact ⟨t, (shared_reads_undisturbed abcFs_open ht).1, hgot⟩

/-- A request whose offset is overwritten before it reads gets other bytes. -/
theorem shared_reads_disturbed : ∃ t, Transition.Reach (fun t => t.fs = abcFs ∧ ∀ k, t.pc k = .start)
    (step smallSb 0 twoRequests) (fun _ _ => True) t ∧ t.got 0 98 = true ∧
    ¬Undisturbed 0 twoRequests abcFs t := by
  have hstart : Transition.Reach (fun t => t.fs = abcFs ∧ ∀ k, t.pc k = .start)
      (step smallSb 0 twoRequests) (fun _ _ => True) ⟨abcFs, fun _ => .start⟩ :=
    .start ⟨rfl, fun _ => rfl⟩
  obtain ⟨t, ht, hgot⟩ := hstart.of_run [.seek 0, .seek 1, .read 0]
    (p := fun t => t.got 0 98) (by decide +kernel)
  refine ⟨t, ht, hgot, fun h => ?_⟩
  unfold State.got at hgot
  split at hgot
  · next buf hpc =>
    have h0 := h 0 buf hpc 0
    have hbyte : buf 0 = 98 := of_decide_eq_true hgot
    rw [hbyte] at h0
    revert h0
    decide +kernel
  · cases hgot

end SharedRead

end Xv6fs
