import Xv6fs.Fs.Abstract
import Xv6fs.Fs.ByteArray

/-! The invariant of the process between the steps of an operation, the abstract state that it
stands for, and the steps that touch the inode cache only. -/

namespace Xv6fs

open Program (Runs runs_bind runs_pure runs_get runs_modify runs_assert runs_throw runs_ite)

/-- The entries of a directory. -/
def entriesAt (blocks : Nat → BlockData) (dip : DiskINode) : List DirEntry :=
  (List.range (dip.size.toNat / DIRENT_SIZE)).map fun i =>
    .load fun j => fbyte blocks dip (i * DIRENT_SIZE + j)

/-- What an inode on disk is above its blocks. -/
def nodeAt (blocks : Nat → BlockData) (dip : DiskINode) : Node :=
  if dip.type = FileType.T_DIR then
    ⟨dip.type, dip.nlink, entriesAt blocks dip, 0, slot blocks dip, fun _ => 0⟩
  else if dip.type = FileType.Invalid then .empty dip.type dip.nlink
  else ⟨dip.type, dip.nlink, [], dip.size.toNat, slot blocks dip, fbyte blocks dip⟩

/-- What is on disk is in order: blocks have one owner, and directories have no holes and name
inodes that there are. -/
structure Tidy (sb : SuperBlock) (blocks : Nat → BlockData) : Prop where
  owned : Owned sb (dinodeAt sb blocks) blocks fun _ => False
  solid : ∀ x < sb.ninodes, (dinodeAt sb blocks x).type = FileType.T_DIR →
    Solid blocks (dinodeAt sb blocks x)
  aligned : ∀ x < sb.ninodes, (dinodeAt sb blocks x).type = FileType.T_DIR →
    (dinodeAt sb blocks x).size.toNat % DIRENT_SIZE = 0
  inums : ∀ x < sb.ninodes, (dinodeAt sb blocks x).type = FileType.T_DIR →
    ∀ e ∈ entriesAt blocks (dinodeAt sb blocks x), e.inum.toNat < sb.ninodes

/-- What is in the cache for inode `x` is in order: an inode that has been read is as on disk, but
for the links of a file. -/
structure Cached (sb : SuperBlock) (blocks : Nat → BlockData) (x : Nat) (ip : INode) : Prop where
  absent : ip.ref = 0 → ip = .absent
  lt : 0 < ip.ref → x < sb.ninodes
  unread : ip.valid = false → ip.dinode = .zero
  synced : ip.valid = true →
    ip.dinode = { dinodeAt sb blocks x with nlink := ip.dinode.nlink }
  alloc : ip.valid = true → (dinodeAt sb blocks x).type ≠ FileType.Invalid
  links : ip.valid = true → (dinodeAt sb blocks x).type = FileType.T_DIR →
    ip.dinode.nlink = (dinodeAt sb blocks x).nlink

/-- The state of the process is in order. -/
structure Wf (sb : SuperBlock) (s : Fs) : Prop where
  tidy : Tidy sb s.blocks
  cached : ∀ x, Cached sb s.blocks x (s.inodes x)

/-- The abstract state of the process. -/
def Fs.abs (sb : SuperBlock) (s : Fs) : AbsFs where
  node x := if x < sb.ninodes then nodeAt s.blocks (s.dinode sb x) else .free
  ref x := (s.inodes x).ref
  mem x := if (s.inodes x).valid then some (s.inodes x).dinode.nlink else none
  files := s.files
  outstanding := s.outstanding

/-- A fault that is neither a `log_write` outside of a transaction nor a block number out of
range. -/
def Benign (e : Fault) : Prop := e ≠ .log_write_outside ∧ e ≠ .bmap_out_of_range

theorem TooBig.benign {e : Fault} (h : TooBig e) : Benign e := by
  rw [TooBig] at h
  subst h
  exact ⟨by decide, by decide⟩

/-- A run of `m` from `s` keeps the state in order and establishes `Q`, unless it ends with a benign
fault. -/
def Does (sb : SuperBlock) {α : Type} (m : Prog α) (s : Fs) (Q : α → Fs → Prop) : Prop :=
  Runs m s (fun a s' => Wf sb s' ∧ Q a s') Benign

variable {sb : SuperBlock} {s s' : Fs} {x y : Nat} {α β : Type} {m : Prog α} {f : α → Prog β}
  {Q Q' : α → Fs → Prop} {R : β → Fs → Prop}

namespace Does

theorem bind (h : Does sb m s Q) (hf : ∀ a s', Wf sb s' → Q a s' → Does sb (f a) s' R) :
    Does sb (m >>= f) s R :=
  Runs.bind h fun a s' hs' => hf a s' hs'.1 hs'.2

theorem imp (h : Does sb m s Q) (hQ : ∀ a s', Wf sb s' → Q a s' → Q' a s') : Does sb m s Q' :=
  Runs.imp h fun a s' hs' => ⟨hs'.1, hQ a s' hs'.1 hs'.2⟩

theorem pure {a : α} (h : Wf sb s) (hQ : Q a s) : Does sb (pure a) s Q := ⟨h, hQ⟩

theorem throw {e : Fault} (he : Benign e) : Does sb (throw e : Prog α) s Q := he

theorem get_bind {f : Fs → Prog β} (h : Does sb (f s) s R) : Does sb (get >>= f) s R := by
  rw [Does, runs_bind, runs_get]
  exact h

theorem assert_bind {p : Prop} [Decidable p] {e : Fault} {f : PUnit → Prog β} (he : Benign e)
    (h : p → Does sb (f ⟨⟩) s R) : Does sb (Program.assert p e >>= f) s R := by
  rw [Does, runs_bind, runs_assert]
  exact ⟨h, fun _ => he⟩

theorem ite {p : Prop} [Decidable p] {m' : Prog α} (h : p → Does sb m s Q)
    (h' : ¬p → Does sb m' s Q) : Does sb (if p then m else m') s Q := by
  split
  · exact h ‹_›
  · exact h' ‹_›

end Does

/-- The abstract state is now `a`, and the blocks are as they were. -/
structure Reads (sb : SuperBlock) (s s' : Fs) (a : AbsFs) : Prop where
  abs : s'.abs sb = a
  blocks : s'.blocks = s.blocks

/-! ### The abstract state of a state in order -/

theorem Wf.absent (h : Wf sb s) (hx : (s.inodes x).ref = 0) : s.inodes x = .absent :=
  (h.cached x).absent hx

theorem Wf.valid_ref (h : Wf sb s) (hx : (s.inodes x).valid = true) : 0 < (s.inodes x).ref := by
  refine Nat.pos_of_ne_zero fun h0 => ?_
  rw [h.absent h0] at hx
  cases hx

theorem Wf.valid_lt (h : Wf sb s) (hx : (s.inodes x).valid = true) : x < sb.ninodes :=
  (h.cached x).lt (h.valid_ref hx)

theorem nodeAt_type (blocks : Nat → BlockData) (dip : DiskINode) :
    (nodeAt blocks dip).type = dip.type := by
  unfold nodeAt
  split
  · rfl
  · split <;> rfl

theorem nodeAt_nlink (blocks : Nat → BlockData) (dip : DiskINode) :
    (nodeAt blocks dip).nlink = dip.nlink := by
  unfold nodeAt
  split
  · rfl
  · split <;> rfl

theorem abs_node (hx : x < sb.ninodes) :
    (s.abs sb).node x = nodeAt s.blocks (s.dinode sb x) := if_pos hx

theorem abs_type (hx : x < sb.ninodes) : ((s.abs sb).node x).type = (s.dinode sb x).type := by
  rw [abs_node hx, nodeAt_type]

theorem abs_nlink (hx : x < sb.ninodes) : ((s.abs sb).node x).nlink = (s.dinode sb x).nlink := by
  rw [abs_node hx, nodeAt_nlink]

theorem abs_mem_valid (sb : SuperBlock) (hx : (s.inodes x).valid = true) :
    (s.abs sb).mem x = some (s.inodes x).dinode.nlink := if_pos hx

theorem valid_of_mem {n : UInt16} (hx : (s.abs sb).mem x = some n) :
    (s.inodes x).valid = true ∧ (s.inodes x).dinode.nlink = n := by
  simp only [Fs.abs] at hx
  split at hx
  · exact ⟨‹_›, Option.some.inj hx⟩
  · cases hx

theorem Wf.normal (h : Wf sb s) : (s.abs sb).Normal where
  alloc x n hx := by
    obtain ⟨hv, -⟩ := valid_of_mem hx
    rw [AbsFs.Alloc, abs_type (h.valid_lt hv)]
    exact (h.cached x).alloc hv
  ref x n hx := h.valid_ref (valid_of_mem hx).1

/-- The type of an inode that has been read. -/
theorem Wf.type_eq (h : Wf sb s) (hx : (s.inodes x).valid = true) :
    (s.inodes x).dinode.type = ((s.abs sb).node x).type := by
  rw [abs_type (h.valid_lt hx), (h.cached x).synced hx]
  rfl

/-- A type that is not `Invalid` is that of an inode that has been read. -/
theorem Wf.valid_of_type (h : Wf sb s) (hx : (s.inodes x).dinode.type ≠ FileType.Invalid) :
    (s.inodes x).valid = true := by
  cases hv : (s.inodes x).valid with
  | true => rfl
  | false =>
    rw [(h.cached x).unread hv] at hx
    exact absurd rfl hx

theorem Wf.dir_valid (h : Wf sb s) (hx : (s.inodes x).dinode.type = FileType.T_DIR) :
    (s.inodes x).valid = true ∧ ((s.abs sb).node x).type = FileType.T_DIR := by
  have hv := h.valid_of_type (by rw [hx]; decide)
  exact ⟨hv, by rw [← h.type_eq hv, hx]⟩

/-! ### Steps in the cache -/

/-- A state that differs in what the invariant does not mention. -/
theorem Wf.congr (h : Wf sb s) (hblocks : s'.blocks = s.blocks) (hinodes : s'.inodes = s.inodes) :
    Wf sb s' where
  tidy := hblocks ▸ h.tidy
  cached y := by rw [hblocks, hinodes]; exact h.cached y

theorem Wf.record (h : Wf sb s) (e : Event) :
    Does sb (record e) s fun _ s' => Reads sb s s' (s.abs sb) :=
  ⟨h.congr rfl rfl, rfl, rfl⟩

theorem Wf.begin_op (h : Wf sb s) :
    Does sb Fs.begin_op s fun _ s' =>
      Reads sb s s' { s.abs sb with outstanding := s.outstanding + 1 } := by
  simp only [Does, Fs.begin_op, Xv6fs.record, runs_bind, runs_get, runs_assert, runs_modify]
  exact ⟨fun _ => ⟨h.congr rfl rfl, rfl, rfl⟩, fun _ => ⟨by decide, by decide⟩⟩

theorem Wf.end_op (h : Wf sb s) :
    Does sb Fs.end_op s fun _ s' =>
      Reads sb s s' { s.abs sb with outstanding := s.outstanding - 1 } := by
  simp only [Does, Fs.end_op, Xv6fs.record, runs_bind, runs_modify]
  exact ⟨h.congr rfl rfl, rfl, rfl⟩

/-- A change of the cache at `x` only. -/
theorem Wf.set_inode (h : Wf sb s) (ip : INode) (s' : Fs) {a : AbsFs} (hx : Cached sb s.blocks x ip)
    (hblocks : s'.blocks = s.blocks) (hinodes : s'.inodes = setAt s.inodes x ip)
    (hfiles : s'.files = s.files) (hout : s'.outstanding = s.outstanding)
    (ha : a = { s.abs sb with
      ref := setAt (s.abs sb).ref x ip.ref
      mem := setAt (s.abs sb).mem x (if ip.valid then some ip.dinode.nlink else none) }) :
    Wf sb s' ∧ Reads sb s s' a := by
  refine ⟨⟨hblocks ▸ h.tidy, fun y => ?_⟩, ?_, hblocks⟩
  · rw [hblocks, hinodes, setAt_apply]
    split
    · next hyx => exact hyx ▸ hx
    · exact h.cached y
  · subst ha
    refine AbsFs.ext ?_ ?_ ?_ hfiles hout
    · funext y
      simp only [Fs.abs, Fs.dinode_eq, hblocks]
    · funext y
      simp only [Fs.abs, hinodes, setAt_apply]
      split <;> rfl
    · funext y
      simp only [Fs.abs, hinodes, setAt_apply]
      split <;> rfl

theorem Wf.inode_get (h : Wf sb s) (hx : x < sb.ninodes) :
    Does sb (inode_get x) s fun _ s' => Reads sb s s' ((s.abs sb).get x) := by
  have hc := h.cached x
  refine h.set_inode (x := x) { s.inodes x with ref := (s.inodes x).ref + 1 } _ ?_ rfl rfl rfl rfl
    (AbsFs.ext rfl rfl (setAt_same (x := x) _).symm rfl rfl)
  exact {
    absent := fun h0 => absurd h0 (Nat.succ_ne_zero _)
    lt := fun _ => hx
    unread := hc.unread
    synced := hc.synced
    alloc := hc.alloc
    links := hc.links }

theorem Wf.set_locked (h : Wf sb s) (hx : 0 < (s.inodes x).ref) (b : Bool) (s' : Fs)
    (hblocks : s'.blocks = s.blocks)
    (hinodes : s'.inodes = setAt s.inodes x { s.inodes x with locked := b })
    (hfiles : s'.files = s.files) (hout : s'.outstanding = s.outstanding) :
    Wf sb s' ∧ Reads sb s s' (s.abs sb) := by
  have hc := h.cached x
  refine h.set_inode { s.inodes x with locked := b } s' ?_ hblocks hinodes hfiles hout
    (AbsFs.ext rfl (setAt_same (x := x) _).symm (setAt_same (x := x) _).symm rfl rfl)
  exact {
    absent := fun h0 => absurd h0 (Nat.ne_of_gt hx)
    lt := hc.lt
    unread := hc.unread
    synced := hc.synced
    alloc := hc.alloc
    links := hc.links }

theorem Wf.unlock (h : Wf sb s) (x : Nat) :
    Does sb (INode.unlock x) s fun _ s' => Reads sb s s' (s.abs sb) := by
  refine Does.get_bind (Does.assert_bind ⟨by decide, by decide⟩ fun hx => ?_)
  exact h.set_locked hx false _ rfl rfl rfl rfl

/-- `lock` reads the inode. -/
theorem Wf.lock (h : Wf sb s) (x : Nat) :
    Does sb (INode.lock sb x) s fun _ s' =>
      Reads sb s s' ((s.abs sb).load x) ∧ (s'.inodes x).valid = true ∧ 0 < (s.inodes x).ref := by
  simp only [INode.lock, mtx_lock, modify_inode, Xv6fs.record]
  refine Does.get_bind (Does.assert_bind ⟨by decide, by decide⟩ fun hx => ?_)
  simp only [Does, runs_bind, runs_get, runs_assert, runs_modify]
  refine ⟨fun _ => ?_, fun _ => ⟨by decide, by decide⟩⟩
  have hc := h.cached x
  have hlt := hc.lt hx
  split
  · next hv =>
    simp only [runs_bind, runs_modify, runs_assert]
    refine ⟨fun ht => ?_, fun _ => ⟨by decide, by decide⟩⟩
    have hinodes : setAt (setAt s.inodes x { s.inodes x with locked := true }) x
        ⟨(s.inodes x).ref, true, true, s.dinode sb x⟩ =
        setAt s.inodes x ⟨(s.inodes x).ref, true, true, s.dinode sb x⟩ := by
      funext y
      simp only [setAt_apply]
      split <;> rfl
    simp only [hinodes, setAt_self]
    have hmem : (s.abs sb).mem x = none := by simp [Fs.abs, hv]
    have hnew : Cached sb s.blocks x ⟨(s.inodes x).ref, true, true, s.dinode sb x⟩ := {
      absent := fun h0 => absurd h0 (Nat.ne_of_gt hx)
      lt := fun _ => hlt
      unread := fun hf => Bool.noConfusion hf
      synced := fun _ => rfl
      alloc := fun _ => ht
      links := fun _ _ => rfl }
    obtain ⟨hwf, hr⟩ := h.set_inode _
      { s with
        trace := Event.lock x :: s.trace
        inodes := setAt s.inodes x ⟨(s.inodes x).ref, true, true, s.dinode sb x⟩ }
      hnew (a := (s.abs sb).load x) rfl rfl rfl rfl (AbsFs.ext rfl (setAt_same (x := x) _).symm (by
        simp only [AbsFs.load, AbsFs.links, hmem, Option.getD_none, abs_nlink hlt]
        rfl) rfl rfl)
    exact ⟨hwf, hr, trivial, hx⟩
  · next hv =>
    have hv : (s.inodes x).valid = true := by simpa using hv
    rw [runs_pure]
    obtain ⟨hwf, hr⟩ := h.set_locked hx true
      { s with
        trace := Event.lock x :: s.trace
        inodes := setAt s.inodes x { s.inodes x with locked := true } } rfl rfl rfl rfl
    refine ⟨hwf, ⟨hr.abs.trans (AbsFs.ext rfl rfl ?_ rfl rfl), rfl⟩, ?_, hx⟩
    · have hmem := abs_mem_valid sb hv
      simp only [AbsFs.load, AbsFs.links, hmem, Option.getD_some]
      rw [← hmem]
      exact (setAt_same (x := x) _).symm
    · simp only [setAt_self]
      exact hv

/-- The end of a reference that frees nothing. -/
theorem Wf.inode_drop (h : Wf sb s) (x : Nat) :
    Does sb (inode_drop x) s fun _ s' => Reads sb s s' ((s.abs sb).drop x) := by
  have hc := h.cached x
  have hnew : Cached sb s.blocks x (if (s.inodes x).ref - 1 = 0 then INode.absent
      else { s.inodes x with ref := (s.inodes x).ref - 1 }) := by
    split
    · exact ⟨fun _ => rfl, fun h0 => absurd h0 (Nat.lt_irrefl 0), fun _ => rfl,
        fun hf => Bool.noConfusion hf, fun hf => Bool.noConfusion hf, fun hf => Bool.noConfusion hf⟩
    · next h1 => exact ⟨fun h0 => absurd h0 h1, fun _ => hc.lt (by omega), hc.unread, hc.synced,
        hc.alloc, hc.links⟩
  refine h.set_inode _ _ hnew rfl rfl rfl rfl (AbsFs.ext rfl ?_ ?_ rfl rfl)
  · simp only [AbsFs.drop]
    congr 1
    split
    · next h1 => exact h1
    · rfl
  · simp only [AbsFs.drop]
    congr 1
    by_cases h1 : (s.inodes x).ref - 1 = 0
    · rw [if_pos h1, if_pos (show (s.abs sb).ref x - 1 = 0 from h1)]
      rfl
    · rw [if_neg h1, if_neg (show ¬(s.abs sb).ref x - 1 = 0 from h1)]
      rfl

/-- The links of a file that has been read change in memory. -/
theorem Wf.modify_links (h : Wf sb s) (hx : (s.inodes x).valid = true)
    (htype : (s.inodes x).dinode.type ≠ FileType.T_DIR) (n : UInt16) :
    Does sb (modify_dinode x fun dip => { dip with nlink := n }) s fun _ s' =>
      Reads sb s s' ((s.abs sb).setMem x n) := by
  have hc := h.cached x
  refine h.set_inode { s.inodes x with dinode := { (s.inodes x).dinode with nlink := n } } _ ?_
    rfl rfl rfl rfl (AbsFs.ext rfl (setAt_same (x := x) _).symm ?_ rfl rfl)
  · exact {
      absent := fun h0 => absurd h0 (Nat.ne_of_gt (h.valid_ref hx))
      lt := hc.lt
      unread := fun hf => absurd (hx.symm.trans hf) (by decide)
      synced := fun hv => congrArg (fun dip : DiskINode => { dip with nlink := n }) (hc.synced hv)
      alloc := hc.alloc
      links := fun hv ht => absurd ((congrArg DiskINode.type (hc.synced hv)).trans ht) htype }
  · simp only [AbsFs.setMem, hx, if_true]

end Xv6fs
