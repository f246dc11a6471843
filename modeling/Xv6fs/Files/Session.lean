import Xv6fs.Files.Writing
import Xv6fs.Fs.Check

/-! A handle that `do_open` returns, through any reads and writes on it. -/

namespace Xv6fs

open Program (Runs runs_bind runs_pure runs_get runs_modify runs_assert runs_throw runs_ite)
open SharedRead (lock_valid)

variable {sb : SuperBlock} {s s' s1 s2 : Fs} {x i off t : Nat} {buf : Bytes.Source} {α : Type}

/-! ### Opening -/

/-- The inode of the handle is not locked, and the log is empty when no operation is in progress. -/
structure Calm (i : Nat) (s : Fs) : Prop where
  unlocked : (s.inodes (s.files i).ip).locked = false
  log : s.outstanding = 0 → s.log = []

/-- The end of `do_open`. -/
theorem unlock_end_op (x : Nat) (r : α) :
    Runs (do INode.unlock x; Fs.end_op; pure r) s (fun r' s' => r' = r ∧ s'.files = s.files ∧
      (s'.inodes x).locked = false ∧ (s'.outstanding = 0 → s'.log = [])) fun _ => True := by
  simp only [INode.unlock, mtx_unlock, Xv6fs.record, modify_inode, Fs.end_op, runs_bind, runs_get,
    runs_assert, runs_modify, runs_pure]
  refine ⟨fun _ => ⟨trivial, trivial, ?_, fun hout => if_pos hout⟩, fun _ => trivial⟩
  simp

namespace Wf

theorem open_inode_calm (hl : Layout sb) (h : Wf sb s) (ho : s.outstanding ≥ 1) {ip : Nat}
    (flags : Nat) (hv : (s.inodes ip).valid = true) :
    Does sb (Xv6fs.open_inode sb ip flags) s fun r s' => ∀ i, r = some i → Calm i s' := by
  refine h.ofile_alloc.bind fun r s1 h1 hr => ?_
  cases r with
  | none =>
    dsimp only at hr
    obtain ⟨rfl, -⟩ := hr
    refine (h1.put_logs hl ho ip).bind fun _ s2 h2 _ => ?_
    exact h2.end_op.bind fun _ s3 h3 _ => .pure h3 nofun
  | some i =>
    obtain ⟨-, -, habs1, hinodes1, -⟩ := hr
    have ho1 : s1.outstanding ≥ 1 := (outstanding_of_abs habs1).symm ▸ ho
    have hend : ∀ {s2 : Fs}, Wf sb s2 → (s2.files i).ip = ip →
        Does sb (do INode.unlock ip; Fs.end_op; pure (some i)) s2
          fun r s' => ∀ i, r = some i → Calm i s' := by
      intro s2 h2 hip
      have hwf : Does sb (do INode.unlock ip; Fs.end_op; pure (some i)) s2 fun _ _ => True :=
        (h2.unlock ip).bind fun _ s3 h3 _ => h3.end_op.bind fun _ s4 h4 _ => .pure h4 trivial
      refine (hwf.also (unlock_end_op ip (some i))).imp ?_
      rintro _ s3 _ ⟨-, rfl, hfiles, hlocked, hlog⟩ j ⟨⟩
      exact ⟨by rwa [hfiles, hip], hlog⟩
    have hrest : ∀ f : OFile → OFile, (f (s1.files i)).ip = ip →
        Does sb (do
          Xv6fs.modify_file i f
          if has flags O_TRUNC ∧ (s1.inodes ip).dinode.type = FileType.T_FILE then do
            INode.trunc sb ip
            INode.unlock ip
            Fs.end_op
            pure (some i)
          else do
            INode.unlock ip
            Fs.end_op
            pure (some i)) s1 fun r s' => ∀ i, r = some i → Calm i s' := by
      intro f hf
      refine (h1.modify_file i f).bind ?_
      rintro _ s2 h2 ⟨habs2, hinodes2, _⟩
      have hip : (s2.files i).ip = ip := by
        have := congrFun (congrArg AbsFs.files habs2) i
        rw [show s2.files i = _ from this]
        exact (congrArg OFile.ip setAt_self).trans hf
      refine .ite (fun ht => ?_) fun _ => hend h2 hip
      have hv2 : (s2.inodes ip).valid = true := by rw [hinodes2, hinodes1]; exact hv
      have hfile : (s2.inodes ip).dinode.type ≠ FileType.T_DIR := by
        rw [hinodes2, ht.2]
        decide
      have ho2 : s2.outstanding ≥ 1 := (outstanding_of_abs habs2).symm ▸ ho1
      refine (h2.trunc_file hl ho2 hv2 hfile).bind fun _ s3 h3 habs3 => hend h3 ?_
      have hfiles : s3.files = s2.files := congrArg AbsFs.files habs3
      rw [hfiles, hip]
    exact .get_bind (.ite (fun _ => hrest _ rfl) fun _ => hrest _ rfl)

theorem do_open_calm (hl : Layout sb) (hroot : ROOTINO < sb.ninodes) (h : Wf sb s)
    (path : List UInt8) (flags : Nat) :
    Does sb (Xv6fs.do_open sb path flags) s fun r s' => ∀ i, r = some i → Calm i s' := by
  have hfail : ∀ {s2 : Fs}, Wf sb s2 → Does sb (do Fs.end_op; pure none) s2
      fun r s' => ∀ i, r = some i → Calm i s' :=
    fun h2 => h2.end_op.bind fun _ s3 h3 _ => .pure h3 nofun
  refine h.begin_logs.bind fun _ s1 h1 hbegun => ?_
  have ho1 := hbegun.outstanding
  refine .ite (fun _ => ?_) fun _ => ?_
  · refine (h1.create hl hroot ho1 path 0 0 (by decide)).bind ?_
    rintro r s2 h2 ⟨hcreated, _⟩
    cases r with
    | none => exact hfail h2
    | some ip =>
      obtain ⟨n, hmem⟩ := hcreated.mem
      have ho2 : s2.outstanding ≥ 1 := by
        rw [show s2.outstanding = s1.outstanding from hcreated.frame.2]
        exact ho1
      exact h2.open_inode_calm hl ho2 flags (valid_of_mem hmem).1
  · refine (h1.start_name hl hroot ho1 path).bind ?_
    rintro r s2 h2 ⟨⟨_, hs2, _⟩, _⟩
    cases r with
    | none => exact hfail h2
    | some ip =>
      refine (h2.lock_logs ip).bind ?_
      rintro _ s3 h3 ⟨hlock, _⟩
      obtain ⟨hs3, -, -, -⟩ := hs2.lock h3 hlock
      have ho3 : s3.outstanding ≥ 1 := hs3.outstanding ▸ ho1
      refine .get_bind (.ite (fun _ => ?_) fun _ => ?_)
      · exact (h3.put_logs hl ho3 ip).bind fun _ s4 h4 _ => hfail h4
      · exact h3.open_inode_calm hl ho3 flags hlock.2.1

end Wf

/-- The handle that `do_open` returns, with the inode that it has read. -/
theorem Entry.handle {a a' : AbsFs} {ip flags : Nat} {n : UInt16} (h : Entry a ip flags (some i) a')
    (hmem : a.mem ip = some n) :
    (a'.files i).readable = (!has flags O_WRONLY) ∧
      ((a'.node (a'.files i).ip).type = FileType.T_FILE → (a'.files i).type = .FD_INODE) ∧
      (∃ n, a'.mem (a'.files i).ip = some n) ∧ a'.outstanding = a.outstanding := by
  cases h with
  | @opened _ f hi hfree hf href hread hkind =>
    have hfile : ((a.truncated ip flags).setFileEntry i f).files i = f := setAt_self
    have hsame : (((a.truncated ip flags).setFileEntry i f).node ip).type = (a.node ip).type := by
      unfold AbsFs.truncated
      split
      · simp [AbsFs.setFileEntry, AbsFs.setFile, AbsFs.setLinks, AbsFs.setMem, AbsFs.modify]
      · rfl
    rw [hfile, hf.ip]
    refine ⟨hread, fun htype => hkind fun hdev => ?_, ?_, ?_⟩
    · rw [hsame, hdev] at htype
      exact absurd htype (by decide)
    · unfold AbsFs.truncated
      split
      · exact ⟨_, setAt_self⟩
      · exact ⟨n, hmem⟩
    · unfold AbsFs.truncated
      split <;> rfl

theorem Opens.handle {a0 a' : AbsFs} {path : List UInt8} {flags : Nat}
    (h : Opens sb a0 path flags (some i) a') :
    (a'.files i).readable = (!has flags O_WRONLY) ∧
      ((a'.node (a'.files i).ip).type = FileType.T_FILE → (a'.files i).type = .FD_INODE) ∧
      (∃ n, a'.mem (a'.files i).ip = some n) ∧ a'.outstanding = a0.outstanding := by
  unfold Opens at h
  split at h
  · cases h with
    | created hcreated hentry =>
      obtain ⟨n, hmem⟩ := hcreated.mem
      exact hcreated.frame.2 ▸ hentry.handle hmem
  · cases h with
    | found _ hduring _ hmem hentry => exact hduring.outstanding ▸ hentry.handle hmem

/-- A regular file that `do_open` has opened while no operation was in progress. -/
theorem ready_of_do_open (hl : Layout sb) (hroot : ROOTINO < sb.ninodes) (h : Wf sb s)
    (hout : s.outstanding = 0) {path : List UInt8} {flags : Nat}
    (hopen : do_open sb path flags s = .ok (some i, s'))
    (hfile : (s'.inodes (s'.files i).ip).dinode.type = FileType.T_FILE) :
    Ready sb i s' ∧ (s'.files i).readable = !has flags O_WRONLY := by
  obtain ⟨h', ⟨⟨a, hopens, habs⟩, -⟩⟩ := (h.do_open hl hroot path flags).of_ok hopen
  obtain ⟨-, hcalm⟩ := (h.do_open_calm hl hroot path flags).of_ok hopen
  have hcalm := hcalm i rfl
  obtain ⟨hread, hkind, ⟨n, hmem⟩, houta⟩ := hopens.handle
  have hfiles : s'.files = a.files := congrArg AbsFs.files habs
  rw [← hfiles] at hread hkind hmem
  have hout' : s'.outstanding = 0 := by
    rw [outstanding_of_abs habs, AbsFs.end_op, houta, AbsFs.begin_op]
    exact hout
  have hv : (s'.inodes (s'.files i).ip).valid = true := by
    have hmem' : (s'.abs sb).mem (s'.files i).ip = some n := by
      rw [habs]
      exact hmem
    exact (valid_of_mem hmem').1
  have htype := h'.type_eq hv
  rw [habs] at htype
  have hwf : Wf sb { s' with outstanding := 1 } := h'.congr rfl rfl
  have hg := hwf.growing hv (Nat.le_refl 1)
  exact ⟨⟨hkind (htype.symm.trans hfile), h'.valid_ref hv, hv, hcalm.unlocked, hg.alloc, hg.owned,
    hout', hcalm.log hout'⟩, hread⟩

/-! ### Reading -/

/-- No block is allocated while no operation is in progress. -/
theorem block_alloc_outside (hout : s.outstanding = 0) :
    Runs (block_alloc sb) s (fun r s' => r = 0 ∧ s' = s) fun _ => True := by
  have hfrom : ∀ fuel b, Runs (block_alloc_from sb fuel b) s (fun r s' => r = 0 ∧ s' = s)
      fun _ => True := by
    intro fuel
    induction fuel with
    | zero => exact fun _ => ⟨rfl, rfl⟩
    | succ fuel ih =>
      intro b
      rw [block_alloc_from]
      split
      · rw [runs_bind, runs_get]
        split
        · simp only [modify_block, Fs.log_write, runs_bind, runs_get, runs_assert, runs_modify]
          exact ⟨fun _ => ⟨fun ho => absurd hout (by omega), fun _ => trivial⟩, fun _ => trivial⟩
        · exact ih _
      · exact ⟨rfl, rfl⟩
  exact hfrom sb.size 0

theorem block_map_addr_outside (hout : s.outstanding = 0) (x k : Nat) :
    Runs (block_map_addr sb x k) s (fun _ s' => s' = s) fun _ => True := by
  rw [block_map_addr, runs_bind, runs_get]
  dsimp only
  split
  · refine (block_alloc_outside hout).bind ?_
    rintro _ _ ⟨rfl, rfl⟩
    exact rfl
  · exact rfl

theorem block_map_outside (hout : s.outstanding = 0) (x n : Nat) :
    Runs (block_map sb x n) s (fun _ s' => s' = s) fun _ => True := by
  rw [block_map]
  split
  · exact block_map_addr_outside hout x n
  · split
    · refine (block_map_addr_outside hout x NDIRECT).bind ?_
      rintro ind _ rfl
      split
      · exact rfl
      · rw [block_map_indirect, runs_bind, runs_get]
        dsimp only
        split
        · refine (block_alloc_outside hout).bind ?_
          rintro _ _ ⟨rfl, rfl⟩
          exact rfl
        · exact rfl
    · trivial

/-- A read while no operation is in progress changes nothing, if it returns. -/
theorem read_outside (hout : s.outstanding = 0) (x : Nat) (buf : Bytes.Source) (off n : Nat) :
    Runs (INode.read sb x buf off n) s
      (fun _ s' => s' = { s with trace := .access x :: s.trace }) fun _ => True := by
  have hloop : ∀ n fuel tot off (buf : Bytes.Source) (s : Fs), s.outstanding = 0 →
      Runs (INode.read_loop sb x n fuel tot off buf) s (fun _ s' => s' = s) fun _ => True := by
    intro n fuel
    induction fuel with
    | zero => exact fun _ _ _ _ _ => rfl
    | succ fuel ih =>
      intro tot off buf s hout
      rw [INode.read_loop]
      split
      · refine (block_map_outside hout x _).bind ?_
        rintro b _ rfl
        split
        · exact rfl
        · exact ih _ _ _ _ hout
      · exact rfl
  simp only [INode.read, Xv6fs.record, runs_bind, runs_modify, runs_get]
  split
  · exact rfl
  · exact hloop _ _ _ _ _ _ hout

/-- A change of the offset of the handle, and of nothing else that a handle depends on. -/
theorem Ready.seek (h : Ready sb i s) {off : Nat}
    (hfiles : s'.files = setAt s.files i { s.files i with off })
    (hblocks : s'.blocks = s.blocks)
    (hinodes : s'.inodes (s.files i).ip = s.inodes (s.files i).ip)
    (hout : s'.outstanding = s.outstanding) (hlog : s'.log = s.log) : Ready sb i s' := by
  have hfile : s'.files i = { s.files i with off } := by rw [hfiles, setAt_self]
  have hip : (s'.files i).ip = (s.files i).ip := by rw [hfile]
  have hview : s'.view sb (s.files i).ip = s.view sb (s.files i).ip :=
    Fs.view_congr hblocks (congrArg INode.dinode hinodes)
  constructor
  · rw [hfile]
    exact h.type
  · rw [hip, hinodes]
    exact h.ref
  · rw [hip, hinodes]
    exact h.valid
  · rw [hip, hinodes]
    exact h.unlocked
  · rw [hip, hview]
    exact h.alloc
  · rw [hip, hview, hblocks]
    exact h.owned
  · rw [hout]
    exact h.outstanding
  · rw [hlog]
    exact h.log

/-- A read through the handle moves its offset, if it returns. -/
theorem Ready.read (h : Ready sb i s) (buf : Bytes.Source) (n : Nat) :
    Runs (OFile.read sb i buf n) s (fun _ s' => Ready sb i s' ∧
      (s'.files i).readable = (s.files i).readable) fun _ => True := by
  rw [OFile.read, runs_bind, runs_get]
  dsimp only
  split
  · exact ⟨h, rfl⟩
  · split
    · trivial
    · next htype => exact absurd (h.type.symm.trans htype) (by decide)
    · refine (lock_valid h.ref h.valid h.unlocked).bind ?_
      rintro - s2 rfl
      refine (read_outside (by exact h.outstanding) _ _ _ _).bind ?_
      rintro ⟨r, buf'⟩ s3 rfl
      simp only [modify_file, INode.unlock, mtx_unlock, Xv6fs.record, modify_inode, runs_bind,
        runs_get, runs_assert, runs_modify, runs_pure]
      refine ⟨fun _ => ⟨@Ready.seek _ _ _ _ h ((s.files i).off + r) rfl rfl ?_ rfl rfl, ?_⟩, fun _ => trivial⟩
      · simp only [setAt_self]
        have := h.unlocked
        generalize s.inodes (s.files i).ip = ip at *
        cases ip
        simp_all
      · simp only [setAt_self]

theorem Ready.op_read (h : Ready sb i s) (buf : Bytes.Source) (size offset : Nat) :
    Runs (op_read sb i buf size offset) s (fun _ s' => Ready sb i s' ∧
      (s'.files i).readable = (s.files i).readable) fun _ => True := by
  simp only [Xv6fs.op_read, runs_bind, runs_get]
  split
  · exact ⟨h, rfl⟩
  · rw [runs_bind, modify_file, runs_modify]
    have hseek : Ready sb i { s with
        files := setAt s.files i { s.files i with off := offset } } := h.seek rfl rfl rfl rfl rfl
    refine (hseek.read buf _).bind ?_
    rintro r s2 ⟨h2, hread⟩
    refine ⟨h2, ?_⟩
    simpa only [setAt_self] using hread

/-! ### Writing -/

/-- A write through a handle whose offset is past the end of the file moves the offset further. -/
theorem ofile_write_past (hl : Layout sb) (hlog : LOG_SIZE ≤ sb.nlog) (h : Ready sb i s)
    (hread : (s.files i).readable = true) (hoff : s.file_size i < (s.files i).off)
    (buf : Bytes.Source) {n : Nat} (hn : 0 < n) :
    Runs (OFile.write sb i buf n) s (fun r s' => Ready sb i s' ∧ r = -1 ∧
      s'.files = setAt s.files i { s.files i with off := (s.files i).off + UINT32_ERR })
      fun _ => False := by
  rw [OFile.write, runs_bind, runs_get, if_neg (by rw [hread]; decide)]
  split
  · next htype => exact absurd (h.type.symm.trans htype) (by decide)
  · next htype => exact absurd (h.type.symm.trans htype) (by decide)
  · rw [runs_bind]
    obtain ⟨fuel, rfl⟩ : ∃ fuel, n = fuel + 1 := ⟨n - 1, by omega⟩
    refine runs_write_chunk hn ((write_section_runs hl hlog h _ (Nat.min_le_right _ _)).imp ?_)
    rintro r s1 ⟨h1, hfiles1, hchunk⟩
    cases hchunk with
    | refused hout hr hblocks hmem =>
      refine ⟨fun _ => ⟨h1, if_neg (by omega), by rw [hfiles1, hr]⟩, fun heq => ?_⟩
      rw [hr] at heq
      simp only [UINT32_ERR, BSIZE] at heq
      omega
    | stored hoff1 _ _ _ _ => exact absurd hoff1 (Nat.not_le.mpr hoff)

/-- A write of no bytes. -/
theorem ofile_write_nothing (h : Ready sb i s) (hread : (s.files i).readable = true)
    (buf : Bytes.Source) : Runs (OFile.write sb i buf 0) s (fun r s' => r = 0 ∧ s' = s)
      fun _ => False := by
  rw [OFile.write, runs_bind, runs_get, if_neg (by rw [hread]; decide)]
  split
  · next htype => exact absurd (h.type.symm.trans htype) (by decide)
  · next htype => exact absurd (h.type.symm.trans htype) (by decide)
  · exact ⟨rfl, rfl⟩

theorem ofile_write_refused {E : Fault → Prop} (hread : (s.files i).readable = false)
    (buf : Bytes.Source) (n : Nat) :
    Runs (OFile.write sb i buf n) s (fun r s' => r = -1 ∧ s' = s) E := by
  rw [OFile.write, runs_bind, runs_get, if_pos hread]
  exact ⟨rfl, rfl⟩

theorem Ready.write (hl : Layout sb) (hlog : LOG_SIZE ≤ sb.nlog) (h : Ready sb i s)
    (buf : Bytes.Source) (n : Nat) :
    Runs (OFile.write sb i buf n) s (fun _ s' => Ready sb i s' ∧
      (s'.files i).readable = (s.files i).readable) fun _ => False := by
  cases hread : (s.files i).readable with
  | false =>
    refine (ofile_write_refused hread buf n).imp ?_
    rintro _ _ ⟨-, rfl⟩
    exact ⟨h, hread⟩
  | true =>
    obtain hoff | hoff := Nat.lt_or_ge (s.file_size i) (s.files i).off
    · obtain rfl | hn := Nat.eq_zero_or_pos n
      · refine (ofile_write_nothing h hread buf).imp ?_
        rintro _ _ ⟨-, rfl⟩
        exact ⟨h, hread⟩
      · refine (ofile_write_past hl hlog h hread hoff buf hn).imp ?_
        rintro _ s' ⟨h', _, hfiles⟩
        refine ⟨h', ?_⟩
        rw [hfiles, setAt_self]
        exact hread
    · refine (ofile_write_runs hl hlog h hread hoff buf n).imp ?_
      rintro _ s' ⟨_, _, h', hfiles, -⟩
      refine ⟨h', ?_⟩
      rw [hfiles, setAt_self]
      exact hread

theorem Ready.op_write (hl : Layout sb) (hlog : LOG_SIZE ≤ sb.nlog) (h : Ready sb i s)
    (buf : Bytes.Source) (size offset : Nat) :
    Runs (op_write sb i buf size offset) s (fun _ s' => Ready sb i s' ∧
      (s'.files i).readable = (s.files i).readable) fun _ => False := by
  simp only [Xv6fs.op_write, runs_bind, runs_get]
  split
  · exact ⟨h, rfl⟩
  · exact h.write hl hlog buf _

/-! ### Sessions -/

abbrev O_RDONLY : Nat := 0

/-- The states after `do_open` with `flags` has returned handle `i` for a regular file, and then any
reads and writes through the handle. -/
inductive Session (sb : SuperBlock) (i flags : Nat) : Fs → Prop
  | opened {s s' : Fs} {path : List UInt8} (h : Wf sb s) (hout : s.outstanding = 0)
      (hopen : do_open sb path flags s = .ok (some i, s'))
      (hfile : (s'.inodes (s'.files i).ip).dinode.type = FileType.T_FILE) : Session sb i flags s'
  | read {s s' : Fs} {buf : Bytes.Source} {size offset : Nat} {r : Int × Bytes.Source}
      (h : Session sb i flags s) (hread : op_read sb i buf size offset s = .ok (r, s')) :
      Session sb i flags s'
  | write {s s' : Fs} {buf : Bytes.Source} {size offset : Nat} {r : Int}
      (h : Session sb i flags s) (hwrite : op_write sb i buf size offset s = .ok (r, s')) :
      Session sb i flags s'

theorem Session.ready {flags : Nat} (hl : Layout sb) (hroot : ROOTINO < sb.ninodes)
    (hlog : LOG_SIZE ≤ sb.nlog) (h : Session sb i flags s) :
    Ready sb i s ∧ (s.files i).readable = !has flags O_WRONLY := by
  induction h with
  | opened h hout hopen hfile => exact ready_of_do_open hl hroot h hout hopen hfile
  | read _ hread ih =>
    obtain ⟨h', hsame⟩ := (ih.1.op_read _ _ _).of_ok hread
    exact ⟨h', hsame.trans ih.2⟩
  | write _ hwrite ih =>
    obtain ⟨h', hsame⟩ := (ih.1.op_write hl hlog _ _ _).of_ok hwrite
    exact ⟨h', hsame.trans ih.2⟩

/-- Neither the file table nor the free blocks nor the file of handle `i` change. -/
structure Untouched (sb : SuperBlock) (i : Nat) (s s' : Fs) : Prop where
  files : s'.files = s.files
  free : s'.free_blocks sb = s.free_blocks sb
  bytes : s'.file_bytes i = s.file_bytes i

/-- A write through a handle that was opened with `flags` returns `r` and does what the caller asks
for: it is refused through a handle for reading, and otherwise puts the bytes at `offset`. -/
def AsTold (sb : SuperBlock) (i flags : Nat) (buf : Bytes.Source) (size offset : Nat) (s : Fs)
    (r : Int) (s' : Fs) : Prop :=
  if flags &&& O_ACCMODE = O_RDONLY then r < 0 ∧ Untouched sb i s s'
  else r = size ∧
    s'.file_bytes i = Bytes.splice (s.file_bytes i) offset (Bytes.Source.list buf size)

/-- No byte can be stored at the offset of handle `i` because the disk is full. -/
structure Stuck (sb : SuperBlock) (i size : Nat) (s : Fs) : Prop where
  off_le : (s.files i).off ≤ s.file_size i
  reach : 0 < reach (s.files i).off size
  full : s.free_blocks sb = ∅
  unmapped : s.needed (s.files i).ip (s.files i).off 1 ≠ ∅

theorem mode_eq (flags : Nat) : flags &&& O_ACCMODE = flags % 4 :=
  Nat.and_two_pow_sub_one_eq_mod flags 2

theorem not_wronly_iff (flags : Nat) : (!has flags O_WRONLY) = true ↔ flags % 2 = 0 := by
  have h1 : flags &&& O_WRONLY = flags % 2 := Nat.and_one_is_mod flags
  simp [has, h1]

theorem Source.list_getD (buf : Bytes.Source) {n : Nat} (hn : 0 < n) :
    (Bytes.Source.list buf n).getD 0 0 = buf 0 := by
  simp [Bytes.Source.list, List.getD_eq_getElem?_getD, hn]

/-- A byte that is not the one at `k`. -/
def other_byte (l : List UInt8) (k : Nat) : UInt8 := l.getD k 0 + 1

theorem other_byte_ne (l : List UInt8) (k : Nat) : other_byte l k ≠ l.getD k 0 := by
  simp [other_byte]

/-- The bytes of the file of a handle, after some have been stored. -/
theorem Stored.file_bytes (h : Stored sb (s.files i).ip buf off t s s')
    (hip : (s'.files i).ip = (s.files i).ip) (hoff : off ≤ s.file_size i) :
    s'.file_bytes i = Bytes.splice (s.file_bytes i) off (Bytes.Source.list buf t) := by
  rw [Fs.file_bytes, hip]
  exact h.content_eq hoff

section Modes

variable (hl : Layout sb) (hlog : LOG_SIZE ≤ sb.nlog) (h : Ready sb i s)
  (hread : (s.files i).readable = true)

include hl hlog h hread

/-- `OFile::write` tests `readable`, so a handle for reading is refused nothing but what does not
fit. -/
theorem write_untouched_iff (n : Nat) :
    (∀ buf, Runs (OFile.write sb i buf n) s (fun r s' => r < 0 ∧ Untouched sb i s s')
        fun _ => False) ↔ Stuck sb i n s := by
  constructor
  · intro htold
    have hrun := htold fun _ => 0
    obtain rfl | hn := Nat.eq_zero_or_pos n
    · obtain ⟨r, s', hok, hneg, -⟩ := hrun.returns
      obtain ⟨rfl, -⟩ := (ofile_write_nothing h hread _).of_ok hok
      cases hneg
    obtain ⟨r, s', hok, hneg, hsame⟩ := hrun.returns
    obtain hoff | hoff := Nat.lt_or_ge (s.file_size i) (s.files i).off
    · obtain ⟨-, -, hfiles⟩ := (ofile_write_past hl hlog h hread hoff _ hn).of_ok hok
      have hmoved := congrArg OFile.off (congrFun (hsame.files.symm.trans hfiles) i)
      rw [setAt_self] at hmoved
      simp only [UINT32_ERR] at hmoved
      omega
    · obtain ⟨whole, off', h', hfiles, hwhole, -, hchunks⟩ :=
        (ofile_write_runs hl hlog h hread hoff _ n).of_ok hok
      have hip : (s'.files i).ip = (s.files i).ip := by rw [hfiles, setAt_self]
      have hmoved : (s.files i).off = off' := by
        have := congrFun (hsame.files.symm.trans hfiles) i
        rw [setAt_self] at this
        exact congrArg OFile.off this
      cases hchunks with
      | done =>
        have := hwhole rfl
        omega
      | @short t _ hlt hst hfull hempty =>
        obtain rfl : t = 0 := by omega
        refine ⟨hoff, by omega, by rw [← hsame.free, hfull.free_blocks], fun hnone => ?_⟩
        have hlt1 := hst.free_lt h.alloc (hip ▸ h'.alloc) h.owned (hip ▸ h'.owned) hfull Nat.one_pos
          (Nat.le_trans (by omega) (add_reach_le hlt)) hempty
        rw [hnone] at hlt1
        exact absurd hlt1 (Nat.not_lt_zero _)
      | refused hlt hst =>
        simp only [UINT32_ERR] at hmoved
        omega
  · intro hstuck buf
    have hneeds : ∀ {t : Nat} {s' : Fs}, Ready sb i s' → (s'.files i).ip = (s.files i).ip →
        Stored sb (s.files i).ip buf (s.files i).off t s s' → t = 0 := by
      intro t s' h' hip hst
      by_contra ht
      refine hstuck.unmapped (Finset.card_eq_zero.mp (Nat.le_zero.mp ?_))
      have hle := hst.needed_le h.alloc (hip ▸ h'.alloc) h.owned (hip ▸ h'.owned) (n := 1)
        fun o h1 h2 => hst.mapped o h1 (by omega)
      rwa [hstuck.full, Finset.card_empty] at hle
    have hreach := hstuck.reach
    refine (ofile_write_runs hl hlog h hread hstuck.off_le buf n).imp ?_
    rintro r s' ⟨whole, off', h', hfiles, -, hr, hchunks⟩
    have hip : (s'.files i).ip = (s.files i).ip := by rw [hfiles, setAt_self]
    cases hchunks with
    | done hall hst =>
      have := hneeds h' hip hst
      omega
    | @short t _ hlt hst hfull hempty =>
      obtain rfl := hneeds h' hip hst
      refine ⟨?_, ⟨?_, ?_, ?_⟩⟩
      · rw [hr rfl]
        decide
      · rw [hfiles]
        exact setAt_same _
      · rw [hfull.free_blocks, hstuck.full]
      · rw [hst.file_bytes hip hstuck.off_le]
        exact Bytes.splice_nil _ _
    | refused hlt hst =>
      have := hneeds h' hip hst
      omega

/-- The bytes go to the offset of the handle. -/
theorem write_at_iff {n offset : Nat} (hoffset : offset ≤ s.file_size i)
    (hmax : offset + n ≤ MAX_SIZE)
    (hfree : (s.needed (s.files i).ip offset n).card ≤ (s.free_blocks sb).card) :
    (∀ buf, Runs (OFile.write sb i buf n) s (fun r s' => r = n ∧ s'.file_bytes i =
        Bytes.splice (s.file_bytes i) offset (Bytes.Source.list buf n)) fun _ => False) ↔
      n = 0 ∨ (s.files i).off = offset := by
  have hlen : (s.file_bytes i).length = s.file_size i := length_file_bytes
  constructor
  · intro htold
    by_contra hno
    obtain ⟨hn, hne⟩ := not_or.mp hno
    have hn : 0 < n := Nat.pos_of_ne_zero hn
    have hrun := htold fun _ => other_byte (s.file_bytes i) (min (s.files i).off offset)
    obtain ⟨r, s', hok, hr, hbytes⟩ := hrun.returns
    obtain hoff | hoff := Nat.lt_or_ge (s.file_size i) (s.files i).off
    · obtain ⟨-, hneg, -⟩ := (ofile_write_past hl hlog h hread hoff _ hn).of_ok hok
      omega
    · obtain ⟨whole, off', h', hfiles, -, hneg, hchunks⟩ :=
        (ofile_write_runs hl hlog h hread hoff _ n).of_ok hok
      have hip : (s'.files i).ip = (s.files i).ip := by rw [hfiles, setAt_self]
      cases hchunks with
      | done hall hst =>
        rw [hst.file_bytes hip hoff] at hbytes
        refine hne (Bytes.splice_off_inj (by omega) (by omega) ?_ ?_ hbytes)
        · simpa [Bytes.Source.list] using hn
        · rw [Source.list_getD _ hn]
          exact other_byte_ne _ _
      | short =>
        have := hneg rfl
        omega
      | refused =>
        have := hneg rfl
        omega
  · intro hcond buf
    obtain rfl | hn := Nat.eq_zero_or_pos n
    · refine (ofile_write_nothing h hread buf).imp ?_
      rintro r s' ⟨rfl, rfl⟩
      exact ⟨rfl, (Bytes.splice_nil _ _).symm⟩
    · obtain rfl := hcond.resolve_left (Nat.ne_of_gt hn)
      refine (ofile_write_runs hl hlog h hread hoffset buf n).imp ?_
      rintro r s' ⟨whole, off', h', hfiles, hwhole, -, hchunks⟩
      have hip : (s'.files i).ip = (s.files i).ip := by rw [hfiles, setAt_self]
      have hreach : reach (s.files i).off n = n := if_pos (.inr hmax)
      cases hchunks with
      | done _ hst =>
        refine ⟨hwhole rfl, ?_⟩
        exact hst.file_bytes hip hoffset
      | short hlt hst hfull hempty =>
        have := hst.free_lt h.alloc (hip ▸ h'.alloc) h.owned (hip ▸ h'.owned) hfull
          (hreach ▸ hlt) hmax hempty
        omega
      | refused hlt => omega

end Modes

theorem op_write_within (hoffset : offset ≤ s.file_size i) (hsize : size < 2 ^ 32)
    (buf : Bytes.Source) {Q : Int → Fs → Prop} {E : Fault → Prop} :
    Runs (op_write sb i buf size offset) s Q E ↔ Runs (OFile.write sb i buf size) s Q E := by
  rw [Xv6fs.op_write, runs_bind, runs_get, Nat.mod_eq_of_lt hsize]
  split
  · next hgt => exact absurd hgt (Nat.not_lt.mpr hoffset)
  · rfl

/-- Exactly when a write through a handle with any history does what the caller asks for. -/
theorem op_write_as_told (hl : Layout sb) (hroot : ROOTINO < sb.ninodes) (hlog : LOG_SIZE ≤ sb.nlog)
    {flags size offset : Nat} (h : Session sb i flags s) (hmode : flags &&& O_ACCMODE ≠ O_ACCMODE)
    (hoffset : offset ≤ s.file_size i) (hmax : offset + size ≤ MAX_SIZE)
    (hfree : (s.needed (s.files i).ip offset size).card ≤ (s.free_blocks sb).card) :
    (∀ buf, Runs (op_write sb i buf size offset) s (AsTold sb i flags buf size offset s)
        fun _ => False) ↔
      (flags &&& O_ACCMODE = O_RDONLY ∧ Stuck sb i size s) ∨
      (flags &&& O_ACCMODE = O_RDWR ∧ (size = 0 ∨ (s.files i).off = offset)) := by
  obtain ⟨hr, hreadable⟩ := h.ready hl hroot hlog
  have hsize : size < 2 ^ 32 := by
    simp only [MAX_SIZE, MAX_FILE, NINDIRECT, NDIRECT, BSIZE] at hmax
    omega
  have hop : ∀ (buf : Bytes.Source) (Q : Int → Fs → Prop),
      Runs (op_write sb i buf size offset) s Q (fun _ => False) ↔
        Runs (OFile.write sb i buf size) s Q fun _ => False :=
    fun buf _ => op_write_within hoffset hsize buf
  have hwronly := not_wronly_iff flags
  rw [← hreadable] at hwronly
  have hm := mode_eq flags
  rcases (by omega : flags % 4 = 0 ∨ flags % 4 = 1 ∨ flags % 4 = 2 ∨ flags % 4 = 3)
    with h0 | h0 | h0 | h0
  all_goals rw [h0] at hm
  · have htold : ∀ buf, AsTold sb i flags buf size offset s =
        fun (r : Int) (s' : Fs) => r < 0 ∧ Untouched sb i s s' := fun buf => by
      funext r s'
      rw [AsTold, if_pos hm]
    simpa [hop, hm, htold] using write_untouched_iff hl hlog hr (hwronly.mpr (by omega)) size
  · have hread : (s.files i).readable = false := by
      rw [← Bool.not_eq_true, hwronly]
      omega
    constructor
    · intro htold
      obtain ⟨r, s', hok, hbad⟩ := ((hop (fun _ => 0) _).mp (htold _)).returns
      obtain ⟨rfl, -⟩ := (ofile_write_refused (E := fun _ => False) hread _ _).of_ok hok
      rw [AsTold, if_neg (by rw [hm]; decide)] at hbad
      omega
    · rw [hm]
      rintro (⟨h, -⟩ | ⟨h, -⟩) <;> cases h
  · have htold : ∀ buf, AsTold sb i flags buf size offset s = fun (r : Int) (s' : Fs) => r = size ∧
        s'.file_bytes i = Bytes.splice (s.file_bytes i) offset (Bytes.Source.list buf size) :=
      fun buf => by
        funext r s'
        rw [AsTold, if_neg (by rw [hm]; decide)]
    simpa [hop, hm, htold] using
      write_at_iff hl hlog hr (hwronly.mpr (by omega)) hoffset hmax hfree
  · exact absurd hm hmode

set_option maxRecDepth 100000 in
/-- The first write to a new file. -/
theorem op_write_as_told_first : ∃ s, Session rootSb 0 (O_RDWR ||| O_CREAT) s ∧
    ∀ buf, Runs (op_write rootSb 0 buf 1 0) s (AsTold rootSb 0 (O_RDWR ||| O_CREAT) buf 1 0 s)
      fun _ => False := by
  have hrun : Runs (do_open rootSb [47, 102] (O_RDWR ||| O_CREAT)) rootFs (fun r s => r = some 0 ∧
      (s.inodes (s.files 0).ip).dinode.type = FileType.T_FILE ∧ (s.files 0).off = 0 ∧
      (s.needed (s.files 0).ip 0 1).card ≤ (s.free_blocks rootSb).card) fun _ => False := by
    decide +kernel
  obtain ⟨_, s, hopen, rfl, hfile, hoff, hfree⟩ := hrun.returns
  have hsession : Session rootSb 0 (O_RDWR ||| O_CREAT) s := .opened rootFs_wf rfl hopen hfile
  exact ⟨s, hsession, (op_write_as_told rootSb_layout (by decide) (by decide) hsession (by decide)
    (Nat.zero_le _) (by decide) hfree).mpr (.inr ⟨by decide, .inr hoff⟩)⟩

set_option maxRecDepth 100000 in
/-- The second of two writes of a byte at offset `0` puts its byte at offset `1`. -/
theorem op_write_as_told_fails : ∃ s, Session rootSb 0 (O_RDWR ||| O_CREAT) s ∧
    0 ≤ s.file_size 0 ∧ 0 + 1 ≤ MAX_SIZE ∧
    (s.needed (s.files 0).ip 0 1).card ≤ (s.free_blocks rootSb).card ∧
    ¬Runs (op_write rootSb 0 (fun _ => 98) 1 0) s
      (AsTold rootSb 0 (O_RDWR ||| O_CREAT) (fun _ => 98) 1 0 s) fun _ => False := by
  have hrun : Runs (do_open rootSb [47, 102] (O_RDWR ||| O_CREAT)) rootFs (fun r s => r = some 0 ∧
      (s.inodes (s.files 0).ip).dinode.type = FileType.T_FILE ∧
      Runs (op_write rootSb 0 (fun _ => 97) 1 0) s (fun _ s =>
        (s.needed (s.files 0).ip 0 1).card ≤ (s.free_blocks rootSb).card ∧
        s.file_bytes 0 = [97] ∧
        Runs (op_write rootSb 0 (fun _ => 98) 1 0) s (fun _ s' => s'.file_bytes 0 = [97, 98])
          fun _ => False) fun _ => False) fun _ => False := by
    decide +kernel
  obtain ⟨_, s1, hopen, rfl, hfile, hrun⟩ := hrun.returns
  obtain ⟨_, s, hwrite, hfree, hold, hrun⟩ := hrun.returns
  refine ⟨s, .write (.opened rootFs_wf rfl hopen hfile) hwrite, Nat.zero_le _, by decide, hfree,
    fun htold => ?_⟩
  obtain ⟨r, s', hok, hnew⟩ := hrun.returns
  have hbytes := htold.of_ok hok
  rw [AsTold, if_neg (by decide), hold, hnew] at hbytes
  exact absurd hbytes.2 (by decide)

end Xv6fs
