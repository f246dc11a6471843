import Xv6fs.Fs.Open

/-! `op_release`, `op_getattr` and `op_truncate` on the abstract state: each ends with the close of a
handle. -/

namespace Xv6fs

open Program (Runs runs_bind runs_pure runs_get runs_modify runs_assert runs_throw runs_ite runs_imp)

variable {sb : SuperBlock} {s s' s1 s2 s3 : Fs} {x i : Nat} {a a' : AbsFs}

/-- What `ofile_close` does: with the last reference of the entry it drops the inode. -/
inductive Closed (a : AbsFs) (i : Nat) : AbsFs → Prop
  | shared (href : 1 < (a.files i).ref) :
      Closed a i (a.setFileEntry i { a.files i with ref := (a.files i).ref - 1 })
  | last (href : (a.files i).ref = 1) (htype : (a.files i).type ≠ .FD_NONE) :
      Closed a i ((a.setFileEntry i { a.files i with ref := 0, type := .FD_NONE }).put (a.files i).ip)

/-- Two steps, the first of which leaves the directories linked. -/
theorem Within.trans (h : Within sb s s1) (hb : Budgeted sb s → Budgeted sb s1)
    (h' : Within sb s1 s2) : Within sb s s2 :=
  fun hbudget hfits => h' (hb hbudget) (h hbudget hfits)

theorem Budgeted.of_node (h : (s'.abs sb).node = (s.abs sb).node) (hb : Budgeted sb s) :
    Budgeted sb s' := ⟨hb.1, hb.2.of_node h⟩

theorem AbsFs.put_begin_end (a : AbsFs) (x : Nat) : (a.begin_op.put x).end_op = a.put x := by
  unfold put
  split <;> split <;> first | rfl | contradiction

/-- File `x` gets another size, and is written back with the links that it has in memory. -/
def AbsFs.resize (a : AbsFs) (x size : Nat) : AbsFs :=
  (a.setLinks x (a.links x)).setFile x size (a.node x).slots (a.node x).bytes

/-! ### Directories that have links -/

namespace AbsFs.Linked

theorem modify (h : a.Linked) (f : Node → Node)
    (hf : (f (a.node x)).type = FileType.T_DIR → (f (a.node x)).nlink ≠ 0) :
    (a.modify x f).Linked := by
  intro y hy
  simp only [AbsFs.modify, setAt_apply] at hy ⊢
  split at hy
  · rw [if_pos ‹_›]
    exact hf hy
  · rw [if_neg ‹_›]
    exact h y hy

theorem put (h : a.Linked) (x : Nat) : (a.put x).Linked := by
  unfold AbsFs.put
  split
  · intro y hy
    simp only [AbsFs.free, setAt_apply] at hy ⊢
    split at hy
    · exact absurd hy (by decide)
    · rw [if_neg ‹_›]
      exact h y hy
  · exact h.of_node rfl

theorem during {held : List Nat} (h : a.Linked) (hd : During a a' held) : a'.Linked := by
  intro y hy
  rcases hd.node y with hnode | ⟨-, hfree⟩
  · rw [hnode] at hy ⊢
    exact h y hy
  · rw [hfree] at hy
    exact absurd hy (by decide)

theorem truncated (h : a.Linked) (x flags : Nat) : (a.truncated x flags).Linked := by
  unfold AbsFs.truncated
  split
  · next ht =>
    have hset : (a.setLinks x (a.links x)).Linked :=
      AbsFs.Linked.of_node (h.modify (x := x) (fun nd => { nd with nlink := a.links x }) fun hd =>
        absurd (ht.2.symm.trans hd) (by decide)) rfl
    refine hset.modify _ fun hd => ?_
    simp only [AbsFs.setLinks, AbsFs.setMem, AbsFs.modify, setAt_self] at hd
    exact absurd (ht.2.symm.trans hd) (by decide)
  · exact h

theorem entry {ip flags : Nat} {r : Option Nat} (h : a.Linked) (he : Entry a ip flags r a') :
    a'.Linked := by
  cases he with
  | full => exact h.put ip
  | opened _ _ _ _ => exact (h.truncated ip flags).of_node rfl

theorem resize (h : a.Linked) {size : Nat} (hx : (a.node x).type ≠ FileType.T_DIR) :
    (a.resize x size).Linked := by
  intro y hy
  simp only [AbsFs.resize, AbsFs.setLinks, AbsFs.setFile, AbsFs.setMem, AbsFs.modify, setAt_self,
    setAt_setAt, setAt_apply] at hy ⊢
  split at hy
  · exact absurd hy hx
  · rw [if_neg ‹_›]
    exact h y hy

theorem opensOld {path : List UInt8} {flags : Nat} {r : Option Nat} (h : a.Linked)
    (ho : OpensOld a path flags r a') : a'.Linked := by
  cases ho with
  | missing hd _ => exact h.during hd
  | found _ hd _ _ he => exact (h.during hd).entry he

end AbsFs.Linked

/-! ### Closing -/

namespace Wf

theorem ofile_close (hl : Layout sb) (h : Wf sb s) (i : Nat) :
    Does sb (ofile_close sb i) s fun _ s' => Closed (s.abs sb) i (s'.abs sb) ∧ Within sb s s' := by
  refine .get_bind (.assert_bind ⟨by decide, by decide⟩ fun href => ?_)
  refine .ite (fun hgt => ?_) fun hle => ?_
  · refine (h.modify_file i _).imp ?_
    rintro _ s1 _ ⟨habs, _, hadds⟩
    refine ⟨?_, .quiet hadds⟩
    rw [habs]
    exact .shared (show 1 < (s.files i).ref by omega)
  · have hone : (s.files i).ref = 1 := by omega
    refine (h.modify_file i _).bind ?_
    rintro _ s1 h1 ⟨habs1, _, hadds1⟩
    have hlast : (s.files i).type ≠ .FD_NONE →
        Does sb (do Fs.begin_op; Xv6fs.inode_put sb (s.files i).ip; Fs.end_op) s1 fun _ s' =>
          Closed (s.abs sb) i (s'.abs sb) ∧ Within sb s s' := by
      intro htype
      refine h1.begin_logs.bind fun _ s2 h2 hbegun => ?_
      have ho2 := hbegun.outstanding
      refine ((h2.inode_put hl ho2 _).also (runs_imp fun hone : sb.size ≤ BIT_PER_BLOCK =>
        (h2.inode_put_adds hl hone _).imp fun _ _ hs => hs.1)).bind ?_
      rintro _ s3 h3 ⟨⟨hput, _⟩, hadds3⟩
      refine h3.end_logs.imp ?_
      rintro _ s4 _ ⟨habs4, hadds4⟩
      refine ⟨?_, ?_⟩
      · rw [habs4, hput, hbegun.abs, habs1, AbsFs.put_begin_end]
        exact .last hone htype
      · have hcard := card_own_le sb (s.files i).ip
        refine (Within.quiet hadds1).trans (.of_node (by rw [habs1]; rfl)) ?_
        exact hbegun.within (K := own sb (s.files i).ip) (fun hb => (hadds3 hb.1).then_same
          (hadds4.mono (Finset.empty_subset _) (Nat.le_refl 0))) (by omega)
    split
    · exact .throw ⟨by decide, by decide⟩
    · next htype => exact hlast (by rw [htype]; decide)
    · next htype => exact hlast (by rw [htype]; decide)

/-- `op_release` closes the handle. -/
theorem op_release (hl : Layout sb) (h : Wf sb s) (fh : Nat) :
    Does sb (op_release sb fh) s fun _ s' => Closed (s.abs sb) fh (s'.abs sb) ∧ Within sb s s' :=
  (h.ofile_close hl fh).bind fun _ _ h1 hs => .pure h1 hs

end Wf

/-- What an operation does that opens an inode and closes it. -/
inductive Visits (a : AbsFs) (path : List UInt8) (flags : Nat) : AbsFs → Prop
  | missing {a1 : AbsFs} (h : OpensOld a.begin_op path flags none a1) : Visits a path flags a1.end_op
  | visited {a1 a' : AbsFs} {i : Nat} (h : OpensOld a.begin_op path flags (some i) a1)
      (hclose : Closed a1.end_op i a') : Visits a path flags a'

namespace Wf

/-- `do_open` without `O_CREAT`. -/
theorem open_old (hl : Layout sb) (hroot : ROOTINO < sb.ninodes) (h : Wf sb s) (path : List UInt8)
    {flags : Nat} (hflags : has flags O_CREAT = false) :
    Does sb (Xv6fs.do_open sb path flags) s fun r s' =>
      (∃ a', OpensOld (s.abs sb).begin_op path flags r a' ∧ s'.abs sb = a'.end_op) ∧
        Within sb s s' ∧ (Budgeted sb s → Budgeted sb s') := by
  refine (h.do_open hl hroot path flags).imp ?_
  rintro r s1 _ ⟨⟨a1, ho, habs⟩, hw⟩
  have ho : OpensOld (s.abs sb).begin_op path flags r a1 := by
    simpa only [Opens, hflags, Bool.false_eq_true, if_false] using ho
  refine ⟨⟨a1, ho, habs⟩, hw, fun hb => ⟨hb.1, ?_⟩⟩
  have hlinked : (s.abs sb).begin_op.Linked := hb.2.of_node rfl
  exact (hlinked.opensOld ho).of_node (by rw [habs]; rfl)

theorem op_getattr (hl : Layout sb) (hroot : ROOTINO < sb.ninodes) (h : Wf sb s)
    (path : List UInt8) :
    Does sb (Xv6fs.op_getattr sb path) s fun _ s' =>
      Visits (s.abs sb) path 0 (s'.abs sb) ∧ Within sb s s' := by
  refine (h.open_old hl hroot path (by decide : has 0 O_CREAT = false)).bind ?_
  rintro r s1 h1 ⟨⟨a1, ho, habs1⟩, hw1, hb1⟩
  cases r with
  | none => exact .pure h1 ⟨habs1 ▸ .missing ho, hw1⟩
  | some i =>
    refine .get_bind ?_
    have hstat : Does sb (do_fillstatbuf (s1.files i).ip) s1 fun _ s' => s' = s1 :=
      .get_bind (.assert_bind ⟨by decide, by decide⟩ fun _ => .pure h1 rfl)
    refine hstat.bind fun st s2 h2 hs2 => ?_
    subst hs2
    refine (h2.ofile_close hl i).bind ?_
    rintro _ s3 h3 ⟨hclose, hw3⟩
    refine .pure h3 ⟨?_, hw1.trans hb1 hw3⟩
    rw [habs1] at hclose
    exact .visited ho hclose

end Wf

/-! ### Truncation -/

theorem AbsFs.load_of_mem {n : UInt16} (h : a.mem x = some n) : a.load x = a := by
  refine AbsFs.ext rfl rfl ?_ rfl rfl
  simp only [AbsFs.load, AbsFs.links, h, Option.getD_some]
  rw [← h]
  exact setAt_same (x := x) _

/-- The size that `op_truncate` gives a file: whole blocks. -/
def truncateSize (length : Nat) : UInt32 :=
  UInt32.ofNat ((length + BSIZE - 1) / BSIZE % 2 ^ 32 * BSIZE)

/-- What `op_truncate` does, with its result. -/
inductive Truncates (a : AbsFs) (path : List UInt8) (length : Nat) : Int → AbsFs → Prop
  | missing {a1 : AbsFs} (h : OpensOld a.begin_op path O_RDWR none a1) :
      Truncates a path length (-ENOENT) a1.end_op
  | resized {a1 a' : AbsFs} {i : Nat} (h : OpensOld a.begin_op path O_RDWR (some i) a1)
      (hclose : Closed (a1.end_op.resize (a1.files i).ip (truncateSize length).toNat) i a') :
      Truncates a path length 0 a'

/-- What follows the `do_open` of `op_truncate`, when it has opened a file. -/
theorem Wf.truncate_tail (hl : Layout sb) (h : Wf sb s) (i length : Nat) {n : UInt16}
    (hmem : (s.abs sb).mem (s.files i).ip = some n)
    (hfile : ((s.abs sb).node (s.files i).ip).type ≠ FileType.T_DIR) :
    Does sb (do
      let s ← get
      let ip := (s.files i).ip
      let n_block_new := (length + BSIZE - 1) / BSIZE % 2 ^ 32
      Fs.begin_op
      INode.lock sb ip
      modify_dinode ip fun dip => { dip with size := UInt32.ofNat (n_block_new * BSIZE) }
      INode.update sb ip
      INode.unlock ip
      Fs.end_op
      Xv6fs.ofile_close sb i
      pure (0 : Int)) s fun r s' =>
        (r = 0 ∧ Closed ((s.abs sb).resize (s.files i).ip (truncateSize length).toNat) i
          (s'.abs sb)) ∧ Within sb s s' := by
  refine .get_bind ?_
  dsimp only
  generalize hip : (s.files i).ip = ip at *
  refine h.begin_logs.bind fun _ s1 h1 hbegun => ?_
  refine (h1.lock_logs ip).bind ?_
  rintro _ s2 h2 ⟨⟨hr2, hv2, _⟩, hadds2⟩
  have habs2 : s2.abs sb = (s.abs sb).begin_op := by
    rw [hr2.abs, hbegun.abs]
    exact AbsFs.load_of_mem (n := n) hmem
  have ho2 : s2.outstanding ≥ 1 := by
    rw [outstanding_of_abs habs2]
    exact Nat.le_add_left 1 _
  have htype2 : (s2.inodes ip).dinode.type ≠ FileType.T_DIR := by
    rw [h2.type_eq hv2, habs2]
    exact hfile
  have hcosts : Costs (do
      modify_dinode ip fun dip => { dip with size := truncateSize length }
      INode.update sb ip) (own sb ip) 0 :=
    (Costs.modify_inode ip _).bind_free fun _ => Costs.update (by simp)
  rw [Does, ← Program.runs_bind_assoc]
  refine ((h2.resize_file hl ho2 hv2 htype2 (truncateSize length)).also (hcosts s2)).bind ?_
  rintro _ s3 h3 ⟨habs3, hadds3⟩
  refine (h3.unlock_logs ip).bind ?_
  rintro _ s4 h4 ⟨hr4, hadds4⟩
  refine h4.end_logs.bind ?_
  rintro _ s5 h5 ⟨habs5, hadds5⟩
  have habs5 : s5.abs sb = (s.abs sb).resize ip (truncateSize length).toNat := by
    rw [habs5, hr4.abs, habs3, habs2]
    rfl
  have hw5 : Within sb s s5 := by
    refine hbegun.within (K := own sb ip) (n := 0) (fun _ => ?_) ?_
    · have h3 := (hadds2.mono (Finset.empty_subset _) (Nat.le_refl 0)).then_same hadds3
      exact h3.then_same ((hadds4.then_same hadds5).mono (Finset.empty_subset _) (Nat.le_refl 0))
    · have := card_own_le sb ip
      omega
  refine (h5.ofile_close hl i).bind ?_
  rintro _ s6 h6 ⟨hclose, hw6⟩
  refine .pure h6 ⟨?_, ?_⟩
  · rw [habs5] at hclose
    exact ⟨rfl, hclose⟩
  · refine hw5.trans (fun hb => ⟨hb.1, ?_⟩) hw6
    rw [habs5]
    exact hb.2.resize hfile

/-- What the entry that is opened points to. -/
theorem OpensOld.points {path : List UInt8} {flags : Nat} (h : OpensOld a path flags (some i) a')
    (hflags : has flags O_TRUNC = false) : ∃ x, resolve a.node path = some x ∧
      (a'.files i).ip = x ∧ (a'.node x) = a.node x ∧ ∃ n, a'.mem x = some n := by
  cases h with
  | @found a1 _ x _ hip hd halloc hmem he =>
    cases he with
    | opened hi hfree hf href _ _ =>
      have ht : a1.truncated x flags = a1 := by
        rw [AbsFs.truncated, hflags, if_neg]
        exact fun h => Bool.false_ne_true h.1
      rw [ht]
      refine ⟨x, hip, ?_, hd.node_eq halloc, _, hmem⟩
      rw [← hf.ip]
      exact congrArg OFile.ip setAt_self

theorem Wf.op_truncate (hl : Layout sb) (hroot : ROOTINO < sb.ninodes) (h : Wf sb s)
    (path : List UInt8) (length : Nat)
    (hfile : ∀ x, resolve (s.abs sb).node path = some x →
      ((s.abs sb).node x).type ≠ FileType.T_DIR) :
    Does sb (op_truncate sb path length) s fun r s' =>
      Truncates (s.abs sb) path length r (s'.abs sb) ∧ Within sb s s' := by
  refine (h.open_old hl hroot path (by decide : has O_RDWR O_CREAT = false)).bind ?_
  rintro r s1 h1 ⟨⟨a1, ho, habs1⟩, hw1, hb1⟩
  cases r with
  | none => exact .pure h1 ⟨habs1 ▸ .missing ho, hw1⟩
  | some i =>
    obtain ⟨x, hx, hip, hnode, n, hmem⟩ := ho.points (by decide)
    have hip1 : (s1.files i).ip = x := by
      have := congrFun (congrArg AbsFs.files habs1) i
      rw [show s1.files i = a1.files i from this, hip]
    refine (h1.truncate_tail hl i length (n := n) ?_ ?_).imp
      fun _ s2 _ ⟨⟨hr, hclose⟩, hw2⟩ => ⟨?_, hw1.trans hb1 hw2⟩
    · rw [hip1, habs1]
      exact hmem
    · rw [hip1, habs1]
      show (a1.node x).type ≠ FileType.T_DIR
      rw [hnode]
      exact hfile x hx
    · rw [habs1, hip1, ← hip] at hclose
      rw [hr]
      exact .resized ho hclose

/-- The close of a handle of an inode that has links logs nothing. -/
theorem ofile_close_within (i : Nat) (hlinks : (s.inodes (s.files i).ip).dinode.nlink ≠ 0) :
    Runs (ofile_close sb i) s (fun _ s' => FitsBudget s.trace → FitsBudget s'.trace)
      fun _ => True := by
  have hput : ∀ {s1 : Fs}, s1.inodes = s.inodes → s1.trace = s.trace →
      Runs (do Fs.begin_op; inode_put sb (s.files i).ip; Fs.end_op) s1
        (fun _ s' => FitsBudget s.trace → FitsBudget s'.trace) fun _ => True := by
    intro s1 hinodes htrace
    have hno : ¬((s1.inodes (s.files i).ip).ref = 1 ∧ (s1.inodes (s.files i).ip).valid = true ∧
        (s1.inodes (s.files i).ip).dinode.nlink = 0) := fun h => hlinks (by rw [← hinodes]; exact h.2.2)
    simp only [inode_put, inode_drop, Fs.begin_op, Fs.end_op, Xv6fs.record, modify_inode, runs_bind,
      runs_get, runs_assert, runs_modify, if_neg hno]
    refine ⟨fun _ hfits => ?_, fun _ => trivial⟩
    rw [htrace]
    exact ⟨Nat.zero_le _, Nat.zero_le _, hfits⟩
  rw [ofile_close, runs_bind, runs_get, runs_bind, runs_assert]
  refine ⟨fun _ => runs_ite.mpr ⟨fun _ => id, fun _ => ?_⟩, fun _ => trivial⟩
  rw [modify_file, runs_bind, runs_modify]
  split
  · trivial
  · exact hput rfl rfl
  · exact hput rfl rfl

/-- `op_truncate` of anything keeps its transactions within the budget. -/
theorem Wf.op_truncate_within (hl : Layout sb) (hroot : ROOTINO < sb.ninodes) (h : Wf sb s)
    (path : List UInt8) (length : Nat) :
    Runs (Xv6fs.op_truncate sb path length) s (fun _ s' => Within sb s s') fun _ => True := by
  by_cases hfile : ∀ x, resolve (s.abs sb).node path = some x →
      ((s.abs sb).node x).type ≠ FileType.T_DIR
  · exact Runs.imp (h.op_truncate hl hroot path length hfile).any fun _ _ hs => hs.2.2
  · refine runs_imp fun hb => ?_
    refine Runs.bind (h.open_old hl hroot path (by decide : has O_RDWR O_CREAT = false)).any ?_
    rintro r s1 ⟨h1, ⟨a1, ho, habs1⟩, hw1, hb1⟩
    cases r with
    | none => exact hw1 hb
    | some i =>
      obtain ⟨x, hx, hip, hnode, n, hmem⟩ := ho.points (by decide)
      have hdir : ((s1.abs sb).node x).type = FileType.T_DIR := by
        rw [habs1]
        show (a1.node x).type = FileType.T_DIR
        rw [hnode]
        by_contra hne
        refine hfile fun y hy => ?_
        cases hx.symm.trans hy
        exact hne
      have hip1 : (s1.files i).ip = x := by
        have := congrFun (congrArg AbsFs.files habs1) i
        rw [show s1.files i = a1.files i from this, hip]
      obtain ⟨hv, -⟩ := valid_of_mem (show (s1.abs sb).mem x = some n from habs1 ▸ hmem)
      have hlinks : (s1.inodes x).dinode.nlink ≠ 0 := by
        have hlt := h1.valid_lt hv
        have hn := (hb1 hb).2 x hdir
        rw [abs_type hlt] at hdir
        rw [abs_nlink hlt] at hn
        rw [(h1.cached x).links hv hdir]
        exact hn
      rw [runs_bind, runs_get]
      simp only [hip1, Fs.begin_op, INode.lock, mtx_lock, modify_dinode, modify_inode, INode.update,
        store_dinode, modify_block, Fs.log_write, INode.unlock, mtx_unlock, Fs.end_op, Xv6fs.record,
        runs_bind, runs_get, runs_assert, runs_modify, runs_pure, setAt_self, hv,
        Bool.true_eq_false, if_false, implies_true, and_true]
      intro _ _ _ _ _ _
      refine (ofile_close_within i ?_).imp fun _ s2 hfits2 hfits => hfits2 ?_
      · simp only [hip1, setAt_self]
        exact hlinks
      · have hcard : ∀ b : Nat, ({b} : Finset Nat).card ≤ MAX_OP_BLOCKS := fun b => by
          rw [Finset.card_singleton]
          decide
        have hempty : (∅ : Finset Nat).card ≤ MAX_OP_BLOCKS := Nat.zero_le _
        exact ⟨hcard _, hcard _, hcard _, hempty, hempty, hempty, hw1 hb hfits⟩

end Xv6fs
