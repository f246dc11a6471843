import Xv6fs.Files.Listing
import Xv6fs.Files.Session
import Xv6fs.Fs.Rename

/-! `op_read` and `op_readdir`, which run outside of transactions, and `op_flush`.  Outside of a
transaction nothing is allocated and nothing is freed: `log_write` would end the process. -/

namespace Xv6fs

open Program (Runs runs_bind runs_pure runs_get runs_modify runs_assert runs_throw runs_ite runs_imp)

variable {sb : SuperBlock} {s s' s1 s2 : Fs} {x i : Nat} {a : AbsFs} {buf : Bytes.Source}

/-! ### References -/

/-- The end of a reference frees no inode, if it returns. -/
theorem Wf.inode_put_outside (h : Wf sb s) (hout : s.outstanding = 0) (x : Nat) :
    Runs (Xv6fs.inode_put sb x) s (fun _ s' => (Wf sb s' ∧ Reads sb s s' ((s.abs sb).drop x)) ∧
      Adds ∅ 0 s s') fun _ => True := by
  rw [Xv6fs.inode_put, runs_bind, runs_get, runs_ite]
  refine ⟨fun _ => ?_, fun _ => (h.inode_drop x).any.also (inode_drop_costs x s)⟩
  rw [runs_bind]
  exact inode_free_outside hout x

/-- The last reference leaves nothing in the cache, if its end returns. -/
theorem put_last_outside (hout : s.outstanding = 0) (href : (s.inodes x).ref = 1) :
    Runs (inode_put sb x) s (fun _ s' => Aside x s s' ∧ s'.inodes x = .absent ∧ Adds ∅ 0 s s')
      fun _ => True := by
  rw [inode_put, runs_bind, runs_get, runs_ite]
  refine ⟨fun _ => ?_, fun _ => ⟨.of_set rfl rfl rfl rfl, ?_, .of_trace rfl⟩⟩
  · rw [runs_bind]
    exact inode_free_outside hout x
  · simp only [setAt_self]
    rw [if_pos (by rw [href])]

theorem lock_ref (x : Nat) : Runs (INode.lock sb x) s (fun _ s' =>
    Aside x s s' ∧ (s'.inodes x).ref = (s.inodes x).ref) fun _ => True := by
  simp only [INode.lock, mtx_lock, Xv6fs.record, modify_inode, runs_bind, runs_get, runs_assert,
    runs_modify, runs_ite, runs_pure, setAt_setAt, setAt_self]
  exact ⟨fun _ => ⟨fun _ => ⟨fun _ => ⟨fun _ => ⟨.of_set rfl rfl rfl rfl, trivial⟩, fun _ => trivial⟩,
    fun _ => ⟨.of_set rfl rfl rfl rfl, trivial⟩⟩, fun _ => trivial⟩, fun _ => trivial⟩

/-! ### Reading -/

/-- What a step may change that only reads: what is in the cache, and the offsets of handles.  It
logs nothing. -/
structure ReadOnly (sb : SuperBlock) (s s' : Fs) : Prop where
  blocks : s'.blocks = s.blocks
  outstanding : s'.outstanding = s.outstanding
  files : ∀ i, s'.files i = { s.files i with off := (s'.files i).off }
  node : (s'.abs sb).node = (s.abs sb).node
  ref : (s'.abs sb).ref = (s.abs sb).ref
  kept : ∀ x n, (s.abs sb).mem x = some n → (s'.abs sb).mem x = some n
  fresh : ∀ x n, (s'.abs sb).mem x = some n → n = (s.abs sb).links x
  quiet : Adds ∅ 0 s s'

theorem AbsFs.mem_links {n : UInt16} {y : Nat} (h : a.mem y = some n) : n = a.links y := by
  rw [AbsFs.links, h, Option.getD_some]

namespace ReadOnly

theorem refl (s : Fs) : ReadOnly sb s s :=
  ⟨rfl, rfl, fun _ => rfl, rfl, rfl, fun _ _ h => h, fun _ _ => AbsFs.mem_links, .refl s⟩

theorem links (h : ReadOnly sb s s') (x : Nat) : (s'.abs sb).links x = (s.abs sb).links x := by
  cases hx : (s'.abs sb).mem x with
  | some n => rw [← AbsFs.mem_links hx, h.fresh x n hx]
  | none =>
    cases hx0 : (s.abs sb).mem x with
    | some n => rw [h.kept x n hx0] at hx; cases hx
    | none => rw [AbsFs.links, AbsFs.links, hx, hx0, h.node]

theorem trans (h : ReadOnly sb s s1) (h' : ReadOnly sb s1 s2) : ReadOnly sb s s2 where
  blocks := h'.blocks.trans h.blocks
  outstanding := h'.outstanding.trans h.outstanding
  files i := by rw [h'.files i, h.files i]
  node := h'.node.trans h.node
  ref := h'.ref.trans h.ref
  kept x n hx := h'.kept x n (h.kept x n hx)
  fresh x n hx := (h'.fresh x n hx).trans (h.links x)
  quiet := h.quiet.then_same h'.quiet

theorem of_reads (hr : Reads sb s s' a) (hout : a.outstanding = s.outstanding)
    (hfiles : a.files = s.files) (hnode : a.node = (s.abs sb).node) (href : a.ref = (s.abs sb).ref)
    (hkept : ∀ x n, (s.abs sb).mem x = some n → a.mem x = some n)
    (hfresh : ∀ x n, a.mem x = some n → n = (s.abs sb).links x) (hquiet : Adds ∅ 0 s s') :
    ReadOnly sb s s' where
  blocks := hr.blocks
  outstanding := hr.outstanding.trans hout
  files i := by
    have : s'.files = s.files := (congrArg AbsFs.files hr.abs).trans hfiles
    rw [this]
  node := by rw [hr.abs, hnode]
  ref := by rw [hr.abs, href]
  kept x n hx := by
    rw [hr.abs]
    exact hkept x n hx
  fresh x n hx := hfresh x n (hr.abs ▸ hx)
  quiet := hquiet

end ReadOnly

theorem AbsFs.load_kept {n : UInt16} {y : Nat} (h : a.mem y = some n) :
    (a.load x).mem y = some n := by
  simp only [AbsFs.load, setAt_apply]
  split
  · next heq =>
    rw [← heq, AbsFs.links, h]
    rfl
  · exact h

theorem AbsFs.load_fresh {n : UInt16} {y : Nat} (h : (a.load x).mem y = some n) : n = a.links y := by
  simp only [AbsFs.load, setAt_apply] at h
  split at h
  · next heq => rw [heq, Option.some.inj h]
  · exact AbsFs.mem_links h

theorem AbsFs.visit_fresh {n : UInt16} {y : Nat} (h : (((a.get x).load x).drop x).mem y = some n) :
    n = a.links y := by
  have hload : ∀ {m}, ((a.get x).load x).mem y = some m → m = a.links y := AbsFs.load_fresh (a := a.get x)
  simp only [AbsFs.drop, setAt_apply] at h
  split at h
  · next heq =>
    split at h
    · cases h
    · exact hload (heq ▸ h)
  · exact hload h

/-- A reference that is taken and ends leaves what was in memory. -/
theorem AbsFs.Normal.visit_kept {n : UInt16} {y : Nat} (hn : a.Normal) (h : a.mem y = some n) :
    (((a.get x).load x).drop x).mem y = some n := by
  have hload : ((a.get x).load x).mem y = some n := AbsFs.load_kept (a := a.get x) h
  simp only [AbsFs.drop, setAt_apply]
  split
  · next heq =>
    subst heq
    have hpos := hn.ref y n h
    rw [if_neg (by
      simp only [AbsFs.load, AbsFs.get, setAt_self]
      omega)]
    exact hload
  · exact hload

theorem AbsFs.visit_ref (a : AbsFs) (x : Nat) : (((a.get x).load x).drop x).ref = a.ref := by
  funext y
  simp only [AbsFs.drop, AbsFs.load, AbsFs.get, setAt_apply, if_pos]
  split
  · next heq =>
    rw [heq]
    exact Nat.add_sub_cancel _ 1
  · rfl

namespace Wf

theorem lock_read_only (h : Wf sb s) (x : Nat) :
    Runs (INode.lock sb x) s (fun _ s' => Wf sb s' ∧ ReadOnly sb s s' ∧
      (s'.inodes x).valid = true) fun _ => True := by
  refine (h.lock_logs x).any.imp ?_
  rintro _ s1 ⟨h1, ⟨hr, hv, -⟩, hadds⟩
  exact ⟨h1, .of_reads hr rfl rfl rfl rfl (fun _ _ => AbsFs.load_kept) (fun _ _ => AbsFs.load_fresh) hadds,
    hv⟩

/-- The offset of a handle changes. -/
theorem seek_outside (h : Wf sb s) (fh : Nat) (off : OFile → Nat) :
    Runs (Xv6fs.modify_file fh fun f => { f with off := off f }) s
      (fun _ s' => Wf sb s' ∧ ReadOnly sb s s' ∧ s'.outstanding = s.outstanding) fun _ => True := by
  refine ⟨h.congr rfl rfl, ⟨rfl, rfl, fun i => ?_, rfl, rfl, fun _ _ => id,
    fun _ _ => AbsFs.mem_links, .of_trace rfl⟩, rfl⟩
  simp only [setAt_apply]
  split
  · next heq => rw [heq]
  · rfl

theorem ofile_read_outside (h : Wf sb s) (hout : s.outstanding = 0) (fh : Nat) (buf : Bytes.Source)
    (n : Nat) : Runs (OFile.read sb fh buf n) s (fun _ s' => Wf sb s' ∧ ReadOnly sb s s')
      fun _ => True := by
  rw [OFile.read, runs_bind, runs_get, runs_ite]
  refine ⟨fun _ => ⟨h, .refl s⟩, fun _ => ?_⟩
  split
  · trivial
  · exact runs_ite.mpr ⟨fun _ => ⟨h, .refl s⟩, fun _ => ⟨h, .refl s⟩⟩
  · refine (h.lock_read_only _).bind ?_
    rintro _ s1 ⟨h1, hro1, -⟩
    refine (read_outside (hro1.outstanding.trans hout) _ _ _ _).bind ?_
    rintro ⟨r, buf'⟩ s2 rfl
    have h2 : Wf sb { s1 with trace := .access (s.files fh).ip :: s1.trace } := h1.congr rfl rfl
    refine (h2.seek_outside fh fun f => f.off + r).bind ?_
    rintro _ s3 ⟨h3, hro3, -⟩
    refine (h3.unlock_logs _).any.bind ?_
    rintro _ s4 ⟨h4, hr4, hadds4⟩
    have hro2 : ReadOnly sb s1 { s1 with trace := .access (s.files fh).ip :: s1.trace } :=
      .of_reads ⟨rfl, rfl⟩ rfl rfl rfl rfl (fun _ _ => id) (fun _ _ => AbsFs.mem_links)
        (.event rfl (by simp) (by simp))
    exact ⟨h4, ((hro1.trans hro2).trans hro3).trans
      (.of_reads hr4 rfl rfl rfl rfl (fun _ _ => id) (fun _ _ => AbsFs.mem_links) hadds4)⟩

theorem op_read_outside (h : Wf sb s) (hout : s.outstanding = 0) (fh : Nat) (buf : Bytes.Source)
    (size offset : Nat) : Runs (op_read sb fh buf size offset) s
      (fun _ s' => Wf sb s' ∧ ReadOnly sb s s') fun _ => True := by
  rw [Xv6fs.op_read, runs_bind, runs_get, runs_ite]
  refine ⟨fun _ => ⟨h, .refl s⟩, fun _ => ?_⟩
  refine (h.seek_outside fh fun _ => offset).bind ?_
  rintro _ s1 ⟨h1, hro1, hout1⟩
  refine (h1.ofile_read_outside (hout1.trans hout) fh buf _).bind ?_
  rintro ⟨r, buf'⟩ s2 ⟨h2, hro2⟩
  exact ⟨h2, hro1.trans hro2⟩

/-- What `op_readdir` does with an entry that names an inode. -/
theorem visit_outside (h : Wf sb s) (hout : s.outstanding = 0) (x : Nat) :
    Runs (do
      Xv6fs.inode_get x
      INode.lock sb x
      let st ← do_fillstatbuf x
      inode_unlock_put sb x
      pure st) s (fun _ s' => Wf sb s' ∧ ReadOnly sb s s') fun _ => True := by
  have hstat : ∀ s : Fs, Runs (do_fillstatbuf x) s (fun _ s' => s' = s) fun _ => True := by
    intro s
    simp only [do_fillstatbuf, runs_bind, runs_get, runs_assert, runs_pure]
    exact ⟨fun _ => trivial, fun _ => trivial⟩
  have hget : Runs (Xv6fs.inode_get x) s (fun _ s' => Adds ∅ 0 s s') fun _ => True := .of_trace rfl
  by_cases hx : x < sb.ninodes
  · refine ((h.inode_get hx).also hget).any.bind ?_
    rintro _ s1 ⟨h1, hr1, hadds1⟩
    refine (h1.lock_logs x).any.bind ?_
    rintro _ s2 ⟨h2, ⟨hr2, -, -⟩, hadds2⟩
    refine (hstat s2).bind ?_
    rintro st s2' hs2'
    subst hs2'
    rw [Xv6fs.inode_unlock_put, Program.runs_bind_assoc]
    refine (h2.unlock_logs x).any.bind ?_
    rintro _ s3 ⟨h3, hr3, hadds3⟩
    have hout3 : s3.outstanding = 0 := by
      rw [hr3.outstanding]
      exact hr2.outstanding.trans (hr1.outstanding.trans hout)
    refine (h3.inode_put_outside hout3 x).bind ?_
    rintro _ s4 ⟨⟨h4, hr4⟩, hadds4⟩
    have hvisit : Reads sb s s4 ((((s.abs sb).get x).load x).drop x) :=
      ⟨by rw [hr4.abs, hr3.abs, hr2.abs, hr1.abs],
        hr4.blocks.trans (hr3.blocks.trans (hr2.blocks.trans hr1.blocks))⟩
    exact ⟨h4, .of_reads hvisit rfl rfl rfl (AbsFs.visit_ref _ x) (fun _ _ => h.normal.visit_kept)
      (fun _ _ => AbsFs.visit_fresh)
      (((hadds1.then_same hadds2).then_same hadds3).then_same hadds4)⟩
  · -- the number is that of no inode, so nothing is left in the cache
    have habsent : s.inodes x = .absent := h.absent (Nat.eq_zero_of_not_pos fun hpos =>
      hx ((h.cached x).lt hpos))
    rw [runs_bind, Xv6fs.inode_get, modify_inode, runs_modify]
    refine ((lock_ref x).also (lock_costs (K := ∅) (n := 0) x _)).any.bind ?_
    rintro _ s1 ⟨⟨haside1, href1⟩, hadds1⟩
    simp only [setAt_self, habsent] at href1
    refine (hstat s1).bind ?_
    rintro st s1' hs1'
    subst hs1'
    rw [Xv6fs.inode_unlock_put, Program.runs_bind_assoc, INode.unlock, mtx_unlock, Xv6fs.record,
      modify_inode]
    simp only [runs_bind, runs_get, runs_assert, runs_modify, runs_pure]
    refine ⟨fun _ => ?_, fun _ => trivial⟩
    refine (put_last_outside ?_ ?_).imp ?_
    · exact haside1.outstanding.trans hout
    · simp only [setAt_self]
      exact href1
    · rintro _ s2 ⟨haside2, hx2, hadds2⟩
      have hset : Aside x s { s with
          inodes := setAt s.inodes x { s.inodes x with ref := (s.inodes x).ref + 1 } } :=
        .of_set rfl rfl rfl rfl
      have hunlock : Aside x s1' { s1' with
          trace := .unlock x :: s1'.trace
          inodes := setAt s1'.inodes x { s1'.inodes x with locked := false } } :=
        .of_set rfl rfl rfl rfl
      have haside := ((hset.trans haside1).trans hunlock).trans haside2
      have hinodes : s2.inodes = s.inodes := by
        funext y
        by_cases hy : y = x
        · rw [hy, hx2, habsent]
        · exact haside.others y hy
      have h2 := h.congr haside.blocks hinodes
      have habs : s2.abs sb = s.abs sb := by
        simp only [Fs.abs, Fs.dinode_eq, hinodes, haside.blocks, haside.files, haside.outstanding]
      have hquiet1 : Adds ∅ 0 s s1' := hget.then_same hadds1
      have hquiet2 : Adds ∅ 0 s1' { s1' with
          trace := .unlock x :: s1'.trace
          inodes := setAt s1'.inodes x { s1'.inodes x with locked := false } } :=
        .event rfl (by simp) (by simp)
      exact ⟨h2, .of_reads ⟨habs, haside.blocks⟩ rfl rfl rfl rfl (fun _ _ => id)
        (fun _ _ => AbsFs.mem_links)
        ((hquiet1.then_same hquiet2).then_same hadds2)⟩

theorem readdir_loop_outside (h : Wf sb s) (hout : s.outstanding = 0) (fh : Nat)
    (full : Nat → Bool) (fuel i : Nat) (got : List Filled) :
    Runs (readdir_loop sb fh full fuel i got) s (fun _ s' => Wf sb s' ∧ ReadOnly sb s s')
      fun _ => True := by
  induction fuel generalizing s i got with
  | zero => exact ⟨h, .refl s⟩
  | succ fuel ih =>
    rw [readdir_loop, runs_bind, runs_get, runs_ite]
    refine ⟨fun _ => ?_, fun _ => ⟨h, .refl s⟩⟩
    refine (h.ofile_read_outside hout fh _ _).bind ?_
    rintro ⟨r, buf⟩ s1 ⟨h1, hro1⟩
    have hout1 := hro1.outstanding.trans hout
    refine runs_ite.mpr ⟨fun _ => ?_, fun _ => ?_⟩
    · refine (ih h1 hout1 _ _).imp ?_
      rintro _ s2 ⟨h2, hro2⟩
      exact ⟨h2, hro1.trans hro2⟩
    · have hrun := (h1.visit_outside hout1 (DirEntry.load buf).inum.toNat).bind (f := fun st =>
          if full got.length then pure (-ENOMEM, got)
          else readdir_loop sb fh full fuel (i + DIRENT_SIZE)
            (⟨(DirEntry.load buf).str, st, i + DIRENT_SIZE⟩ :: got))
        (R := fun _ s' => Wf sb s' ∧ ReadOnly sb s s') (by
          rintro st s2 ⟨h2, hro2⟩
          have hro := hro1.trans hro2
          refine runs_ite.mpr ⟨fun _ => ⟨h2, hro⟩, fun _ => ?_⟩
          refine (ih h2 (hro.outstanding.trans hout) _ _).imp ?_
          rintro _ s3 ⟨h3, hro3⟩
          exact ⟨h3, hro.trans hro3⟩)
      simpa only [runs_bind, runs_pure] using hrun

theorem op_readdir_outside (h : Wf sb s) (hout : s.outstanding = 0) (fh : Nat) (full : Nat → Bool)
    (offset : Nat) : Runs (op_readdir sb fh full offset) s
      (fun _ s' => Wf sb s' ∧ ReadOnly sb s s') fun _ => True := by
  rw [Xv6fs.op_readdir, runs_bind, runs_get]
  refine runs_ite.mpr ⟨fun _ => ⟨h, .refl s⟩, fun _ => runs_ite.mpr ⟨fun _ => ⟨h, .refl s⟩,
    fun _ => h.readdir_loop_outside hout fh full _ _ _⟩⟩

end Wf

/-! ### Flushing -/

/-- Inode `x` is read, and is written back with the links that it has in memory. -/
def AbsFs.sync (a : AbsFs) (x : Nat) : AbsFs := (a.load x).setLinks x (a.links x)

namespace Wf

/-- The links of a directory in memory are those on disk. -/
theorem links_dir (h : Wf sb s) (htype : ((s.abs sb).node x).type = FileType.T_DIR) :
    (s.abs sb).links x = ((s.abs sb).node x).nlink := by
  rw [AbsFs.links]
  cases hmem : (s.abs sb).mem x with
  | none => rfl
  | some n => rw [← h.links_synced ⟨htype, n, hmem⟩, (valid_of_mem hmem).2]; rfl

/-- The transaction of `op_flush` for one inode. -/
theorem flush_one (hl : Layout sb) (h : Wf sb s) (x : Nat) :
    Does sb (do
      Fs.begin_op
      INode.lock sb x
      INode.update sb x
      INode.unlock x
      Fs.end_op) s fun _ s' => s'.abs sb = (s.abs sb).sync x ∧ Within sb s s' := by
  refine h.begin_logs.bind fun _ s1 h1 hbegun => ?_
  refine (h1.lock_logs x).bind ?_
  rintro _ s2 h2 ⟨⟨hr2, hv2, -⟩, hadds2⟩
  have ho2 : s2.outstanding ≥ 1 := by
    rw [hr2.outstanding]
    exact hbegun.outstanding
  refine ((h2.update hl hv2 ho2).also (Costs.update (K := own sb x) (n := 0) (by simp) s2)).bind ?_
  rintro _ s3 h3 ⟨habs3, hadds3⟩
  refine (h3.unlock_logs x).bind ?_
  rintro _ s4 h4 ⟨hr4, hadds4⟩
  refine h4.end_logs.imp ?_
  rintro _ s5 _ ⟨habs5, hadds5⟩
  have hcard := card_own_le sb x
  refine ⟨?_, hbegun.within (K := own sb x) (n := 0) (fun _ => ?_) (by omega)⟩
  · rw [habs5, hr4.abs, habs3, ← links_eq hv2, hr2.abs, AbsFs.links_load, hbegun.abs]
    rfl
  · have h2 := hadds2.mono (Finset.empty_subset (own sb x)) (Nat.le_refl 0)
    have h4 := (h2.then_same hadds3).then_same (hadds4.mono (Finset.empty_subset _) (Nat.le_refl 0))
    exact h4.then_same (hadds5.mono (Finset.empty_subset _) (Nat.le_refl 0))

end Wf

namespace AbsFs

theorem sync_links (a : AbsFs) (x y : Nat) : (a.sync x).links y = a.links y := by
  by_cases hy : y = x
  · subst hy
    simp only [sync, setLinks, setMem, load, links, modify, setAt_self, Option.getD_some]
  · simp only [sync, setLinks, setMem, load, links, modify, setAt_of_ne hy]

theorem sync_node (a : AbsFs) (x y : Nat) :
    (a.sync x).node y = if y = x then { a.node y with nlink := a.links y } else a.node y := by
  simp only [sync, setLinks, setMem, load, modify, setAt_apply]
  split
  · next heq => rw [heq]
  · rfl

theorem sync_mem (a : AbsFs) (x y : Nat) :
    (a.sync x).mem y = if y = x then some (a.links y) else a.mem y := by
  simp only [sync, setLinks, setMem, load, modify, setAt_apply]
  split
  · next heq => rw [heq]
  · rfl

/-- The inodes of a list after the transactions for each. -/
theorem sync_all (a : AbsFs) (l : List Nat) :
    (l.foldl sync a).ref = a.ref ∧ (l.foldl sync a).files = a.files ∧
      (l.foldl sync a).outstanding = a.outstanding ∧ (∀ y, (l.foldl sync a).links y = a.links y) ∧
      (∀ y, (l.foldl sync a).node y =
        if y ∈ l then { a.node y with nlink := a.links y } else a.node y) ∧
      ∀ y, (l.foldl sync a).mem y = if y ∈ l then some (a.links y) else a.mem y := by
  induction l generalizing a with
  | nil => simp
  | cons x rest ih =>
    obtain ⟨href, hfiles, hout, hlinks, hnode, hmem⟩ := ih (a.sync x)
    refine ⟨href, hfiles, hout, fun y => (hlinks y).trans (a.sync_links x y), fun y => ?_, fun y => ?_⟩
    · rw [List.foldl_cons, hnode, sync_links, sync_node]
      by_cases hy : y = x <;> by_cases hr : y ∈ rest <;> simp [hy, hr]
    · rw [List.foldl_cons, hmem, sync_links, sync_mem]
      by_cases hy : y = x <;> by_cases hr : y ∈ rest <;> simp [hy, hr]

end AbsFs

/-- What `op_flush` does: the links of each inode on disk become those in memory. -/
structure Flushed (a a' : AbsFs) : Prop where
  node : ∀ x, a'.node x = { a.node x with nlink := a.links x }
  mem : ∀ x, a'.mem x = if a.ref x = 0 then none else some (a.links x)
  ref : a'.ref = a.ref
  files : a'.files = a.files
  outstanding : a'.outstanding = a.outstanding

namespace Wf

theorem flush_loop (hl : Layout sb) (h : Wf sb s) (l : List Nat) :
    Does sb (op_flush_loop sb l) s fun _ s' =>
      s'.abs sb = l.foldl AbsFs.sync (s.abs sb) ∧ Within sb s s' := by
  induction l generalizing s with
  | nil => exact .pure h ⟨rfl, .refl sb s⟩
  | cons x rest ih =>
    have hrun : Does sb (do
        (do
          Fs.begin_op
          INode.lock sb x
          INode.update sb x
          INode.unlock x
          Fs.end_op)
        op_flush_loop sb rest) s fun _ s' =>
          s'.abs sb = (x :: rest).foldl AbsFs.sync (s.abs sb) ∧ Within sb s s' := by
      refine (h.flush_one hl x).bind ?_
      rintro _ s1 h1 ⟨habs1, hw1⟩
      refine (ih h1).imp ?_
      rintro _ s2 _ ⟨habs2, hw2⟩
      refine ⟨by rw [habs2, habs1]; rfl, hw1.trans (fun hb => ⟨hb.1, fun y hy => ?_⟩) hw2⟩
      rw [habs1, AbsFs.sync_node] at hy ⊢
      split at hy
      · rw [if_pos ‹_›]
        show (s.abs sb).links y ≠ 0
        rw [h.links_dir hy]
        exact hb.2 y hy
      · rw [if_neg ‹_›]
        exact hb.2 y hy
    simpa only [Does, op_flush_loop, runs_bind] using hrun

/-- `op_flush` writes all cached inodes back, each in a transaction of its own. -/
theorem op_flush (hl : Layout sb) (h : Wf sb s) :
    Does sb (op_flush sb) s fun r s' =>
      r = 0 ∧ Flushed (s.abs sb) (s'.abs sb) ∧ Within sb s s' := by
  refine .get_bind ((h.flush_loop hl _).bind ?_)
  rintro _ s1 h1 ⟨habs1, hw1⟩
  refine .pure h1 ⟨rfl, ?_, hw1⟩
  obtain ⟨href, hfiles, hout, -, hnode, hmem⟩ := AbsFs.sync_all (s.abs sb)
    ((List.range (max (2 ^ 16) sb.ninodes)).filter fun x => (s.inodes x).ref ≠ 0)
  rw [← habs1] at href hfiles hout hnode hmem
  have hin : ∀ x, x ∈ ((List.range (max (2 ^ 16) sb.ninodes)).filter fun x =>
      (s.inodes x).ref ≠ 0) ↔ (s.abs sb).ref x ≠ 0 := by
    intro x
    rw [List.mem_filter, List.mem_range]
    constructor
    · rintro ⟨-, hx⟩
      exact of_decide_eq_true hx
    · intro hx
      have := (h.cached x).lt (Nat.pos_of_ne_zero hx)
      exact ⟨by omega, decide_eq_true hx⟩
  have hnone : ∀ x, (s.abs sb).ref x = 0 → (s.abs sb).mem x = none := by
    intro x hx
    simp only [Fs.abs, h.absent hx]
    rfl
  refine ⟨fun x => ?_, fun x => ?_, href, hfiles, hout⟩
  · rw [hnode]
    split
    · rfl
    · next hno =>
      rw [hin, not_not] at hno
      rw [AbsFs.links, hnone x hno]
      rfl
  · rw [hmem]
    by_cases hx : (s.abs sb).ref x = 0
    · rw [if_neg (by rw [hin, not_not]; exact hx), if_pos hx, hnone x hx]
    · rw [if_pos ((hin x).mpr hx), if_neg hx]

end Wf

end Xv6fs
