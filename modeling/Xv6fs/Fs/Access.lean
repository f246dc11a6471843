import Xv6fs.Fs.Close

/-! `op_write`, `op_flush`, `op_read` and `op_readdir` on the abstract state. -/

namespace Xv6fs

open Program (Runs runs_bind runs_pure runs_get runs_modify runs_assert runs_throw runs_ite runs_imp)

variable {sb : SuperBlock} {s s' s1 s2 s3 : Fs} {x y i : Nat} {a a' a1 a2 : AbsFs}

/-- Writes to inode `x`: it may have grown and been written back, and offsets of handles have
changed. -/
structure Grown (a : AbsFs) (x : Nat) (a' : AbsFs) : Prop where
  files : ∀ i, ∃ off, a'.files i = { a.files i with off }
  outstanding : a'.outstanding = a.outstanding
  ref : a'.ref = a.ref
  others : ∀ y, y ≠ x → a'.node y = a.node y ∧ a'.mem y = a.mem y
  type : (a'.node x).type = (a.node x).type
  dir : (a'.node x).dir = (a.node x).dir
  keeps : (a.node x).Keeps (a'.node x)
  whole : (a.node x).Whole → (a'.node x).Whole
  nlink : (a'.node x).nlink = (a.node x).nlink ∨ (a'.node x).nlink = a.links x
  mem : a'.mem x = a.mem x ∨ a'.mem x = some (a.links x)

namespace Grown

theorem refl (a : AbsFs) (x : Nat) : Grown a x a where
  files i := ⟨(a.files i).off, rfl⟩
  outstanding := rfl
  ref := rfl
  others _ _ := ⟨rfl, rfl⟩
  type := rfl
  dir := rfl
  keeps _ _ := rfl
  whole := id
  nlink := .inl rfl
  mem := .inl rfl

theorem links (h : Grown a x a') : a'.links x = a.links x := by
  rcases h.mem with hm | hm
  · cases hx : a.mem x with
    | some n => simp only [AbsFs.links, hm, hx, Option.getD_some]
    | none =>
      rcases h.nlink with hn | hn
      · simp only [AbsFs.links, hm, hx, Option.getD_none, hn]
      · simp only [AbsFs.links, hm, hx, Option.getD_none] at hn ⊢
        exact hn
  · simp only [AbsFs.links, hm, Option.getD_some]

theorem trans (h : Grown a x a1) (h' : Grown a1 x a2) : Grown a x a2 where
  files i := by
    obtain ⟨off, h1⟩ := h.files i
    obtain ⟨off', h2⟩ := h'.files i
    exact ⟨off', by rw [h2, h1]⟩
  outstanding := h'.outstanding.trans h.outstanding
  ref := h'.ref.trans h.ref
  others y hy := ⟨(h'.others y hy).1.trans (h.others y hy).1, (h'.others y hy).2.trans (h.others y hy).2⟩
  type := h'.type.trans h.type
  dir := h'.dir.trans h.dir
  keeps k hk := by
    have h1 := h.keeps k hk
    rw [h'.keeps k (by rw [h1]; exact hk), h1]
  whole hw := h'.whole (h.whole hw)
  nlink := by
    rcases h'.nlink with hn | hn
    · rw [hn]
      exact h.nlink
    · exact .inr (hn.trans h.links)
  mem := by
    rcases h'.mem with hm | hm
    · rw [hm]
      exact h.mem
    · exact .inr (by rw [hm, h.links])

theorem load (a : AbsFs) (x : Nat) : Grown a x (a.load x) :=
  { refl a x with
    others := fun _ hy => ⟨rfl, setAt_of_ne hy⟩
    mem := .inr setAt_self }

theorem setFileEntry (a : AbsFs) (x i off : Nat) :
    Grown a x (a.setFileEntry i { a.files i with off }) :=
  { refl a x with
    files := fun j => by
      simp only [AbsFs.setFileEntry, setAt_apply]
      split
      · next hj => exact ⟨off, by rw [hj]⟩
      · exact ⟨(a.files j).off, rfl⟩ }

theorem step (h : a.FileStep x a') (hkeeps : (a.node x).Keeps (a'.node x))
    (hwhole : (a.node x).Whole → (a'.node x).Whole) : Grown a x a' := by
  rcases h with rfl | ⟨size, slots, bytes, rfl⟩
  · exact refl a' x
  · exact { refl a x with
      others := fun y hy => by
        simp only [AbsFs.setFile, AbsFs.setLinks, AbsFs.setMem, AbsFs.modify, setAt_of_ne hy]
        exact ⟨trivial, trivial⟩
      type := by simp only [AbsFs.setFile, AbsFs.setLinks, AbsFs.setMem, AbsFs.modify, setAt_self]
      dir := by simp only [AbsFs.setFile, AbsFs.setLinks, AbsFs.setMem, AbsFs.modify, setAt_self]
      keeps := hkeeps
      whole := hwhole
      nlink := .inr (by
        simp only [AbsFs.setFile, AbsFs.setLinks, AbsFs.setMem, AbsFs.modify, setAt_self])
      mem := .inr setAt_self }

/-- The writes of a transaction. -/
theorem transaction (h : Grown a.begin_op x a') : Grown a x a'.end_op where
  files := h.files
  outstanding := by
    show a'.outstanding - 1 = a.outstanding
    rw [h.outstanding]
    exact Nat.add_sub_cancel _ _
  ref := h.ref
  others := h.others
  type := h.type
  dir := h.dir
  keeps := h.keeps
  whole := h.whole
  nlink := h.nlink
  mem := h.mem

theorem linked (h : Grown a x a') (ha : a.Linked) (hx : (a.node x).type ≠ FileType.T_DIR) :
    a'.Linked := by
  intro y hy
  by_cases hyx : y = x
  · subst hyx
    exact absurd (h.type.symm.trans hy) hx
  · rw [(h.others y hyx).1] at hy ⊢
    exact ha y hy

end Grown

/-! ### Writing -/

/-- A write of at most three blocks touches at most four. -/
theorem touched_le (off : Nat) {n : Nat} (hn : n ≤ 3 * BSIZE) : touched off n ≤ 4 := by
  unfold touched
  split
  · omega
  · simp only [BSIZE] at *
    omega

/-- The program of one transaction of `OFile::write`. -/
def write_section (sb : SuperBlock) (i : Nat) (buf : Bytes.Source) (n : Nat) : Prog Nat := do
  Fs.begin_op
  let s ← get
  let f := s.files i
  INode.lock sb f.ip
  let r ← INode.write sb f.ip buf f.off n
  modify_file i fun f => { f with off := f.off + r }
  INode.unlock f.ip
  Fs.end_op
  pure r

/-- An iteration of `OFile::write` is a transaction, and the rest when it has written its chunk. -/
theorem runs_write_chunk {Q : Nat → Fs → Prop} {E : Fault → Prop} {buf : Bytes.Source}
    {n fuel done : Nat} (hlt : done < n)
    (hstep : Runs (write_section sb i (fun k => buf (done + k)) (min (n - done) (3 * BSIZE))) s
      (fun r s1 => (r ≠ min (n - done) (3 * BSIZE) → Q done s1) ∧
        (r = min (n - done) (3 * BSIZE) →
          Runs (OFile.write_loop sb i buf n fuel (done + r)) s1 Q E)) E) :
    Runs (OFile.write_loop sb i buf n (fuel + 1) done) s Q E := by
  have hmax : (MAX_OP_BLOCKS - 1 - 1 - 2) / 2 * BSIZE = 3 * BSIZE := rfl
  rw [OFile.write_loop, if_pos hlt]
  dsimp only
  rw [hmax]
  have hrun := hstep.bind (f := fun r =>
      if r ≠ min (n - done) (3 * BSIZE) then pure done
      else OFile.write_loop sb i buf n fuel (done + r)) (R := Q)
    fun r s1 hs1 => runs_ite.mpr ⟨fun hne => hs1.1 hne, fun heq => hs1.2 (not_not.mp heq)⟩
  simpa only [write_section, runs_bind, runs_get, runs_pure] using hrun

/-- An iteration of `OFile::write` is a transaction that writes at most three blocks, and then the
rest. -/
theorem runs_write_loop {Q : Nat → Fs → Prop} {E : Fault → Prop} {buf : Bytes.Source}
    {n fuel done : Nat} (h0 : Q done s)
    (hstep : ∀ n1 ≤ 3 * BSIZE, Runs (write_section sb i (fun k => buf (done + k)) n1) s
      (fun r s1 => Q done s1 ∧ Runs (OFile.write_loop sb i buf n fuel (done + r)) s1 Q E) E) :
    Runs (OFile.write_loop sb i buf n (fuel + 1) done) s Q E := by
  by_cases hlt : done < n
  · exact runs_write_chunk hlt ((hstep _ (Nat.min_le_right _ _)).imp fun _ _ hs1 =>
      ⟨fun _ => hs1.1, fun _ => hs1.2⟩)
  · rw [OFile.write_loop, if_neg hlt]
    exact h0

/-- A transaction of `OFile::write` fits its budget, whatever the state is. -/
theorem write_section_fits (hone : sb.size ≤ BIT_PER_BLOCK) (buf : Bytes.Source) {n : Nat}
    (hn : n ≤ 3 * BSIZE) : Runs (write_section sb i buf n) s
      (fun _ s' => FitsBudget s.trace → FitsBudget s'.trace) fun _ => True := by
  have hbegin : Runs Fs.begin_op s (fun _ s' => s'.trace = .begin_op :: s.trace) fun _ => True := by
    simp only [Fs.begin_op, Xv6fs.record, runs_bind, runs_get, runs_assert, runs_modify]
    exact ⟨fun _ => trivial, fun _ => trivial⟩
  refine hbegin.bind fun _ s1 ht => ?_
  rw [runs_bind, runs_get]
  generalize s1.files i = f
  have hcosts : Costs (do
      INode.lock sb f.ip
      let r ← INode.write sb f.ip buf f.off n
      modify_file i fun f => { f with off := f.off + r }
      INode.unlock f.ip
      Fs.end_op
      pure r) (own sb f.ip) 8 := by
    have htouched := touched_le f.off hn
    have hend : Costs Fs.end_op (own sb f.ip) 0 :=
      (Costs.record (by simp) (by simp)).bind_free fun _ => .modify fun _ => rfl
    refine (lock_costs f.ip).bind_free fun _ => ?_
    refine ((write_costs hone f.ip buf f.off n).bind_rest fun r => ?_).mono
      (Finset.Subset.refl _) (by omega)
    exact Costs.bind_free (.modify fun _ => rfl) fun _ => (unlock_costs f.ip).bind_free fun _ =>
      hend.bind_free fun _ => .pure
  refine (hcosts s1).imp fun _ s2 hadds hfits => hadds.fits ?_ ?_ ?_
  · rw [ht]
    rfl
  · rw [ht]
    exact ⟨Nat.zero_le _, hfits⟩
  · have := card_own_le sb f.ip
    exact (by omega : (own sb f.ip).card + 8 ≤ 10)

theorem write_loop_fits (hone : sb.size ≤ BIT_PER_BLOCK) (buf : Bytes.Source) (n fuel done : Nat) :
    Runs (OFile.write_loop sb i buf n fuel done) s
      (fun _ s' => FitsBudget s.trace → FitsBudget s'.trace) fun _ => True := by
  induction fuel generalizing s done with
  | zero => exact id
  | succ fuel ih =>
    exact runs_write_loop id fun n1 hn1 => (write_section_fits hone _ hn1).imp fun r s1 h1 =>
      ⟨h1, (ih (done + r)).imp fun _ _ h2 hfits => h2 (h1 hfits)⟩

/-- `op_write` keeps its transactions within the budget, whatever the state is. -/
theorem op_write_fits (hone : sb.size ≤ BIT_PER_BLOCK) (fh : Nat) (buf : Bytes.Source)
    (size offset : Nat) : Runs (op_write sb fh buf size offset) s
      (fun _ s' => FitsBudget s.trace → FitsBudget s'.trace) fun _ => True := by
  rw [op_write, runs_bind, runs_get]
  refine runs_ite.mpr ⟨fun _ => id, fun _ => ?_⟩
  rw [OFile.write, runs_bind, runs_get]
  refine runs_ite.mpr ⟨fun _ => id, fun _ => ?_⟩
  split
  · trivial
  · exact runs_ite.mpr ⟨fun _ => id, fun _ => id⟩
  · exact (write_loop_fits hone buf _ _ _).bind fun _ _ h1 => h1

namespace Wf

/-- One transaction of `OFile::write` to a file. -/
theorem write_section (hl : Layout sb) (h : Wf sb s) (i : Nat) (buf : Bytes.Source) (n : Nat)
    (hfile : ((s.abs sb).node (s.files i).ip).type ≠ FileType.T_DIR) :
    Does sb (write_section sb i buf n) s fun _ s' =>
      Grown (s.abs sb) (s.files i).ip (s'.abs sb) := by
  refine h.begin_logs.bind fun _ s1 h1 hbegun => .get_bind ?_
  have hfiles1 : s1.files = s.files := congrArg AbsFs.files hbegun.abs
  dsimp only
  rw [hfiles1]
  generalize s.files i = f at *
  refine (h1.lock f.ip).bind ?_
  rintro _ s2 h2 ⟨hr2, hv2, _⟩
  have ho2 : s2.outstanding ≥ 1 := hr2.outstanding.symm ▸ hbegun.outstanding
  have hx2 : (s2.inodes f.ip).dinode.type ≠ FileType.T_DIR := by
    rw [h2.type_eq hv2, hr2.abs, hbegun.abs]
    exact hfile
  refine (h2.write_file hl ho2 hv2 hx2 f.off n).bind ?_
  rintro r s3 h3 ⟨hstep, hkeeps, hwhole⟩
  refine (h3.modify_file i _).bind ?_
  rintro _ s4 h4 ⟨habs4, _, _⟩
  refine (h4.unlock f.ip).bind fun _ s5 h5 hr5 => ?_
  refine h5.end_op.bind fun _ s6 h6 hr6 => .pure h6 ?_
  have hgrown : Grown (s1.abs sb) f.ip (s5.abs sb) := by
    rw [hr5.abs, habs4]
    have hload := Grown.load (s1.abs sb) f.ip
    rw [← hr2.abs] at hload
    exact (hload.trans (.step hstep hkeeps hwhole)).trans (.setFileEntry _ _ _ _)
  rw [hbegun.abs] at hgrown
  rw [hr6.abs]
  exact hgrown.transaction

theorem write_loop (hl : Layout sb) (h : Wf sb s) (i : Nat) (buf : Bytes.Source) (n fuel done : Nat)
    (hfile : ((s.abs sb).node (s.files i).ip).type ≠ FileType.T_DIR) :
    Does sb (OFile.write_loop sb i buf n fuel done) s fun _ s' =>
      Grown (s.abs sb) (s.files i).ip (s'.abs sb) := by
  induction fuel generalizing s done with
  | zero => exact .pure h (.refl _ _)
  | succ fuel ih =>
    refine runs_write_loop ⟨h, .refl _ _⟩ fun n1 _ =>
      Runs.imp (h.write_section hl i _ n1 hfile) fun r s1 ⟨h1, hgrown⟩ => ⟨⟨h1, hgrown⟩, ?_⟩
    have hip : (s1.files i).ip = (s.files i).ip := by
      obtain ⟨off, hoff⟩ := hgrown.files i
      rw [show s1.files i = _ from hoff]
      rfl
    refine Does.imp (ih h1 (done + r) ?_) fun _ s2 _ hgrown2 => ?_
    · rw [hip, hgrown.type]
      exact hfile
    · rw [hip] at hgrown2
      exact hgrown.trans hgrown2

/-- `op_write` to a file. -/
theorem op_write (hl : Layout sb) (h : Wf sb s) (fh : Nat) (buf : Bytes.Source) (size offset : Nat)
    (hfile : (s.files fh).type = .FD_INODE →
      ((s.abs sb).node (s.files fh).ip).type ≠ FileType.T_DIR) :
    Does sb (op_write sb fh buf size offset) s fun _ s' =>
      Grown (s.abs sb) (s.files fh).ip (s'.abs sb) := by
  refine .get_bind (.ite (fun _ => .pure h (.refl _ _)) fun _ => ?_)
  refine .get_bind (.ite (fun _ => .pure h (.refl _ _)) fun _ => ?_)
  split
  · exact .throw ⟨by decide, by decide⟩
  · exact .ite (fun _ => .pure h (.refl _ _)) fun _ => .pure h (.refl _ _)
  · next htype =>
    exact (h.write_loop hl fh buf _ _ _ (hfile htype)).bind fun _ _ h1 hgrown => .pure h1 hgrown

end Wf

end Xv6fs
