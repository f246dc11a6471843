import Xv6fs.Files.Writing
import Xv6fs.Fs.Access

/-! The budget of the transactions of `OFile::write` on an image with any number of bitmap blocks.  A
transaction touches at most four blocks; when it touches four, the first one is mapped or there is an
indirect block already, so that what it allocates always fits. -/

namespace Xv6fs

open Program (Runs runs_bind runs_pure runs_get runs_modify runs_assert runs_ite)

variable {sb : SuperBlock} {s s' s1 : Fs} {x k i : Nat} {buf : Bytes.Source} {n off : Nat}

/-- Entry `k` of the `addrs` of inode `x` in memory. -/
abbrev Fs.addr (s : Fs) (x k : Nat) : Nat := ((s.inodes x).dinode.addr k).toNat

/-- What allocations for inode `x` leave: entries that were in use are as they were. -/
structure Keeps (x : Nat) (s s' : Fs) : Prop where
  files : s'.files = s.files
  outstanding : s'.outstanding = s.outstanding
  valid : (s'.inodes x).valid = (s.inodes x).valid
  addr : ∀ k, s.addr x k ≠ 0 → s'.addr x k = s.addr x k

namespace Keeps

theorem refl (s : Fs) : Keeps x s s := ⟨rfl, rfl, rfl, fun _ _ => rfl⟩

theorem of_mem (h : SameMem s s') : Keeps x s s' where
  files := h.files
  outstanding := h.outstanding
  valid := by rw [h.inodes]
  addr k _ := by rw [Fs.addr, h.inodes]

theorem trans (h : Keeps x s s1) (h' : Keeps x s1 s') : Keeps x s s' where
  files := h'.files.trans h.files
  outstanding := h'.outstanding.trans h.outstanding
  valid := h'.valid.trans h.valid
  addr k hk := by
    rw [h'.addr k (by rw [h.addr k hk]; exact hk), h.addr k hk]

theorem ne (h : Keeps x s s') (hk : s.addr x k ≠ 0) : s'.addr x k ≠ 0 := by
  rw [h.addr k hk]
  exact hk

end Keeps

theorem Adds.absorb_one {b : Nat} (h : Adds {b} n s s') : Adds ∅ (n + 1) s s' :=
  Adds.absorb (by rwa [insert_empty_eq])

/-! ### What is logged -/

/-- `block_alloc` logs its result and one more block. -/
theorem block_alloc_any : Runs (block_alloc sb) s (fun b s' => Adds {b} 1 s s') fun _ => True := by
  have loop : ∀ fuel c, Runs (block_alloc_from sb fuel c) s (fun b s' => Adds {b} 1 s s')
      fun _ => True := by
    intro fuel
    induction fuel with
    | zero => exact fun _ => Adds.refl s
    | succ fuel ih =>
      intro c
      rw [block_alloc_from]
      refine runs_ite.mpr ⟨fun _ => runs_bind.mpr ?_, fun _ => Adds.refl s⟩
      rw [runs_get]
      split
      · next bi hbi =>
        rw [← Program.runs_bind_assoc]
        refine Runs.bind (Costs.modify_log_write (K := {BIT_BLOCK sb c, c + bi}) (n := 0) _ (by simp)
          s) fun _ s1 h1 => ?_
        refine Runs.bind (Costs.modify_log_write (K := {BIT_BLOCK sb c, c + bi}) (n := 0) _ (by simp)
          s1) fun _ s2 h2 => ?_
        exact (h1.then_same h2).absorb
      · exact ih _
  exact loop _ _

/-- What `block_alloc` returns and what it leaves. -/
theorem block_alloc_keeps (hsize : sb.size < 2 ^ 32) (ho : s.outstanding ≥ 1) :
    Runs (block_alloc sb) s (fun b s' => SameMem s s' ∧ b < 2 ^ 32 ∧ Adds {b} 1 s s') TooBig := by
  refine ((block_alloc_runs ho).also block_alloc_any).imp ?_
  rintro b s' ⟨h, hadds⟩
  refine ⟨h.mem, ?_, hadds⟩
  rcases h.blocks with ⟨rfl, -⟩ | ⟨hb, -⟩
  · exact Nat.two_pow_pos 32
  · omega

/-- `block_map_addr` logs its result and one more block, and puts its result in the entry. -/
theorem block_map_addr_keeps (hsize : sb.size < 2 ^ 32) (ho : s.outstanding ≥ 1) (k : Nat)
    (hk : k < NDIRECT + 1) : Runs (block_map_addr sb x k) s (fun b s' =>
      Keeps x s s' ∧ (b ≠ 0 → s'.addr x k = b) ∧ Adds {b} 1 s s') TooBig := by
  rw [block_map_addr, runs_bind, runs_get]
  refine runs_ite.mpr ⟨fun h0 => ?_, fun _ => ⟨.refl s, fun _ => rfl, .refl s⟩⟩
  refine (block_alloc_keeps hsize ho).bind ?_
  rintro b s1 ⟨hmem, hb, hadds⟩
  refine runs_ite.mpr ⟨fun hb0 => ?_, fun hb0 => ?_⟩
  · subst hb0
    exact ⟨.of_mem hmem, fun hne => absurd rfl hne, hadds⟩
  · simp only [modify_dinode, modify_inode, runs_bind, runs_modify, runs_pure]
    refine ⟨⟨hmem.files, hmem.outstanding, ?_, fun k' hk' => ?_⟩, fun _ => ?_,
      hadds.then_same (.of_trace rfl)⟩
    · simp only [setAt_self, hmem.inodes]
    · have hne : k' ≠ k := fun heq => hk' (heq ▸ h0)
      simp only [Fs.addr, setAt_self, hmem.inodes]
      by_cases hlt : k' < NDIRECT + 1
      · rw [DiskINode.addr_setAddr _ _ hlt, if_neg hne]
      · rw [DiskINode.addr_of_le _ (Nat.le_of_not_lt hlt), DiskINode.addr_of_le _ (Nat.le_of_not_lt hlt)]
    · simp only [Fs.addr, setAt_self]
      rw [DiskINode.addr_setAddr _ _ hk, if_pos rfl, UInt32.toNat_ofNat', Nat.mod_eq_of_lt hb]

/-- `block_map_indirect` logs the indirect block, its result and one more block. -/
theorem block_map_indirect_keeps (hsize : sb.size < 2 ^ 32) (ho : s.outstanding ≥ 1) (ind j : Nat) :
    Runs (block_map_indirect sb ind j) s (fun b s' => SameMem s s' ∧ Adds {ind, b} 1 s s')
      TooBig := by
  rw [block_map_indirect, runs_bind, runs_get]
  refine runs_ite.mpr ⟨fun _ => ?_, fun _ => ⟨.refl s, .refl s⟩⟩
  refine (block_alloc_keeps hsize ho).bind ?_
  rintro b s1 ⟨hmem, hb, hadds⟩
  have hadds : Adds {ind, b} 1 s s1 := hadds.mono (Finset.subset_insert _ _) (Nat.le_refl 1)
  refine runs_ite.mpr ⟨fun _ => ?_, fun _ => ⟨hmem, hadds⟩⟩
  rw [← Program.runs_bind_assoc]
  refine ((modify_log_write_runs _ (hmem.outstanding ▸ ho)).also
    (Costs.modify_log_write (K := {ind, b}) (n := 0) _ (by simp) s1)).bind ?_
  rintro _ s2 ⟨h2, hadds2⟩
  exact ⟨hmem.trans h2.1, hadds.then_same hadds2⟩

/-- A store to a block that is mapped. -/
theorem store_keeps (ho : s.outstanding ≥ 1) (b : Nat) (f : BlockData → BlockData) :
    Runs (do modify_block b f; Fs.log_write sb b) s
      (fun _ s' => Keeps x s s' ∧ Adds {b} 0 s s') TooBig := by
  refine ((modify_log_write_runs f ho).also
    (Costs.modify_log_write (K := {b}) (n := 0) f (by simp) s)).imp ?_
  rintro _ s' ⟨h, hadds⟩
  exact ⟨.of_mem h.1, hadds⟩

/-- `block_map` of an inode with the indirect block `ind` logs this, its result and one more block. -/
theorem block_map_keeps (hsize : sb.size < 2 ^ 32) (ho : s.outstanding ≥ 1) {l : Nat}
    (hl : l < MAX_FILE) (hind : s.addr x NDIRECT ≠ 0) : Runs (block_map sb x l) s
      (fun b s' => Keeps x s s' ∧ Adds {s.addr x NDIRECT, b} 1 s s') TooBig := by
  rw [block_map]
  refine runs_ite.mpr ⟨fun hdirect => ?_, fun hdirect => runs_ite.mpr ⟨fun _ => ?_, fun hge => ?_⟩⟩
  · refine (block_map_addr_keeps hsize ho l (by omega)).imp ?_
    rintro b s' ⟨hkeeps, _, hadds⟩
    exact ⟨hkeeps, hadds.mono (Finset.subset_insert _ _) (Nat.le_refl 1)⟩
  · refine (block_map_addr_found hind).bind ?_
    rintro b s1 ⟨hb, hs1⟩
    subst hb hs1
    rw [if_neg hind]
    refine (block_map_indirect_keeps hsize ho _ _).imp ?_
    rintro b s' ⟨hmem, hadds⟩
    exact ⟨.of_mem hmem, hadds⟩
  · rw [MAX_FILE] at hl
    omega

/-- The rest of an iteration of `write`, once the block is known. -/
theorem write_rest {K : Finset Nat} {b c d : Nat} {f : BlockData → BlockData} {m : Prog (Nat × Nat)}
    {Q : Nat × Nat → Fs → Prop} (ho : s1.outstanding ≥ 1) (hkeeps : Keeps x s s1)
    (hadds : Adds (insert b K) c s s1)
    (hm : ∀ s2, Keeps x s1 s2 → s2.outstanding ≥ 1 → Runs m s2
      (fun r s' => Keeps x s2 s' ∧ Adds K d s2 s' ∧ Q r s') TooBig) :
    Runs (do modify_block b f; Fs.log_write sb b; m) s1
      (fun r s' => Keeps x s s' ∧ Adds K (c + 1 + d) s s' ∧ Q r s') TooBig := by
  rw [← Program.runs_bind_assoc]
  refine (store_keeps (x := x) ho b f).bind ?_
  rintro _ s2 ⟨hkeeps2, hadds2⟩
  refine (hm s2 hkeeps2 (hkeeps2.outstanding ▸ ho)).imp ?_
  rintro r s' ⟨hkeeps3, hadds3, hq⟩
  refine ⟨(hkeeps.trans hkeeps2).trans hkeeps3, ?_, hq⟩
  have hb : Adds (insert b K) 0 s1 s2 := hadds2.mono (by simp) (Nat.le_refl 0)
  exact (hadds.then_same hb).absorb.trans hadds3

theorem block_lt {tot : Nat} (hlt : tot < n) (hmax : off + (n - tot) ≤ MAX_SIZE) :
    off / BSIZE < MAX_FILE := by
  apply Nat.div_lt_of_lt_mul
  rw [Nat.mul_comm]
  exact Nat.lt_of_lt_of_le (by omega) hmax

/-- `write` to an inode with an indirect block logs this, and two blocks for each that it touches. -/
theorem write_loop_indirect (hsize : sb.size < 2 ^ 32) (fuel tot : Nat) (ho : s.outstanding ≥ 1)
    (hind : s.addr x NDIRECT ≠ 0) (hmax : off + (n - tot) ≤ MAX_SIZE) :
    Runs (INode.write_loop sb x buf n fuel tot off) s (fun _ s' => Keeps x s s' ∧
      Adds {s.addr x NDIRECT} (2 * touched off (n - tot)) s s') TooBig := by
  induction fuel generalizing s tot off with
  | zero => exact ⟨.refl s, .refl s⟩
  | succ fuel ih =>
    rw [INode.write_loop]
    refine runs_ite.mpr ⟨fun hlt => ?_, fun _ => ⟨.refl s, .refl s⟩⟩
    have hstep := touched_step off (n := n - tot) (by omega) rfl
    rw [Nat.sub_sub] at hstep
    have hl : off / BSIZE < MAX_FILE := block_lt hlt hmax
    refine (block_map_keeps hsize ho hl hind).bind ?_
    rintro b s1 ⟨hkeeps, hadds⟩
    rw [Finset.pair_comm] at hadds
    refine runs_ite.mpr ⟨fun _ => ⟨hkeeps, hadds.absorb.mono (Finset.Subset.refl _) (by omega)⟩,
      fun _ => ?_⟩
    refine (write_rest (Q := fun _ _ => True) (d := 2 * touched
      (off + min (n - tot) (BSIZE - off % BSIZE)) (n - (tot + min (n - tot) (BSIZE - off % BSIZE))))
      (hkeeps.outstanding ▸ ho) hkeeps hadds fun s2 hkeeps2 ho2 => ?_).imp
      fun r s' h => ⟨h.1, h.2.1.mono (Finset.Subset.refl _) (by omega)⟩
    have haddr := (hkeeps.trans hkeeps2).addr NDIRECT hind
    rw [← haddr]
    exact (ih (tot + min (n - tot) (BSIZE - off % BSIZE)) ho2 (haddr ▸ hind) (by omega)).imp
      fun r s' h => ⟨h.1, h.2, trivial⟩

/-- The block at offset `off` of an inode is mapped when `off` lies within it, or there is an indirect
block. -/
def Reached (dip : DiskINode) (off : Nat) : Prop :=
  (dip.addr NDIRECT).toNat ≠ 0 ∨ off % BSIZE = 0 ∨
    off / BSIZE < NDIRECT ∧ (dip.addr (off / BSIZE)).toNat ≠ 0

theorem Keeps.reached (h : Keeps x s s') (hr : Reached (s.inodes x).dinode off) : Reached (s'.inodes x).dinode off :=
  hr.imp h.ne (Or.imp id fun hr => ⟨hr.1, h.ne hr.2⟩)

/-- The next offset lies in the block that has been written, or at the start of a block. -/
theorem reached_next {m : Nat} (hdirect : off / BSIZE < NDIRECT) (hm : m ≤ BSIZE - off % BSIZE)
    (haddr : s.addr x (off / BSIZE) ≠ 0) : Reached (s.inodes x).dinode (off + m) := by
  simp only [BSIZE] at hm
  obtain hlt | heq := Nat.lt_or_eq_of_le hm
  · have hblock : (off + m) / BSIZE = off / BSIZE := by
      simp only [BSIZE]
      omega
    refine .inr (.inr ?_)
    rw [hblock]
    exact ⟨hdirect, haddr⟩
  · refine .inr (.inl ?_)
    simp only [BSIZE]
    omega

/-- What a `write` at `off` may log beside two blocks for each that it touches: the indirect block and
its block of the bitmap, and one less when the first block is mapped. -/
def beside (off : Nat) : Nat := if off % BSIZE = 0 then 2 else 1

theorem beside_le (off : Nat) : beside off ≤ 2 := by
  unfold beside
  split <;> omega

theorem beside_pos (off : Nat) : 1 ≤ beside off := by
  unfold beside
  split <;> omega

theorem beside_aligned (h : off % BSIZE = 0) : beside off = 2 := if_pos h

/-- A `write` logs two blocks for each that it touches, and those beside them. -/
theorem write_loop_reached (hsize : sb.size < 2 ^ 32) (fuel tot : Nat) (ho : s.outstanding ≥ 1)
    (hmax : off + (n - tot) ≤ MAX_SIZE) (hr : Reached (s.inodes x).dinode off) :
    Runs (INode.write_loop sb x buf n fuel tot off) s (fun r s' => Keeps x s s' ∧
      Adds ∅ (2 * touched off (n - tot) + beside off) s s' ∧
      Reached (s'.inodes x).dinode r.2) TooBig := by
  induction fuel generalizing s tot off with
  | zero => exact ⟨.refl s, .refl s, hr⟩
  | succ fuel ih =>
    by_cases hind : s.addr x NDIRECT ≠ 0
    · refine (write_loop_indirect hsize (fuel + 1) tot ho hind hmax).imp ?_
      rintro r s' ⟨hkeeps, hadds⟩
      have hpos := beside_pos off
      exact ⟨hkeeps, hadds.absorb_one.mono (Finset.Subset.refl _) (by omega), .inl (hkeeps.ne hind)⟩
    rw [INode.write_loop]
    refine runs_ite.mpr ⟨fun hlt => ?_, fun _ => ⟨.refl s, .refl s, hr⟩⟩
    have hstep := touched_step off (n := n - tot) (by omega) rfl
    rw [Nat.sub_sub] at hstep
    generalize hm : min (n - tot) (BSIZE - off % BSIZE) = m at hstep ⊢
    have hl : off / BSIZE < MAX_FILE := block_lt hlt hmax
    have hind0 : s.addr x NDIRECT = 0 := not_not.mp hind
    -- The rest, when the block has been found or allocated directly.
    have hrest : ∀ {s1 : Fs} {b c : Nat}, Keeps x s s1 → Adds {b} c s s1 →
        s1.addr x (off / BSIZE) ≠ 0 → off / BSIZE < NDIRECT →
        c + 1 ≤ beside off →
        Runs (do
          modify_block b fun d => d.put (off % BSIZE) m fun i => buf (tot + i)
          Fs.log_write sb b
          INode.write_loop sb x buf n fuel (tot + m) (off + m)) s1 (fun r s' => Keeps x s s' ∧
            Adds ∅ (2 * touched off (n - tot) + beside off) s s' ∧
            Reached (s'.inodes x).dinode r.2) TooBig := by
      intro s1 b c hkeeps hadds haddr hdirect hc
      refine (write_rest (K := ∅) (c := c) (Q := fun r s' => Reached (s'.inodes x).dinode r.2)
        (hkeeps.outstanding ▸ ho) hkeeps (by rwa [insert_empty_eq])
        fun s2 hkeeps2 ho2 => ih (tot + m) ho2 (by omega)
          (hkeeps2.reached (reached_next hdirect (by omega) haddr))).imp ?_
      rintro r s' ⟨hkeeps', hadds', hr'⟩
      refine ⟨hkeeps', hadds'.mono (Finset.Subset.refl _) ?_, hr'⟩
      have hle := beside_le (off + m)
      omega
    rw [block_map]
    by_cases hdirect : off / BSIZE < NDIRECT
    · rw [if_pos hdirect]
      by_cases haddr : s.addr x (off / BSIZE) ≠ 0
      · refine (block_map_addr_found haddr).bind ?_
        rintro b s1 ⟨hb, hs1⟩
        rw [hb, hs1, if_neg haddr]
        exact hrest (c := 0) (.refl s) (.refl s) haddr hdirect (beside_pos off)
      · have haligned : off % BSIZE = 0 := hr.elim (absurd · hind) fun hr => hr.resolve_right
          fun h => haddr h.2
        refine (block_map_addr_keeps hsize ho _ (by omega)).bind ?_
        rintro b s1 ⟨hkeeps, hb, hadds⟩
        refine runs_ite.mpr ⟨fun _ => ?_, fun hne => ?_⟩
        · exact ⟨hkeeps, hadds.absorb_one.mono (Finset.Subset.refl _) (by omega), hkeeps.reached hr⟩
        · exact hrest hkeeps hadds (hb hne ▸ hne) hdirect (Nat.le_of_eq (beside_aligned haligned).symm)
    · have hj : off / BSIZE - NDIRECT < NINDIRECT := by
        rw [MAX_FILE] at hl
        omega
      have haligned : off % BSIZE = 0 := hr.elim (absurd · hind) fun hr => hr.resolve_right
        fun h => hdirect h.1
      rw [if_neg hdirect, if_pos hj, beside_aligned haligned, Program.runs_bind_assoc]
      refine (block_map_addr_keeps hsize ho NDIRECT (by decide)).bind ?_
      rintro ind s1 ⟨hkeeps, hind1, hadds⟩
      by_cases h0 : ind = 0
      · rw [if_pos h0]
        exact ⟨hkeeps, hadds.absorb_one.mono (Finset.Subset.refl _) (by omega), hkeeps.reached hr⟩
      have hne1 : s1.addr x NDIRECT ≠ 0 := hind1 h0 ▸ h0
      rw [if_neg h0]
      refine (block_map_indirect_keeps hsize (hkeeps.outstanding ▸ ho) ind _).bind ?_
      rintro b s2 ⟨hmem2, hadds2⟩
      have hkeeps2 : Keeps x s1 s2 := .of_mem hmem2
      have hadds : Adds (insert b {ind}) 2 s s2 := by
        rw [Finset.pair_comm] at hadds2
        exact (hadds.mono (by simp) (Nat.le_refl 1)).trans hadds2
      refine runs_ite.mpr ⟨fun _ => ⟨hkeeps.trans hkeeps2, ?_, .inl (hkeeps2.ne hne1)⟩, fun _ => ?_⟩
      · exact hadds.absorb.absorb_one.mono (Finset.Subset.refl _) (by omega)
      · refine (write_rest (K := {ind}) (Q := fun _ s' => s'.addr x NDIRECT ≠ 0)
          (d := 2 * touched (off + m) (n - (tot + m))) ((hkeeps.trans hkeeps2).outstanding ▸ ho)
          (hkeeps.trans hkeeps2) hadds fun s3 hkeeps3 ho3 => ?_).imp
          fun r s' h => ⟨h.1, h.2.1.absorb_one.mono (Finset.Subset.refl _) (by omega), .inl h.2.2⟩
        have hkeeps13 := hkeeps2.trans hkeeps3
        have haddr : s3.addr x NDIRECT = ind := (hkeeps13.addr NDIRECT hne1).trans (hind1 h0)
        rw [← haddr]
        have hne3 := hkeeps13.ne hne1
        refine (write_loop_indirect hsize fuel (tot + m) ho3 hne3 (by omega)).imp ?_
        rintro r s' ⟨hkeeps', hadds'⟩
        exact ⟨hkeeps', hadds', hkeeps'.ne hne3⟩

theorem write_loop_off (fuel tot : Nat) : Runs (INode.write_loop sb x buf n fuel tot off) s
    (fun r _ => r.2 + tot = off + r.1) fun _ => True := by
  induction fuel generalizing s tot off with
  | zero => exact rfl
  | succ fuel ih =>
    rw [INode.write_loop]
    refine runs_ite.mpr ⟨fun _ => ?_, fun _ => rfl⟩
    refine Program.runs_true.bind fun b s1 _ => runs_ite.mpr ⟨fun _ => rfl, fun _ => ?_⟩
    refine Program.runs_true.bind fun _ s2 _ => Program.runs_true.bind fun _ s3 _ => ?_
    exact (ih _).imp fun r s' h => by omega

/-- An `INode::write` of a chunk logs the inode and at most nine other blocks. -/
theorem write_reached (hsize : sb.size < 2 ^ 32) (ho : s.outstanding ≥ 1) (hn : n ≤ 3 * BSIZE)
    (hr : Reached (s.inodes x).dinode off) :
    Runs (INode.write sb x buf off n) s (fun r s' => Keeps x s s' ∧
      Adds {INODE_BLOCK sb x} 9 s s' ∧ (r = n → Reached (s'.inodes x).dinode (off + r))) TooBig := by
  have htouched : 2 * touched off n + beside off ≤ 9 := by
    unfold touched beside
    simp only [BSIZE] at *
    split <;> split <;> omega
  have hrefused : ∀ {s : Fs}, UINT32_ERR = n → Reached (s.inodes x).dinode (off + UINT32_ERR) := by
    intro s heq
    rw [← heq] at hn
    exact absurd hn (by decide)
  rw [INode.write, record, runs_bind, runs_modify, runs_bind, runs_get]
  generalize hs0 : ({ s with trace := .access x :: s.trace } : Fs) = s0
  have hkeeps0 : Keeps x s s0 := by
    subst hs0
    exact ⟨rfl, rfl, rfl, fun _ _ => rfl⟩
  have hadds0 : Adds {INODE_BLOCK sb x} 0 s s0 := by
    subst hs0
    exact .event rfl (by simp) (by simp)
  refine runs_ite.mpr ⟨fun _ => ⟨hkeeps0, hadds0.mono (Finset.Subset.refl _) (by omega), hrefused⟩,
    fun _ => runs_ite.mpr ⟨fun _ => ⟨hkeeps0, hadds0.mono (Finset.Subset.refl _) (by omega),
      hrefused⟩, fun hmax => ?_⟩⟩
  have hmax : off + (n - 0) ≤ MAX_SIZE := Nat.le_of_not_lt hmax
  refine ((write_loop_reached hsize n 0 (hkeeps0.outstanding ▸ ho) hmax (hkeeps0.reached hr)).also
    (write_loop_off n 0)).bind ?_
  rintro r s1 ⟨⟨hkeeps1, hadds1, hr1⟩, hoff⟩
  dsimp only
  have hadds1 : Adds {INODE_BLOCK sb x} 9 s0 s1 := hadds1.mono (Finset.empty_subset _) htouched
  rw [modify_dinode, modify_inode, runs_bind, runs_modify]
  generalize hs2 : ({ s1 with inodes := _ } : Fs) = s2
  have hkeeps2 : Keeps x s1 s2 := by
    subst hs2
    refine ⟨rfl, rfl, by simp only [setAt_self], fun k _ => ?_⟩
    simp only [Fs.addr, setAt_self]
    split <;> rfl
  have hadds2 : Adds {INODE_BLOCK sb x} 0 s1 s2 := by
    subst hs2
    exact .of_trace rfl
  have ho2 : s2.outstanding ≥ 1 := by
    rw [hkeeps2.outstanding, hkeeps1.outstanding, hkeeps0.outstanding]
    exact ho
  refine ((update_runs sb ho2).also (Costs.update (K := {INODE_BLOCK sb x}) (n := 0) (by simp)
    s2)).bind ?_
  rintro _ s3 ⟨⟨hmem3, _⟩, hadds3⟩
  rw [runs_pure]
  have hkeeps := (hkeeps1.trans hkeeps2).trans (.of_mem hmem3)
  refine ⟨hkeeps0.trans hkeeps, ?_, fun _ => ?_⟩
  · exact ((hadds0.trans hadds1).then_same (hadds2.then_same hadds3)).mono (Finset.Subset.refl _)
      (by omega)
  · rw [← hoff, Nat.add_zero]
    exact (hkeeps2.trans (.of_mem hmem3)).reached hr1

/-! ### The transactions -/

/-- Inode `x` as its lock shows it. -/
def Fs.copy (sb : SuperBlock) (s : Fs) (x : Nat) : DiskINode :=
  if (s.inodes x).valid = true then (s.inodes x).dinode else s.dinode sb x

theorem lock_copy (x : Nat) : Runs (INode.lock sb x) s (fun _ s' =>
    (s'.inodes x).valid = true ∧ (s'.inodes x).dinode = s.copy sb x ∧ s'.files = s.files ∧
      s'.outstanding = s.outstanding ∧ s'.log = s.log ∧ Adds ∅ 0 s s') fun e => ¬TooBig e := by
  simp only [INode.lock, mtx_lock, Xv6fs.record, modify_inode, runs_bind, runs_get, runs_assert,
    runs_modify, runs_ite, runs_pure, Fs.copy]
  have hadds : ∀ {inodes : Nat → INode}, Adds ∅ 0 s
      { s with trace := .lock x :: s.trace, inodes } := .event rfl (by simp) (by simp)
  refine ⟨fun _ => ⟨fun _ => ⟨fun hv => ⟨fun _ => ?_, fun _ h => by cases h⟩, fun hv => ?_⟩,
    fun _ h => by cases h⟩, fun _ h => by cases h⟩
  · simp only [setAt_self, hv]
    exact ⟨trivial, rfl, trivial, trivial, trivial, hadds⟩
  · have hv : (s.inodes x).valid = true := Bool.eq_true_of_not_eq_false hv
    simp only [setAt_self, hv]
    exact ⟨trivial, rfl, trivial, trivial, trivial, hadds⟩

/-- What a transaction of `OFile::write` leaves for the next one. -/
structure Passes (sb : SuperBlock) (i : Nat) (s s' : Fs) : Prop where
  fits : FitsBudget s.trace → FitsBudget s'.trace
  rest : s.outstanding = 0 → s'.outstanding = 0 ∧ s'.log = []
  ip : (s'.files i).ip = (s.files i).ip

/-- A transaction of `OFile::write` fits its budget, and its blocks fit in an empty log. -/
theorem write_section_reached (hsize : sb.size < 2 ^ 32) (hn : n ≤ 3 * BSIZE)
    (hr : Reached (s.copy sb (s.files i).ip) (s.files i).off) :
    Runs (write_section sb i buf n) s (fun r s' => Passes sb i s s' ∧
      (r = n → Reached (s'.copy sb (s'.files i).ip) (s'.files i).off))
      fun e => TooBig e → s.log = [] → ¬LOG_SIZE ≤ sb.nlog := by
  rw [write_section]
  have hbegin : Runs Fs.begin_op s (fun _ s1 => s1.trace = .begin_op :: s.trace ∧
      s1.outstanding = s.outstanding + 1 ∧ s1.log = s.log ∧ s1.files = s.files ∧
      s1.copy sb (s.files i).ip = s.copy sb (s.files i).ip)
      fun e => TooBig e → s.log = [] → ¬LOG_SIZE ≤ sb.nlog := by
    simp only [Fs.begin_op, Xv6fs.record, runs_bind, runs_get, runs_assert, runs_modify]
    exact ⟨fun _ => ⟨trivial, trivial, trivial, trivial, rfl⟩, fun _ h => by cases h⟩
  refine hbegin.bind ?_
  rintro _ s1 ⟨htrace1, hout1, hlog1, hfiles1, hcopy1⟩
  rw [runs_bind, runs_get]
  dsimp only
  rw [hfiles1]
  rw [← hcopy1] at hr
  generalize hf : s.files i = f at hr ⊢
  refine ((lock_copy f.ip).mono (fun _ _ h => h) fun e hno h => absurd h hno).bind ?_
  rintro _ s2 ⟨hv2, hdip2, hfiles2, hout2, hlog2, hadds2⟩
  rw [← hdip2] at hr
  have hwrite : Runs (INode.write sb f.ip buf f.off n) s2 (fun r s3 => Keeps f.ip s2 s3 ∧
      Adds {INODE_BLOCK sb f.ip} 9 s2 s3 ∧ (r = n → Reached (s3.inodes f.ip).dinode (f.off + r)))
      fun e => TooBig e → s.log = [] → ¬LOG_SIZE ≤ sb.nlog := by
    refine ((write_reached hsize (by omega) hn hr).both (write_logs f.ip buf f.off n s2)).mono
      (fun _ _ h => h.1) ?_
    rintro e ⟨htoobig, hroom⟩ - hempty hnlog
    have hroom := hroom htoobig
    have hlog : s2.log.length = 0 := by rw [hlog2, hlog1, hempty, List.length_nil]
    have htouched := touched_le f.off hn
    have hsize : LOG_SIZE = 30 := rfl
    have hlimit : 29 ≤ Fs.log_limit sb := Nat.le_min.mpr ⟨by decide, by omega⟩
    dsimp only at hroom
    omega
  refine hwrite.bind ?_
  rintro r s3 ⟨hkeeps3, hadds3, hr3⟩
  simp only [modify_file, INode.unlock, mtx_unlock, Xv6fs.record, modify_inode, Fs.end_op, runs_bind,
    runs_get, runs_assert, runs_modify, runs_pure]
  have hfile3 : s3.files i = f := by rw [hkeeps3.files, hfiles2, hfiles1, hf]
  refine ⟨fun _ => ⟨⟨fun hfits => ?_, fun hout => ?_, ?_⟩, fun hrn => ?_⟩, fun _ h => by cases h⟩
  · have hadds : Adds {INODE_BLOCK sb f.ip} 9 s1 s3 :=
      ((hadds2.mono (Finset.empty_subset _) (Nat.le_refl 0)).trans hadds3).mono
        (Finset.Subset.refl _) (by omega)
    have hunlock : Adds {INODE_BLOCK sb f.ip} 0 s3 { s3 with
        trace := .unlock f.ip :: s3.trace } := .event rfl (by simp) (by simp)
    have hend : Adds {INODE_BLOCK sb f.ip} 0 s3 { s3 with
        trace := .end_op :: .unlock f.ip :: s3.trace } :=
      hunlock.then_same (.event rfl (by simp) (by simp))
    refine (hadds.then_same hend).fits ?_ ?_ (by simp)
    · rw [htrace1]
      rfl
    · rw [htrace1]
      exact ⟨Nat.zero_le _, hfits⟩
  · have hzero : s3.outstanding - 1 = 0 := by
      rw [hkeeps3.outstanding, hout2, hout1, hout]
    exact ⟨hzero, if_pos hzero⟩
  · simp only [setAt_self, hfile3, hf]
  · simp only [Fs.copy, setAt_self, hfile3]
    rw [if_pos (hkeeps3.valid.trans hv2)]
    exact hr3 hrn

/-- Each transaction of the loop of `OFile::write` fits its budget. -/
theorem write_loop_chunked (hsize : sb.size < 2 ^ 32) (fuel done : Nat)
    (hr : Reached (s.copy sb (s.files i).ip) (s.files i).off) :
    Runs (OFile.write_loop sb i buf n fuel done) s (fun _ s' => FitsBudget s.trace → FitsBudget s'.trace)
      fun e => TooBig e → s.outstanding = 0 → s.log = [] → ¬LOG_SIZE ≤ sb.nlog := by
  induction fuel generalizing s done with
  | zero => exact id
  | succ fuel ih =>
    by_cases hlt : done < n
    · refine runs_write_chunk hlt (((write_section_reached hsize (Nat.min_le_right _ _) hr).mono ?_ ?_))
      · rintro r s1 ⟨hchunk, hr1⟩
        refine ⟨fun _ => hchunk.fits, fun heq => ((ih (done + r) (hr1 heq)).mono ?_ ?_)⟩
        · exact fun _ _ hfits h => hfits (hchunk.fits h)
        · intro e he htoobig hout _ hnlog
          obtain ⟨hout1, hlog1⟩ := hchunk.rest hout
          exact he htoobig hout1 hlog1 hnlog
      · exact fun e he htoobig _ => he htoobig
    · rw [OFile.write_loop, if_neg hlt]
      exact id

/-- Every transaction of an `OFile::write` to an inode whose blocks below its size are mapped fits its
budget, and the log does not get too big when it is empty at the start. -/
theorem ofile_write_fits (hsize : sb.size < 2 ^ 32) (s : Fs) (i : Nat) (buf : Bytes.Source) (n : Nat)
    (hmapped : ∀ l, l * BSIZE < (s.copy sb (s.files i).ip).size.toNat →
      slot s.blocks (s.copy sb (s.files i).ip) (fslot l) ≠ 0)
    (hoff : (s.files i).off ≤ (s.copy sb (s.files i).ip).size.toNat) :
    Runs (OFile.write sb i buf n) s (fun _ s' => FitsBudget s.trace → FitsBudget s'.trace)
      fun e => TooBig e → s.outstanding = 0 → s.log = [] → ¬LOG_SIZE ≤ sb.nlog := by
  have hr : Reached (s.copy sb (s.files i).ip) (s.files i).off := by
    by_cases haligned : (s.files i).off % BSIZE = 0
    · exact .inr (.inl haligned)
    · have hne := hmapped ((s.files i).off / BSIZE) (by
        have := Nat.div_add_mod (s.files i).off BSIZE
        rw [Nat.mul_comm]
        omega)
      by_cases hdirect : (s.files i).off / BSIZE < NDIRECT
      · rw [fslot, if_pos hdirect, slot_addr (by omega)] at hne
        exact .inr (.inr ⟨hdirect, hne⟩)
      · rw [fslot, if_neg hdirect, slot, if_neg (by omega)] at hne
        exact .inl fun h0 => hne (if_pos h0)
  rw [OFile.write, runs_bind, runs_get]
  refine runs_ite.mpr ⟨fun _ => id, fun _ => ?_⟩
  split
  · intro h
    cases h
  · exact runs_ite.mpr ⟨fun _ => id, fun _ => id⟩
  · exact (write_loop_chunked hsize n 0 hr).bind fun _ _ h1 => h1

/-- Two blocks and a half of a new file. -/
theorem ofile_write_fits_new : Runs (OFile.write smallSb 0 (fun _ => 1) 2560) (holeFs 0 0)
    (fun _ s' => FitsBudget (holeFs 0 0).trace → FitsBudget s'.trace)
    fun e => TooBig e → (holeFs 0 0).outstanding = 0 → (holeFs 0 0).log = [] →
      ¬LOG_SIZE ≤ smallSb.nlog :=
  ofile_write_fits (by decide) (holeFs 0 0) 0 _ 2560 (fun l hl => absurd hl (Nat.not_lt_zero _))
    (Nat.le_refl 0)

end Xv6fs
