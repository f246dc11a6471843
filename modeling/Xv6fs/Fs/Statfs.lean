import Xv6fs.Fs.Space
import Xv6fs.Fs.Steps
import Xv6fs.Lib.Repeat
import Xv6fs.Mkfs

/-! `op_statfs`, and how often `block_alloc` and `inode_alloc` succeed.  The number of free blocks that
it reports is right, and the number of free inodes is always one too high: inode `0` counts as free
and is never allocated. -/

namespace Xv6fs

open Program (Runs Succeeds runs_bind runs_pure runs_get runs_modify runs_assert)

/-- What `op_statfs` fills in. -/
structure StatVfs where
  f_bsize : Nat
  f_frsize : Nat
  f_blocks : Nat
  f_bfree : Nat
  f_bavail : Nat
  f_files : Nat
  f_ffree : Nat
  f_favail : Nat
  f_namemax : Nat

/-- The loop of `op_statfs` over the bits of a bitmap block. -/
def count_bits (d : BlockData) (limit : Nat) : (fuel bi block_cnt : Nat) → Nat
  | 0, _, block_cnt => block_cnt
  | fuel + 1, bi, block_cnt =>
    if bi < limit then
      count_bits d limit fuel (bi + 1) (if bit_set d bi then block_cnt + 1 else block_cnt)
    else block_cnt

variable (sb : SuperBlock)

/-- The loop of `op_statfs` over the blocks of the bitmap, from that of block `b` on. -/
def count_blocks (blocks : Nat → BlockData) : (fuel b block_cnt : Nat) → Nat
  | 0, _, block_cnt => block_cnt
  | fuel + 1, b, block_cnt =>
    if b < sb.size then
      count_blocks blocks fuel (b + BIT_PER_BLOCK)
        (count_bits (blocks (BIT_BLOCK sb b)) (sb.size - b) BIT_PER_BLOCK 0 block_cnt)
    else block_cnt

/-- The loop of `op_statfs` over the inodes. -/
def count_inodes (blocks : Nat → BlockData) : (fuel inum inode_cnt : Nat) → Nat
  | 0, _, inode_cnt => inode_cnt
  | fuel + 1, inum, inode_cnt =>
    if inum < sb.ninodes then
      count_inodes blocks fuel (inum + 1)
        (if (dinodeAt sb blocks inum).type ≠ FileType.Invalid then inode_cnt + 1 else inode_cnt)
    else inode_cnt

/-- The difference of two 64-bit words. -/
def sub64 (a b : Nat) : Nat := (2 ^ 64 + a - b) % 2 ^ 64

theorem sub64_of_le {a b : Nat} (hle : b ≤ a) (ha : a < 2 ^ 64) : sub64 a b = a - b := by
  unfold sub64
  omega

def op_statfs : Prog (Int × StatVfs) := do
  let s ← get
  let block_cnt := count_blocks sb s.blocks sb.size 0 0
  let inode_cnt := count_inodes sb s.blocks sb.ninodes 1 0
  pure (0, {
    f_bsize := BSIZE
    f_frsize := BSIZE
    f_blocks := FSSIZE
    f_bfree := sub64 FSSIZE block_cnt
    f_bavail := sub64 FSSIZE block_cnt
    f_files := inode_cnt
    f_ffree := sub64 NINODES inode_cnt
    f_favail := sub64 NINODES inode_cnt
    f_namemax := DIRSIZ })

/-! ### What the scans count -/

variable {sb} {s s' : Fs} {blocks : Nat → BlockData}

theorem count_bits_eq {p : Nat → Bool} {d : BlockData} {base limit : Nat}
    (hp : ∀ bi < BIT_PER_BLOCK, p (base + bi) = bit_set d bi) (fuel : Nat) {bi block_cnt : Nat}
    (hfuel : bi + fuel = BIT_PER_BLOCK) (hbi : bi ≤ limit)
    (hcnt : block_cnt = Nat.count (p · = true) (base + bi)) :
    count_bits d limit fuel bi block_cnt =
      Nat.count (p · = true) (base + min limit BIT_PER_BLOCK) := by
  induction fuel generalizing bi block_cnt with
  | zero => rw [count_bits, hcnt, Nat.min_eq_right (by omega), ← hfuel, Nat.add_zero]
  | succ fuel ih =>
    rw [count_bits]
    split
    · next hlt =>
      apply ih (by omega) hlt
      show _ = Nat.count (p · = true) (base + bi + 1)
      rw [Nat.count_succ, hp bi (by omega), hcnt]
      split
      · rfl
      · rw [Nat.add_zero]
    · next hge => rw [hcnt, Nat.min_eq_left (by omega), Nat.le_antisymm hbi (by omega)]

theorem count_blocks_eq (fuel : Nat) {b block_cnt : Nat} (hbase : b % BIT_PER_BLOCK = 0)
    (hfuel : sb.size ≤ b + fuel * BIT_PER_BLOCK)
    (hcnt : block_cnt = Nat.count (bitAt sb blocks · = true) (min b sb.size)) :
    count_blocks sb blocks fuel b block_cnt = Nat.count (bitAt sb blocks · = true) sb.size := by
  induction fuel generalizing b block_cnt with
  | zero => rw [count_blocks, hcnt, Nat.min_eq_right (by omega)]
  | succ fuel ih =>
    rw [count_blocks]
    split
    · next hlt =>
      rw [Nat.succ_mul] at hfuel
      apply ih (by rw [Nat.add_mod_right]; exact hbase) (by omega)
      rw [count_bits_eq (fun bi hbi => (bitAt_base sb blocks hbase hbi).2.2) _ (Nat.zero_add _)
        (Nat.zero_le _) (by rw [hcnt, Nat.min_eq_left (by omega), Nat.add_zero])]
      congr 1
      omega
    · rw [hcnt, Nat.min_eq_right (by omega)]

theorem count_inodes_eq (fuel : Nat) {inum inode_cnt : Nat} (hpos : 1 ≤ inum)
    (hfuel : sb.ninodes ≤ inum + fuel)
    (hcnt : inode_cnt = Nat.count
      (fun x => x ≠ 0 ∧ (dinodeAt sb blocks x).type ≠ FileType.Invalid) (min inum sb.ninodes)) :
    count_inodes sb blocks fuel inum inode_cnt = Nat.count
      (fun x => x ≠ 0 ∧ (dinodeAt sb blocks x).type ≠ FileType.Invalid) sb.ninodes := by
  induction fuel generalizing inum inode_cnt with
  | zero => rw [count_inodes, hcnt, Nat.min_eq_right (by omega)]
  | succ fuel ih =>
    rw [count_inodes]
    split
    · next hlt =>
      apply ih (by omega) (by omega)
      rw [Nat.min_eq_left hlt, Nat.count_succ, hcnt, Nat.min_eq_left (Nat.le_of_lt hlt)]
      by_cases htype : (dinodeAt sb blocks inum).type = FileType.Invalid
      · rw [if_neg (not_not_intro htype), if_neg fun h => h.2 htype, Nat.add_zero]
      · rw [if_pos htype, if_pos ⟨by omega, htype⟩]
    · rw [hcnt, Nat.min_eq_right (by omega)]

/-- The inodes that `inode_alloc` can take. -/
def Fs.free_inodes (sb : SuperBlock) (s : Fs) : Finset Nat :=
  (Finset.range sb.ninodes).filter fun x => x ≠ 0 ∧ (s.dinode sb x).type = FileType.Invalid

theorem Fs.mem_free_inodes {x : Nat} : x ∈ s.free_inodes sb ↔
    x < sb.ninodes ∧ x ≠ 0 ∧ (dinodeAt sb s.blocks x).type = FileType.Invalid := by
  rw [Fs.free_inodes, Finset.mem_filter, Finset.mem_range]
  rfl

theorem card_free_blocks (sb : SuperBlock) (s : Fs) :
    (s.free_blocks sb).card + Nat.count (bitAt sb s.blocks · = true) sb.size = sb.size := by
  have hsum := Finset.card_filter_add_card_filter_not (s := Finset.range sb.size)
    fun b => bitAt sb s.blocks b = true
  rw [Finset.card_range] at hsum
  rw [Nat.count_eq_card_filter_range, Fs.free_blocks, Nat.add_comm]
  simpa only [Bool.not_eq_true] using hsum

theorem card_free_inodes (sb : SuperBlock) (s : Fs) :
    (s.free_inodes sb).card + Nat.count
      (fun x => x ≠ 0 ∧ (dinodeAt sb s.blocks x).type ≠ FileType.Invalid) sb.ninodes =
      sb.ninodes - 1 := by
  have hall : ((Finset.range sb.ninodes).filter (· ≠ 0)).card = sb.ninodes - 1 := by
    rw [Finset.filter_ne', Finset.card_erase_eq_ite, Finset.card_range]
    split
    · rfl
    · next h =>
      rw [Finset.mem_range] at h
      omega
  have hsum := Finset.card_filter_add_card_filter_not
    (s := (Finset.range sb.ninodes).filter (· ≠ 0))
    fun x => (dinodeAt sb s.blocks x).type = FileType.Invalid
  rw [hall, Finset.filter_filter, Finset.filter_filter] at hsum
  rw [Nat.count_eq_card_filter_range]
  exact hsum

/-- What `op_statfs` reports of an image with the geometry of `mkfs`. -/
theorem op_statfs_runs (hsize : sb.size = FSSIZE) (hninodes : sb.ninodes = NINODES) (s : Fs) :
    Runs (op_statfs sb) s (fun r s' => s' = s ∧ r.1 = 0 ∧
      r.2.f_bfree = (s.free_blocks sb).card ∧ r.2.f_bavail = (s.free_blocks sb).card ∧
      r.2.f_ffree = (s.free_inodes sb).card + 1 ∧ r.2.f_favail = (s.free_inodes sb).card + 1)
      fun _ => False := by
  have hblocks : count_blocks sb s.blocks sb.size 0 0 = Nat.count (bitAt sb s.blocks · = true) sb.size :=
    count_blocks_eq sb.size rfl
      (by rw [Nat.zero_add]; exact Nat.le_mul_of_pos_right _ (by decide)) (by simp)
  have hinodes : count_inodes sb s.blocks sb.ninodes 1 0 = Nat.count
      (fun x => x ≠ 0 ∧ (dinodeAt sb s.blocks x).type ≠ FileType.Invalid) sb.ninodes := by
    apply count_inodes_eq sb.ninodes (Nat.le_refl 1) (Nat.le_add_left _ _)
    rw [hninodes]
    rfl
  have hfree := card_free_blocks sb s
  have hfree' := card_free_inodes sb s
  rw [← hblocks] at hfree
  rw [← hinodes] at hfree'
  have hb : sub64 FSSIZE (count_blocks sb s.blocks sb.size 0 0) = (s.free_blocks sb).card := by
    rw [sub64_of_le (by omega) (by decide)]
    omega
  have hi : sub64 NINODES (count_inodes sb s.blocks sb.ninodes 1 0) =
      (s.free_inodes sb).card + 1 := by
    have hpos : 0 < NINODES := by decide
    rw [sub64_of_le (by omega) (by decide)]
    omega
  exact ⟨rfl, rfl, hb, hb, hi, hi⟩

/-! ### How often the allocations succeed -/

/-- `m` in a transaction of its own. -/
def in_transaction {α : Type} (m : Prog α) : Prog α := do
  Fs.begin_op
  let a ← m
  Fs.end_op
  pure a

variable (sb) in
/-- A `block_alloc`, and whether it succeeds. -/
def alloc_block : Prog Bool := (· != 0) <$> in_transaction (block_alloc sb)

variable (sb) in
/-- An `inode_alloc`, and whether it succeeds. -/
def alloc_inode (type : UInt16) : Prog Bool := Option.isSome <$> in_transaction (inode_alloc sb type)

/-- No transaction is open. -/
def Fs.Rest (s : Fs) : Prop := s.outstanding = 0 ∧ s.log = []

/-- Without another transaction there is room for two blocks in the log. -/
theorem in_transaction_runs {α : Type} {m : Prog α} {Q : α → (Nat → BlockData) → Prop}
    (hlogs : Logs sb m 2)
    (hm : ∀ s1 : Fs, s1.blocks = s.blocks → s1.outstanding ≥ 1 →
      Runs m s1 (fun a s2 => s2.outstanding = s1.outstanding ∧ Q a s2.blocks) TooBig) :
    Runs (in_transaction m) s (fun a s' => (s.Rest → s'.Rest) ∧ Q a s'.blocks)
      fun _ => 3 ≤ sb.nlog → ¬s.Rest := by
  simp only [in_transaction, Fs.begin_op, Fs.end_op, record, runs_bind, runs_get, runs_assert,
    runs_modify, runs_pure]
  refine ⟨fun _ => ?_, fun hwaits _ hrest => hwaits ?_⟩
  · refine Runs.mono (Runs.both (hm _ ?_ ?_) (hlogs _)) ?_ ?_
    · rfl
    · exact Nat.succ_pos _
    · rintro a s2 ⟨⟨hout, hq⟩, -⟩
      refine ⟨fun hrest => ?_, hq⟩
      have hout : s2.outstanding = s.outstanding + 1 := hout
      have hzero : s2.outstanding - 1 = 0 := by rw [hout, hrest.1]
      exact ⟨hzero, if_pos hzero⟩
    · rintro e ⟨htoobig, hroom⟩ hnlog hrest
      have hroom := hroom htoobig
      have hlimit : 2 ≤ Fs.log_limit sb := Nat.le_min.mpr ⟨by decide, by omega⟩
      simp only [hrest.2, List.length_nil] at hroom
      omega
  · rw [hrest.1, hrest.2]
    decide

/-- What `inode_alloc` does: it takes a free inode, or there is none. -/
inductive TakesINode (sb : SuperBlock) (type : UInt16) (blocks : Nat → BlockData) :
    Option Nat → (Nat → BlockData) → Prop
  | taken {x : Nat} : x < sb.ninodes → x ≠ 0 → (dinodeAt sb blocks x).type = FileType.Invalid →
      TakesINode sb type blocks (some x) (storeAt sb blocks x { DiskINode.zero with type })
  | full : (∀ x < sb.ninodes, x ≠ 0 → (dinodeAt sb blocks x).type ≠ FileType.Invalid) →
      TakesINode sb type blocks none blocks

theorem inode_alloc_runs (type : UInt16) (ho : s.outstanding ≥ 1) :
    Runs (inode_alloc sb type) s (fun r s' => s'.outstanding = s.outstanding ∧
      TakesINode sb type s.blocks r s'.blocks) TooBig := by
  have loop : ∀ fuel inum, sb.ninodes ≤ inum + fuel → 1 ≤ inum →
      (∀ x < sb.ninodes, x ≠ 0 → x < inum → (dinodeAt sb s.blocks x).type ≠ FileType.Invalid) →
      Runs (inode_alloc_from sb type fuel inum) s (fun r s' => s'.outstanding = s.outstanding ∧
        TakesINode sb type s.blocks r s'.blocks) TooBig := by
    intro fuel
    induction fuel with
    | zero =>
      intro inum hfuel _ hall
      exact ⟨rfl, .full fun x hx h0 => hall x hx h0 (by omega)⟩
    | succ fuel ih =>
      intro inum hfuel hpos hall
      rw [inode_alloc_from]
      split
      · next hlt =>
        rw [runs_bind, runs_get]
        split
        · next hfree =>
          rw [store_dinode, ← Program.runs_bind_assoc]
          refine (modify_log_write_runs _ ho).bind ?_
          rintro _ s1 ⟨hmem, hblocks⟩
          simp only [inode_get, modify_inode, runs_bind, runs_modify, runs_pure]
          refine ⟨hmem.outstanding, ?_⟩
          rw [hblocks]
          exact .taken hlt (by omega) hfree
        · next hused =>
          apply ih (inum + 1) (by omega) (by omega)
          intro x hx h0 hle
          obtain hlt | rfl := Nat.lt_succ_iff_lt_or_eq.mp hle
          · exact hall x hx h0 hlt
          · exact hused
      · exact ⟨rfl, .full fun x hx h0 => hall x hx h0 (by omega)⟩
  exact loop _ _ (Nat.le_add_left _ _) (Nat.le_refl _) fun x _ h0 hlt => by omega

theorem inode_alloc_logs (type : UInt16) : Logs sb (inode_alloc sb type) 1 := by
  have loop : ∀ fuel inum, Logs sb (inode_alloc_from sb type fuel inum) 1 := by
    intro fuel
    induction fuel with
    | zero => exact fun inum => (Program.Spends.pure none).mono (by omega)
    | succ fuel ih =>
      intro inum
      rw [inode_alloc_from]
      refine .ite (fun _ => Program.Spends.get.bind_free fun s => .ite (fun _ => ?_) fun _ => ih _)
        fun _ => (Program.Spends.pure none).mono (by omega)
      rw [store_dinode, ← bind_assoc]
      exact (modify_log_write_logs _ _).bind (d := 0) fun _ =>
        (modify_inode_logs _ _).bind_free fun _ => Program.Spends.pure _
  exact loop _ _

/-- An inode that is taken is no longer free. -/
theorem TakesINode.card {type : UInt16} {r : Option Nat}
    (h : TakesINode sb type s.blocks r s'.blocks) (htype : type ≠ FileType.Invalid) :
    if r.isSome = true then (s.free_inodes sb).card = (s'.free_inodes sb).card + 1
    else (s.free_inodes sb).card = 0 := by
  generalize hblocks : s'.blocks = blocks at h
  cases h with
  | full hall =>
    rw [Option.isSome_none, if_neg Bool.false_ne_true, Finset.card_eq_zero,
      Finset.eq_empty_iff_forall_notMem]
    intro x hx
    obtain ⟨hlt, h0, hfree⟩ := Fs.mem_free_inodes.mp hx
    exact hall x hlt h0 hfree
  | @taken x hx h0 hfree =>
    have hmem : x ∈ s.free_inodes sb := Fs.mem_free_inodes.mpr ⟨hx, h0, hfree⟩
    have herase : s'.free_inodes sb = (s.free_inodes sb).erase x := by
      ext y
      rw [Finset.mem_erase, Fs.mem_free_inodes, Fs.mem_free_inodes, hblocks, dinodeAt_storeAt]
      by_cases hyx : y = x
      · simp [hyx, htype]
      · simp [hyx]
    rw [Option.isSome_some, if_pos rfl, herase, Finset.card_erase_add_one hmem]

theorem alloc_inode_runs {type : UInt16} (htype : type ≠ FileType.Invalid) (s : Fs) :
    Runs (alloc_inode sb type) s (fun r s' => (s.Rest → s'.Rest) ∧
      if r = true then (s.free_inodes sb).card = (s'.free_inodes sb).card + 1
      else (s.free_inodes sb).card = 0) fun _ => 3 ≤ sb.nlog → ¬s.Rest := by
  rw [alloc_inode, Program.runs_map]
  refine (in_transaction_runs (Q := fun r blocks => TakesINode sb type s.blocks r blocks)
    ((inode_alloc_logs type).mono (by omega)) fun s1 hblocks ho => ?_).imp
    fun r s' ⟨hrest, htakes⟩ => ⟨hrest, htakes.card htype⟩
  rw [← hblocks]
  exact inode_alloc_runs type ho

theorem succeeds_alloc_inode {type : UInt16} (hnlog : 3 ≤ sb.nlog) (hrest : s.Rest)
    (htype : type ≠ FileType.Invalid) :
    Succeeds (alloc_inode sb type) (s.free_inodes sb).card s := by
  refine Program.succeeds_measure (fun s => (s.free_inodes sb).card) (P := Fs.Rest)
    (fun s hs => (alloc_inode_runs htype s).mono ?_ fun _ hnot => hnot hnlog hs) hrest
  rintro r s' ⟨hrest', hcard⟩
  exact ⟨hrest' hs, hcard⟩

/-- A block that is taken is no longer free, if all blocks before the data are marked. -/
theorem Allocates.card {b : Nat} (hl : Layout sb) (h : Allocates sb s b s')
    (hmarked : ∀ c < sb.datastart, bitAt sb s.blocks c = true) :
    (∀ c < sb.datastart, bitAt sb s'.blocks c = true) ∧
      if (b != 0) = true then (s.free_blocks sb).card = (s'.free_blocks sb).card + 1
      else (s.free_blocks sb).card = 0 := by
  obtain ⟨rfl, hblocks, hfull⟩ | ⟨hb, hclear, hblocks⟩ := h.blocks
  · rw [hblocks, if_neg (by decide), Finset.card_eq_zero, Finset.eq_empty_iff_forall_notMem]
    refine ⟨hmarked, fun c hc => ?_⟩
    obtain ⟨hlt, hc⟩ := Fs.mem_free_blocks.mp hc
    rw [hfull c hlt] at hc
    cases hc
  · have hdata : sb.Data b := by
      refine ⟨Nat.le_of_not_lt fun hlt => ?_, hb⟩
      rw [hmarked b hlt] at hclear
      cases hclear
    have hbit : ∀ c < sb.size, bitAt sb s'.blocks c = (bitAt sb s.blocks c || decide (c = b)) := by
      intro c hc
      rw [hblocks, bitAt_setAt_ne (hl.bit_ne_data hc hdata), bitAt_markAt]
    have hmem : b ∈ s.free_blocks sb := Fs.mem_free_blocks.mpr ⟨hb, hclear⟩
    have herase : s'.free_blocks sb = (s.free_blocks sb).erase b := by
      ext c
      rw [Finset.mem_erase, Fs.mem_free_blocks, Fs.mem_free_blocks]
      constructor
      · rintro ⟨hc, hbits⟩
        rw [hbit c hc, Bool.or_eq_false_iff] at hbits
        exact ⟨of_decide_eq_false hbits.2, hc, hbits.1⟩
      · rintro ⟨hne, hc, hbits⟩
        rw [hbit c hc, hbits, decide_eq_false hne]
        exact ⟨hc, rfl⟩
    refine ⟨fun c hc => ?_, ?_⟩
    · rw [hbit c (Nat.lt_of_lt_of_le hc (Nat.sub_le _ _)), hmarked c hc]
      rfl
    · rw [if_pos (bne_iff_ne.mpr (hl.data_pos hdata)), herase, Finset.card_erase_add_one hmem]

theorem alloc_block_runs (hl : Layout sb)
    (hmarked : ∀ c < sb.datastart, bitAt sb s.blocks c = true) :
    Runs (alloc_block sb) s (fun r s' => (s.Rest → s'.Rest) ∧
      (∀ c < sb.datastart, bitAt sb s'.blocks c = true) ∧
      if r = true then (s.free_blocks sb).card = (s'.free_blocks sb).card + 1
      else (s.free_blocks sb).card = 0) fun _ => 3 ≤ sb.nlog → ¬s.Rest := by
  rw [alloc_block, Program.runs_map]
  have halloc : ∀ s1 : Fs, s1.blocks = s.blocks → s1.outstanding ≥ 1 → Runs (block_alloc sb) s1
      (fun b s' => s'.outstanding = s1.outstanding ∧ Allocates sb s b { s with blocks := s'.blocks })
      TooBig := fun s1 hblocks ho =>
    (block_alloc_runs ho).imp fun b s2 h => ⟨h.mem.outstanding, ⟨rfl, rfl, rfl⟩, by
      rw [← hblocks]
      exact h.blocks⟩
  refine (in_transaction_runs (Q := fun b blocks => Allocates sb s b { s with blocks })
    block_alloc_logs halloc).imp ?_
  rintro b s' ⟨hrest, halloc⟩
  refine ⟨hrest, ?_⟩
  have hcard := halloc.card hl hmarked
  exact hcard

theorem succeeds_alloc_block (hl : Layout sb) (hnlog : 3 ≤ sb.nlog) (hrest : s.Rest)
    (hmarked : ∀ c < sb.datastart, bitAt sb s.blocks c = true) :
    Succeeds (alloc_block sb) (s.free_blocks sb).card s := by
  refine Program.succeeds_measure (fun s => (s.free_blocks sb).card)
    (P := fun s => s.Rest ∧ ∀ c < sb.datastart, bitAt sb s.blocks c = true)
    (fun s hs => (alloc_block_runs hl hs.2).mono ?_ fun _ hnot => hnot hnlog hs.1) ⟨hrest, hmarked⟩
  rintro r s' ⟨hrest', hmarked', hcard⟩
  exact ⟨⟨hrest' hs.1, hmarked'⟩, hcard⟩

/-- What `op_statfs` reports agrees with how often the allocations succeed. -/
structure StatVfs.Agrees (sb : SuperBlock) (s : Fs) (st : StatVfs) : Prop where
  f_bfree : Succeeds (alloc_block sb) st.f_bfree s
  f_bavail : Succeeds (alloc_block sb) st.f_bavail s
  f_ffree : ∀ type, type ≠ FileType.Invalid → Succeeds (alloc_inode sb type) st.f_ffree s
  f_favail : ∀ type, type ≠ FileType.Invalid → Succeeds (alloc_inode sb type) st.f_favail s

/-- In a state in order `op_statfs` reports as many blocks as can be allocated, and one inode too
many. -/
theorem op_statfs_counts (hl : Layout sb) (hsize : sb.size = FSSIZE) (hninodes : sb.ninodes = NINODES)
    (hnlog : 3 ≤ sb.nlog) (h : Wf sb s) (hrest : s.Rest) {type : UInt16}
    (htype : type ≠ FileType.Invalid) :
    Runs (op_statfs sb) s (fun r _ => Succeeds (alloc_block sb) r.2.f_bfree s ∧
      r.2.f_bavail = r.2.f_bfree ∧ r.2.f_favail = r.2.f_ffree ∧
      ∃ n, Succeeds (alloc_inode sb type) n s ∧ r.2.f_ffree = n + 1) fun _ => False := by
  refine (op_statfs_runs hsize hninodes s).imp ?_
  rintro r s' ⟨-, -, hbfree, hbavail, hffree, hfavail⟩
  refine ⟨?_, hbavail.trans hbfree.symm, hfavail.trans hffree.symm, _,
    succeeds_alloc_inode hnlog hrest htype, hffree⟩
  rw [hbfree]
  exact succeeds_alloc_block hl hnlog hrest h.tidy.owned.marked

/-- No image has as many inodes left as `op_statfs` reports. -/
theorem op_statfs_disagrees (hsize : sb.size = FSSIZE) (hninodes : sb.ninodes = NINODES) (s : Fs) :
    Runs (op_statfs sb) s (fun r _ => ¬r.2.Agrees sb s) fun _ => False := by
  refine (op_statfs_runs hsize hninodes s).imp ?_
  rintro r s' ⟨-, -, -, -, hffree, -⟩ hagrees
  have hle := (hagrees.f_ffree FileType.T_FILE (by decide)).le_measure
    (fun s => (s.free_inodes sb).card)
    fun s => (alloc_inode_runs (by decide) s).mono (fun r s' hs hr => ?_) fun _ _ => trivial
  · rw [hffree] at hle
    omega
  · have hcard := hs.2
    rw [if_pos hr] at hcard
    omega

/-- A new image without files. -/
theorem op_statfs_disagrees_new : ∃ s, Mkfs.mount [] = .ok s ∧
    Runs (op_statfs Mkfs.sb) s (fun r _ => ¬r.2.Agrees Mkfs.sb s) fun _ => False := by
  cases hs : Mkfs.mount [] with
  | ok s => exact ⟨s, rfl, op_statfs_disagrees rfl rfl s⟩
  | error e =>
    have hok : (Mkfs.mount []).toOption.isSome = true := by decide +kernel
    rw [hs] at hok
    cases hok

set_option maxRecDepth 100000 in
/-- A new image without files has 198 inodes left, and `op_statfs` reports 199. -/
theorem op_statfs_agrees_fails : ∃ s, Mkfs.mount [] = .ok s ∧
    (∀ type, type ≠ FileType.Invalid → Succeeds (alloc_inode Mkfs.sb type) 198 s) ∧
    Runs (op_statfs Mkfs.sb) s (fun r _ => r.2.f_ffree = 199 ∧ ¬r.2.Agrees Mkfs.sb s)
      fun _ => False := by
  have hrun : (match Mkfs.mount [] with
      | .ok s => decide (Runs (op_statfs Mkfs.sb) s (fun r _ => r.2.f_ffree = 199) fun _ => False)
      | .error _ => false) = true := by
    decide +kernel
  split at hrun
  · next s hs =>
    obtain ⟨d, -, rfl⟩ := Mkfs.mount_ok hs
    have hffree := of_decide_eq_true hrun
    have hcard : ((Fs.boot d).free_inodes Mkfs.sb).card = 198 := by
      obtain ⟨r, s', hok, hr⟩ := hffree.returns
      have hruns : Runs (op_statfs Mkfs.sb) (Fs.boot d) _ _ := op_statfs_runs rfl rfl (Fs.boot d)
      have h := hruns.of_ok hok
      omega
    have hsucceeds : ∀ type, type ≠ FileType.Invalid →
        Succeeds (alloc_inode Mkfs.sb type) 198 (Fs.boot d) := by
      intro type htype
      rw [← hcard]
      exact succeeds_alloc_inode (s := Fs.boot d) (by decide) ⟨rfl, rfl⟩ htype
    refine ⟨_, hs, hsucceeds, hffree.imp fun r s' hr => ⟨hr, fun hagrees => ?_⟩⟩
    have hn := (hagrees.f_ffree FileType.T_FILE (by decide)).unique
      (hsucceeds FileType.T_FILE (by decide))
    omega
  · cases hrun

end Xv6fs
