import Xv6fs.Fs.Owner

/-! The content of an inode as an array of bytes, and what `block_map` and the loops of `read` and
`write` do to it. -/

namespace Xv6fs

open Program (Runs runs_bind runs_pure runs_get runs_modify runs_assert runs_throw runs_ite)

/-- The slot of block `n` of a file. -/
def fslot (n : Nat) : Nat := if n < NDIRECT then n else n + 1

/-- The largest size of a file. -/
abbrev MAX_SIZE : Nat := MAX_FILE * BSIZE

/-- Byte `off` of the content of an inode, and `0` where no block is mapped. -/
def fbyte (blocks : Nat → BlockData) (dip : DiskINode) (off : Nat) : UInt8 :=
  if slot blocks dip (fslot (off / BSIZE)) = 0 then 0
  else (blocks (slot blocks dip (fslot (off / BSIZE)))).get (off % BSIZE)

theorem fslot_lt {n : Nat} (hn : n < MAX_FILE) : fslot n < NSLOT := by
  simp only [fslot, NSLOT, MAX_FILE, NINDIRECT, NDIRECT, BSIZE] at *
  split <;> omega

theorem fslot_ne (n : Nat) : fslot n ≠ NDIRECT := by
  unfold fslot
  split
  · next h => exact Nat.ne_of_lt h
  · next h => omega

theorem fslot_inj {m n : Nat} (h : fslot m = fslot n) : m = n := by
  unfold fslot at h
  split at h <;> split at h <;> omega

theorem div_lt_max {off : Nat} (h : off < MAX_SIZE) : off / BSIZE < MAX_FILE :=
  Nat.div_lt_of_lt_mul (Nat.lt_of_lt_of_eq h (Nat.mul_comm _ _))

section slot

variable {blocks : Nat → BlockData} {dip : DiskINode} {k : Nat}

/-- There are no slots past the last one. -/
theorem slot_of_le (h : NSLOT ≤ k) : slot blocks dip k = 0 := by
  have hk : ¬k < NDIRECT + 1 := by
    simp only [NSLOT, NDIRECT, NINDIRECT, BSIZE] at *
    omega
  rw [slot_indirect hk]
  split
  · rfl
  · have hget : ∀ i, (blocks (dip.addr NDIRECT).toNat).get (4 * (k - (NDIRECT + 1)) + i) = 0 := by
      intro i
      refine Bytes.Buffer.get_of_le _ ?_
      simp only [NSLOT, NDIRECT, NINDIRECT, BSIZE] at *
      omega
    rw [Bytes.Buffer.get32, Bytes.word32_congr (b := fun _ => 0) fun i _ => hget i]
    rfl

theorem fbyte_of_le {off : Nat} (h : MAX_SIZE ≤ off) : fbyte blocks dip off = 0 := by
  refine if_pos (slot_of_le ?_)
  simp only [MAX_SIZE, fslot, NSLOT, MAX_FILE, NINDIRECT, NDIRECT, BSIZE] at *
  split <;> omega

end slot

/-- The inodes on disk, with the copy of inode `x` in memory. -/
def Fs.view (sb : SuperBlock) (s : Fs) (x : Nat) : Nat → DiskINode :=
  setAt (s.dinode sb) x (s.inodes x).dinode

/-- Every block of the file system is in use. -/
def Full (sb : SuperBlock) (s : Fs) : Prop := ∀ c < sb.size, bitAt sb s.blocks c = true

variable {sb : SuperBlock} {s s' s1 s2 s3 : Fs} {x y k b : Nat} {extra : Nat → Prop}
  {dns dns' : Nat → DiskINode} {blocks : Nat → BlockData}

theorem Fs.view_self : s.view sb x x = (s.inodes x).dinode := setAt_self

theorem Fs.view_of_ne (h : y ≠ x) : s.view sb x y = s.dinode sb y := setAt_of_ne h

theorem Fs.view_setAt_self : setAt (s.view sb x) x (s.inodes x).dinode = s.view sb x := by
  funext y
  by_cases hyx : y = x
  · rw [hyx, setAt_self, Fs.view_self]
  · rw [setAt_of_ne hyx]

theorem Owned.congr_dns (h : Owned sb dns blocks extra) (dns' : Nat → DiskINode)
    (hdns : ∀ y < sb.ninodes, dns' y = dns y) : Owned sb dns' blocks extra :=
  h.congr (fun y => by
      constructor
      · rintro ⟨hy, ht⟩; rw [hdns y hy] at ht; exact ⟨hy, ht⟩
      · rintro ⟨hy, ht⟩; rw [← hdns y hy] at ht; exact ⟨hy, ht⟩)
    (fun y hy _ _ => by rw [hdns y hy.1]) (fun _ _ => rfl) (fun _ => rfl) (fun _ => Iff.rfl)

/-! ### Allocation -/

/-- What `block_alloc` does when it finds the free block `b`. -/
structure Taken (sb : SuperBlock) (dns : Nat → DiskINode) (extra : Nat → Prop) (s : Fs) (b : Nat)
    (s' : Fs) : Prop where
  data : sb.Data b
  unused : ¬extra b
  unheld : ∀ i, ¬Holds sb dns s.blocks i b
  zero : s'.blocks b = Bytes.Buffer.zero BSIZE
  rest : ∀ p, sb.Data p → p ≠ b → s'.blocks p = s.blocks p
  disk : ∀ y < sb.ninodes, s'.dinode sb y = s.dinode sb y
  owned : Owned sb dns s'.blocks (fun c => extra c ∨ c = b)

theorem alloc_runs (hl : Layout sb) (ho : s.outstanding ≥ 1)
    (h : Owned sb dns s.blocks extra) :
    Runs (block_alloc sb) s (fun b s' => SameMem s s' ∧
      (b = 0 ∧ s'.blocks = s.blocks ∧ Full sb s ∨ Taken sb dns extra s b s')) TooBig := by
  refine (block_alloc_runs ho).imp fun b s' ha => ⟨ha.mem, ha.blocks.imp_right ?_⟩
  rintro ⟨hb, hclear, hblocks⟩
  obtain ⟨hdata, hunused, hunheld⟩ := h.free_block hb hclear
  exact {
    data := hdata
    unused := hunused
    unheld := hunheld
    zero := by rw [hblocks, setAt_self]
    rest := fun p hp hne => by rw [hblocks, setAt_of_ne hne, markAt_data hl hb hp]
    disk := fun y hy => by
      rw [Fs.dinode_eq, Fs.dinode_eq, hblocks, dinodeAt_setAt_ne (hl.inode_ne_data hy hdata),
        dinodeAt_markAt hl hy]
    owned := by rw [hblocks]; exact h.alloc hl hb hclear }

/-! ### What changes while an inode grows -/

/-- Inode `x` has changed, on disk and in memory.  Nothing else has: the blocks of other inodes are
as they were. -/
structure Apart (sb : SuperBlock) (x : Nat) (s s' : Fs) : Prop where
  files : s'.files = s.files
  outstanding : s'.outstanding = s.outstanding
  others : ∀ y, y ≠ x → s'.inodes y = s.inodes y
  disk : ∀ y < sb.ninodes, y ≠ x → s'.dinode sb y = s.dinode sb y
  frame : ∀ y, y ≠ x → Allocated sb (s.dinode sb) y → ∀ k < NSLOT,
    slot s.blocks (s.dinode sb y) k ≠ 0 →
      s'.blocks (slot s.blocks (s.dinode sb y) k) = s.blocks (slot s.blocks (s.dinode sb y) k)

namespace Apart

theorem refl (s : Fs) : Apart sb x s s := ⟨rfl, rfl, fun _ _ => rfl, fun _ _ _ => rfl,
  fun _ _ _ _ _ _ => rfl⟩

theorem allocated (h : Apart sb x s s') (hyx : y ≠ x) (hy : Allocated sb (s.dinode sb) y) :
    Allocated sb (s'.dinode sb) y :=
  ⟨hy.1, by rw [h.disk y hy.1 hyx]; exact hy.2⟩

/-- The slots of the other inodes are as they were. -/
theorem slot_other (h : Apart sb x s s') (hyx : y ≠ x) (hy : Allocated sb (s.dinode sb) y)
    (k : Nat) : slot s'.blocks (s'.dinode sb y) k = slot s.blocks (s.dinode sb y) k := by
  rw [h.disk y hy.1 hyx]
  refine slot_congr (fun _ _ => rfl) fun hne => ?_
  have hslot : slot s.blocks (s.dinode sb y) NDIRECT = ((s.dinode sb y).addr NDIRECT).toNat :=
    slot_addr (by decide)
  rw [← hslot] at hne ⊢
  exact h.frame y hyx hy NDIRECT (by decide) hne

theorem trans (h1 : Apart sb x s1 s2) (h2 : Apart sb x s2 s3) : Apart sb x s1 s3 where
  files := h2.files.trans h1.files
  outstanding := h2.outstanding.trans h1.outstanding
  others y hy := (h2.others y hy).trans (h1.others y hy)
  disk y hy hyx := (h2.disk y hy hyx).trans (h1.disk y hy hyx)
  frame y hyx hy k hk hne := by
    have hs := h1.slot_other hyx hy k
    rw [← h1.frame y hyx hy k hk hne, ← hs]
    exact h2.frame y hyx (h1.allocated hyx hy) k hk (hs ▸ hne)

/-- The bytes of the other inodes are as they were. -/
theorem fbyte_other (h : Apart sb x s s') (hyx : y ≠ x) (hy : Allocated sb (s.dinode sb) y)
    {off : Nat} (hoff : off < MAX_SIZE) :
    fbyte s'.blocks (s'.dinode sb y) off = fbyte s.blocks (s.dinode sb y) off := by
  unfold fbyte
  rw [h.slot_other hyx hy]
  split
  · rfl
  · next hne => rw [h.frame y hyx hy _ (fslot_lt (div_lt_max hoff)) hne]

end Apart

/-- Inode `x` has got more blocks in memory, and its data may have changed. -/
structure Evolves (sb : SuperBlock) (x : Nat) (s s' : Fs) : Prop extends Apart sb x s s' where
  cache : s'.inodes x = { s.inodes x with dinode := (s'.inodes x).dinode }
  mem : ∃ addrs, (s'.inodes x).dinode = { (s.inodes x).dinode with addrs := addrs }
  disk_self : x < sb.ninodes → s'.dinode sb x = s.dinode sb x
  kept : ∀ k < NSLOT, slot s.blocks (s.inodes x).dinode k ≠ 0 →
    slot s'.blocks (s'.inodes x).dinode k = slot s.blocks (s.inodes x).dinode k

namespace Evolves

theorem refl (s : Fs) : Evolves sb x s s :=
  ⟨.refl s, rfl, ⟨_, rfl⟩, fun _ => rfl, fun _ _ _ => rfl⟩

theorem type_eq (h : Evolves sb x s s') :
    (s'.inodes x).dinode.type = (s.inodes x).dinode.type := by
  obtain ⟨_, hm⟩ := h.mem
  rw [hm]

theorem size_eq (h : Evolves sb x s s') :
    (s'.inodes x).dinode.size = (s.inodes x).dinode.size := by
  obtain ⟨_, hm⟩ := h.mem
  rw [hm]

theorem allocated_view (h : Evolves sb x s s') (hx : Allocated sb (s.view sb x) x) :
    Allocated sb (s'.view sb x) x := by
  refine ⟨hx.1, ?_⟩
  have := hx.2
  rw [Fs.view_self] at this ⊢
  rw [h.type_eq]
  exact this

theorem trans (h1 : Evolves sb x s1 s2) (h2 : Evolves sb x s2 s3) : Evolves sb x s1 s3 where
  toApart := h1.toApart.trans h2.toApart
  cache := by rw [h2.cache, h1.cache]
  mem := by
    obtain ⟨a1, h1⟩ := h1.mem
    obtain ⟨a2, h2⟩ := h2.mem
    exact ⟨a2, by rw [h2, h1]⟩
  disk_self hx := (h2.disk_self hx).trans (h1.disk_self hx)
  kept k hk hne := by
    have h := h1.kept k hk hne
    rw [← h] at hne ⊢
    exact h2.kept k hk hne

end Evolves

/-- The bytes of inode `x`, by its copy in memory. -/
def Fs.byte (s : Fs) (x off : Nat) : UInt8 := fbyte s.blocks (s.inodes x).dinode off

/-- What holds of inode `x` while it grows. -/
structure Growing (sb : SuperBlock) (extra : Nat → Prop) (x : Nat) (s : Fs) : Prop where
  alloc : Allocated sb (s.view sb x) x
  owned : Owned sb (s.view sb x) s.blocks extra
  outstanding : s.outstanding ≥ 1

theorem Growing.holds (h : Growing sb extra x s) (hk : k < NSLOT)
    (hne : slot s.blocks (s.inodes x).dinode k ≠ 0) :
    Holds sb (s.view sb x) s.blocks (x, k) (slot s.blocks (s.inodes x).dinode k) :=
  ⟨h.alloc, hk, by rw [Fs.view_self], hne⟩

theorem Growing.holds_other (hyx : y ≠ x) (hy : Allocated sb (s.dinode sb) y) (hk : k < NSLOT)
    (hne : slot s.blocks (s.dinode sb y) k ≠ 0) :
    Holds sb (s.view sb x) s.blocks (y, k) (slot s.blocks (s.dinode sb y) k) :=
  ⟨⟨hy.1, by rw [Fs.view_of_ne hyx]; exact hy.2⟩, hk, by rw [Fs.view_of_ne hyx], hne⟩

/-- Growing leaves the bytes as they were: a new block is zeroed where nothing was mapped. -/
theorem fbyte_grow {blocks blocks' : Nat → BlockData} {dip dip' : DiskINode}
    (hkept : ∀ k < NSLOT, k ≠ NDIRECT → slot blocks dip k ≠ 0 →
      slot blocks' dip' k = slot blocks dip k ∧
        blocks' (slot blocks dip k) = blocks (slot blocks dip k))
    (hfresh : ∀ k < NSLOT, k ≠ NDIRECT → slot blocks dip k = 0 → slot blocks' dip' k ≠ 0 →
      blocks' (slot blocks' dip' k) = Bytes.Buffer.zero BSIZE)
    {off : Nat} (hoff : off < MAX_SIZE) : fbyte blocks' dip' off = fbyte blocks dip off := by
  have hk := fslot_lt (div_lt_max hoff)
  have hne := fslot_ne (off / BSIZE)
  unfold fbyte
  by_cases h0 : slot blocks dip (fslot (off / BSIZE)) = 0
  · rw [if_pos h0]
    split
    · rfl
    · next h1 => rw [hfresh _ hk hne h0 h1, Bytes.Buffer.get_zero]
  · obtain ⟨hs, hb⟩ := hkept _ hk hne h0
    rw [if_neg h0, hs, if_neg h0, hb]

/-! ### Changes of an inode and their update -/

/-- Inode `x` is now `dip`, in memory and on disk. -/
structure Saved (sb : SuperBlock) (x : Nat) (dip : DiskINode) (s s' : Fs) : Prop where
  files : s'.files = s.files
  outstanding : s'.outstanding = s.outstanding
  inodes : s'.inodes = setAt s.inodes x { s.inodes x with dinode := dip }
  blocks : s'.blocks = storeAt sb s.blocks x dip

theorem modify_update_runs (f : DiskINode → DiskINode) (ho : s.outstanding ≥ 1) :
    Runs (do modify_dinode x f; INode.update sb x) s
      (fun _ s' => Saved sb x (f (s.inodes x).dinode) s s') TooBig := by
  simp only [modify_dinode, modify_inode, runs_bind, runs_modify]
  refine (update_runs sb (x := x) ?_).imp fun _ s' ⟨hm, hb⟩ => ?_
  · exact ho
  · dsimp only at hb
    rw [setAt_self] at hb
    exact ⟨hm.files, hm.outstanding, hm.inodes, hb⟩

namespace Saved

variable {dip : DiskINode}

theorem mem (h : Saved sb x dip s s') : (s'.inodes x).dinode = dip := by
  rw [h.inodes, setAt_self]

theorem cache (h : Saved sb x dip s s') :
    s'.inodes x = { s.inodes x with dinode := (s'.inodes x).dinode } := by
  rw [h.inodes, setAt_self]

theorem others (h : Saved sb x dip s s') (hyx : y ≠ x) : s'.inodes y = s.inodes y := by
  rw [h.inodes, setAt_of_ne hyx]

theorem disk (h : Saved sb x dip s s') (y : Nat) :
    s'.dinode sb y = if y = x then dip else s.dinode sb y := by
  rw [Fs.dinode_eq, h.blocks, dinodeAt_storeAt]
  rfl

theorem disk_self (h : Saved sb x dip s s') : s'.dinode sb x = dip := by
  rw [h.disk, if_pos rfl]

theorem disk_of_ne (h : Saved sb x dip s s') (hyx : y ≠ x) : s'.dinode sb y = s.dinode sb y := by
  rw [h.disk, if_neg hyx]

theorem data (h : Saved sb x dip s s') (hl : Layout sb) (hx : x < sb.ninodes) (hb : sb.Data b) :
    s'.blocks b = s.blocks b := by
  rw [h.blocks, storeAt_data hl hx hb]

theorem bit (h : Saved sb x dip s s') (hl : Layout sb) (hx : x < sb.ninodes) (b : Nat) :
    bitAt sb s'.blocks b = bitAt sb s.blocks b := by
  rw [h.blocks, bitAt_storeAt hl hx]

/-- The view of the other inodes does not see the update. -/
theorem view (h : Saved sb x dip s s') : s'.view sb x = setAt (s.view sb x) x dip := by
  funext y
  by_cases hyx : y = x
  · rw [hyx, Fs.view_self, setAt_self, h.mem]
  · rw [Fs.view_of_ne hyx, setAt_of_ne hyx, Fs.view_of_ne hyx, h.disk_of_ne hyx]

theorem apart (h : Saved sb x dip s s') (hl : Layout sb) (hx : x < sb.ninodes)
    (howned : Owned sb (s.view sb x) s.blocks extra) : Apart sb x s s' where
  files := h.files
  outstanding := h.outstanding
  others _ hyx := h.others hyx
  disk _ _ hyx := h.disk_of_ne hyx
  frame _ hyx hy _ hk hne :=
    h.data hl hx (howned.data _ _ (Growing.holds_other hyx hy hk hne))

/-- An update that leaves the type and `addrs` leaves the slots. -/
theorem owned (h : Saved sb x dip s s') (hl : Layout sb) (hx : x < sb.ninodes)
    (howned : Owned sb (s.view sb x) s.blocks extra)
    (htype : dip.type = (s.inodes x).dinode.type) (haddrs : dip.addrs = (s.inodes x).dinode.addrs) :
    Owned sb (s'.view sb x) s'.blocks extra := by
  have hself : s.view sb x x = (s.inodes x).dinode := Fs.view_self
  have hview : ∀ y, (s'.view sb x y).type = (s.view sb x y).type ∧
      ∀ k, (s'.view sb x y).addr k = (s.view sb x y).addr k := by
    intro y
    rw [h.view]
    by_cases hyx : y = x
    · rw [hyx, setAt_self, hself]
      exact ⟨htype, fun k => by simp only [DiskINode.addr, haddrs]⟩
    · rw [setAt_of_ne hyx]
      exact ⟨rfl, fun _ => rfl⟩
  refine howned.congr (fun y => ?_) (fun y _ k _ => (hview y).2 k) (fun p hp => h.data hl hx hp)
    (h.bit hl hx) fun _ => Iff.rfl
  rw [Allocated, Allocated, (hview y).1]

theorem slot_eq (h : Saved sb x dip s s') (hl : Layout sb) (hx : x < sb.ninodes)
    (howned : Owned sb (s.view sb x) s.blocks extra) (halloc : Allocated sb (s.view sb x) x)
    (haddrs : dip.addrs = (s.inodes x).dinode.addrs) (k : Nat) :
    slot s'.blocks (s'.inodes x).dinode k = slot s.blocks (s.inodes x).dinode k := by
  have haddr : ∀ k, dip.addr k = (s.inodes x).dinode.addr k := fun k => by
    simp only [DiskINode.addr, haddrs]
  rw [h.mem]
  refine slot_congr (fun k _ => haddr k) fun hne => h.data hl hx ?_
  have hi := holds_indirect s.blocks halloc (by rw [Fs.view_self]; exact hne)
  rw [Fs.view_self] at hi
  exact howned.data _ _ hi

end Saved

/-- On disk and in memory inode `x` is the same. -/
theorem Fs.view_synced (h : s.dinode sb x = (s.inodes x).dinode) : s.view sb x = s.dinode sb := by
  funext y
  by_cases hyx : y = x
  · rw [hyx, Fs.view_self, h]
  · rw [Fs.view_of_ne hyx]

end Xv6fs
