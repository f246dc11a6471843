import Xv6fs.Fs.Room

/-! An inode without holes is an array of bytes: `read` takes a piece of it and `write` puts a piece
over it, as long as the blocks have one owner each. -/

namespace Xv6fs

open Program (Runs)

/-- The bytes of an inode. -/
def content (blocks : Nat → BlockData) (dip : DiskINode) : List UInt8 :=
  (List.range dip.size.toNat).map (fbyte blocks dip)

/-- Every mapped block is a data block in use that one slot holds, and what is before the data
blocks is in use. -/
structure Sound (sb : SuperBlock) (dns : Nat → DiskINode) (blocks : Nat → BlockData) : Prop where
  data : ∀ i b, Holds sb dns blocks i b → sb.Data b
  used : ∀ i b, Holds sb dns blocks i b → bitAt sb blocks b = true
  once : ∀ i j b, Holds sb dns blocks i b → Holds sb dns blocks j b → i = j
  marked : ∀ b < sb.datastart, bitAt sb blocks b = true

variable {sb : SuperBlock} {s s' : Fs} {x y k : Nat} {extra : Nat → Prop}
  {dns : Nat → DiskINode} {blocks blocks' : Nat → BlockData} {dip dip' : DiskINode}

/-- The blocks in use that no slot holds are lost, but they do no harm. -/
theorem Sound.owned (h : Sound sb dns blocks) : Owned sb dns blocks
    fun b => (sb.Data b ∧ bitAt sb blocks b = true) ∧ ∀ i, ¬Holds sb dns blocks i b where
  data := h.data
  extra_data _ hb := hb.1.1
  marked := h.marked
  part := {
    inj := fun hi hj => h.once _ _ _ hi hj
    apart := fun he hi => he.2 _ hi
    used_iff := fun b => by
      constructor
      · intro hb
        by_cases hi : ∃ i, Holds sb dns blocks i b
        · exact .inr hi
        · exact .inl ⟨hb, fun i h => hi ⟨i, h⟩⟩
      · rintro (hb | ⟨i, hi⟩)
        · exact hb.1
        · exact ⟨h.data i b hi, h.used i b hi⟩ }

theorem Owned.sound (h : Owned sb dns blocks extra) : Sound sb dns blocks where
  data := h.data
  used _ _ hi := (h.part.used_of_own hi).2
  once _ _ _ hi hj := h.part.inj hi hj
  marked := h.marked

theorem content_congr (hsize : dip'.size = dip.size)
    (h : ∀ off < MAX_SIZE, fbyte blocks' dip' off = fbyte blocks dip off) :
    content blocks' dip' = content blocks dip := by
  rw [content, content, hsize]
  refine List.map_congr_left fun off _ => ?_
  by_cases hoff : off < MAX_SIZE
  · exact h off hoff
  · rw [fbyte_of_le (Nat.le_of_not_lt hoff), fbyte_of_le (Nat.le_of_not_lt hoff)]

/-- The content of another inode is as it was. -/
theorem Apart.content_other (h : Apart sb x s s') (hyx : y ≠ x)
    (hy : Allocated sb (s.dinode sb) y) :
    content s'.blocks (s'.dinode sb y) = content s.blocks (s.dinode sb y) :=
  content_congr (by rw [h.disk y hy.1 hyx]) fun _ hoff => h.fbyte_other hyx hy hoff

theorem Apart.solid_other (h : Apart sb x s s') (hyx : y ≠ x)
    (hy : Allocated sb (s.dinode sb) y) (hs : Solid s.blocks (s.dinode sb y)) :
    Solid s'.blocks (s'.dinode sb y) where
  size_le := by rw [h.disk y hy.1 hyx]; exact hs.size_le
  mapped n hn := by
    rw [h.slot_other hyx hy]
    rw [h.disk y hy.1 hyx] at hn
    exact hs.mapped n hn

theorem Written.content_eq {buf : Bytes.Source} {n off tot : Nat}
    (h : Written sb extra x buf n off s tot s')
    (hoff : off ≤ (s.inodes x).dinode.size.toNat) (hmax : off + n ≤ MAX_SIZE)
    (hsize : (s.inodes x).dinode.size.toNat ≤ MAX_SIZE) :
    content s'.blocks (s'.inodes x).dinode =
      Bytes.splice (content s.blocks (s.inodes x).dinode) off (Bytes.Source.list buf tot) := by
  have hle := h.le
  rw [content, h.size_eq]
  exact Bytes.map_range_splice hoff fun o ho => h.bytes o (by omega)

theorem Written.solid {buf : Bytes.Source} {n off tot : Nat}
    (h : Written sb extra x buf n off s tot s') (hs : Solid s.blocks (s.inodes x).dinode)
    (hoff : off ≤ (s.inodes x).dinode.size.toNat) (hmax : off + n ≤ MAX_SIZE) :
    Solid s'.blocks (s'.inodes x).dinode := by
  have hle := h.le
  have hsize := hs.size_le
  refine ⟨by rw [h.size_eq]; omega, fun j hj => ?_⟩
  rw [h.size_eq] at hj
  by_cases hold : j * BSIZE < (s.inodes x).dinode.size.toNat
  · have hne := hs.mapped j hold
    rw [h.kept _ (fslot_lt ?_) hne]
    · exact hne
    · simp only [MAX_SIZE, MAX_FILE, NDIRECT, NINDIRECT, BSIZE] at *
      omega
  · have hne := h.mapped (j * BSIZE) (by omega) (by omega)
    rwa [Nat.mul_div_cancel _ (by decide)] at hne

/-- What `write` returns and does to the array, when it is in range and ends normally. -/
structure Overlaid (sb : SuperBlock) (x : Nat) (buf : Bytes.Source) (off n : Nat) (s : Fs)
    (tot : Nat) (s' : Fs) : Prop where
  le : tot ≤ n
  full : tot < n → Full sb s'
  size : (s'.inodes x).dinode.size.toNat = max (s.inodes x).dinode.size.toNat (off + tot)
  content : content s'.blocks (s'.inodes x).dinode =
    Bytes.splice (content s.blocks (s.inodes x).dinode) off (Bytes.Source.list buf tot)
  update : s'.dinode sb x = (s'.inodes x).dinode
  others : ∀ y, y ≠ x → Allocated sb (s.dinode sb) y →
    s'.dinode sb y = s.dinode sb y ∧ s'.inodes y = s.inodes y ∧
      Xv6fs.content s'.blocks (s'.dinode sb y) = Xv6fs.content s.blocks (s.dinode sb y)
  sound : Sound sb (s'.view sb x) s'.blocks
  alloc : Allocated sb (s'.view sb x) x
  solid : Solid s'.blocks (s'.inodes x).dinode
  solid_others : ∀ y, y ≠ x → Allocated sb (s.dinode sb) y →
    Solid s.blocks (s.dinode sb y) → Solid s'.blocks (s'.dinode sb y)

theorem write_overlays (hl : Layout sb) (hsound : Sound sb (s.view sb x) s.blocks)
    (halloc : Allocated sb (s.view sb x) x) (hsolid : Solid s.blocks (s.inodes x).dinode)
    (ho : s.outstanding ≥ 1) {buf : Bytes.Source} {off n : Nat}
    (hoff : off ≤ (s.inodes x).dinode.size.toNat) (hmax : off + n ≤ MAX_SIZE) :
    Runs (INode.write sb x buf off n) s (Overlaid sb x buf off n s) TooBig := by
  refine (write_runs hl ⟨halloc, hsound.owned, ho⟩ hoff hmax).imp fun tot s' h => ?_
  exact {
    le := h.le
    full := h.full
    size := h.size_eq
    content := h.content_eq hoff hmax hsolid.size_le
    update := h.synced
    others := fun y hyx hy =>
      ⟨h.disk y hy.1 hyx, h.toApart.others y hyx, h.toApart.content_other hyx hy⟩
    sound := by rw [Fs.view_synced h.synced]; exact h.owned.sound
    alloc := ⟨halloc.1, by
      have := halloc.2
      rw [Fs.view_self] at this ⊢
      rwa [h.type_eq]⟩
    solid := h.solid hsolid hoff hmax
    solid_others := fun y hyx hy hs => h.toApart.solid_other hyx hy hs }

def smallSb : SuperBlock where
  size := 64
  nblocks := 30
  ninodes := 2
  nlog := 30
  logstart := 2
  inodestart := 32
  bmapstart := 33

def smallFs : Fs where
  blocks := setAt (fun _ => Bytes.Buffer.zero BSIZE) 33
    ((Bytes.Buffer.zero BSIZE).put 0 5 fun i => if i < 4 then 255 else 3)
  outstanding := 1
  log := []
  inodes := setAt (fun _ => .absent) 1
    ⟨1, true, true, { DiskINode.zero with type := FileType.T_FILE, nlink := 1 }⟩
  files := fun _ => .none
  trace := []

theorem smallFs_layout : Layout smallSb := by
  constructor <;> decide

theorem smallFs_holds (i : Nat × Nat) (b : Nat) :
    ¬Holds smallSb (smallFs.view smallSb 1) smallFs.blocks i b := by
  rintro ⟨⟨hi, ht⟩, -, hs, hb⟩
  have hi' : i.1 = 0 ∨ i.1 = 1 := by
    have : i.1 < 2 := hi
    omega
  rcases hi' with h0 | h1
  · rw [h0] at ht
    exact ht (by decide +kernel)
  · rw [h1] at hs
    refine hb (hs.symm.trans ?_)
    have haddr : ∀ k, (smallFs.view smallSb 1 1).addr k = 0 := fun k => by
      simp [Fs.view, smallFs, DiskINode.addr, DiskINode.zero]
    unfold slot
    simp [haddr]

theorem smallFs_sound : Sound smallSb (smallFs.view smallSb 1) smallFs.blocks where
  data i b h := absurd h (smallFs_holds i b)
  used i b h := absurd h (smallFs_holds i b)
  once i _ b h _ := absurd h (smallFs_holds i b)
  marked := by decide +kernel

theorem smallFs_alloc : Allocated smallSb (smallFs.view smallSb 1) 1 := by
  exact ⟨by decide, by decide +kernel⟩

theorem smallFs_solid : Solid smallFs.blocks (smallFs.inodes 1).dinode :=
  ⟨by decide, fun n hn => absurd hn (Nat.not_lt_zero _)⟩

end Xv6fs
