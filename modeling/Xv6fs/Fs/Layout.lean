import Xv6fs.Fs.INode

/-! Where the inodes, the bits and the data of the file system lie in the blocks, and what a store to
one of them leaves of the others. -/

namespace Xv6fs

/-! ### Words of a block -/

namespace DiskINode

theorem addr_fin (dip : DiskINode) (k : Fin (NDIRECT + 1)) : dip.addr k = dip.addrs k :=
  dif_pos k.isLt

theorem bytes_type (dip : DiskINode) {i : Nat} (h : i < 2) :
    dip.bytes i = Bytes.bytes16 dip.type i := by
  simp [bytes, h]

theorem bytes_major (dip : DiskINode) {i : Nat} (h : i < 2) :
    dip.bytes (2 + i) = Bytes.bytes16 dip.major i := by
  have h1 : ¬2 + i < 2 := by omega
  have h2 : 2 + i < 4 := by omega
  simp [bytes, h1, h2]

theorem bytes_minor (dip : DiskINode) {i : Nat} (h : i < 2) :
    dip.bytes (4 + i) = Bytes.bytes16 dip.minor i := by
  have h1 : ¬4 + i < 2 := by omega
  have h2 : ¬4 + i < 4 := by omega
  have h3 : 4 + i < 6 := by omega
  simp [bytes, h1, h2, h3]

theorem bytes_nlink (dip : DiskINode) {i : Nat} (h : i < 2) :
    dip.bytes (6 + i) = Bytes.bytes16 dip.nlink i := by
  have h1 : ¬6 + i < 2 := by omega
  have h2 : ¬6 + i < 4 := by omega
  have h3 : ¬6 + i < 6 := by omega
  have h4 : 6 + i < 8 := by omega
  simp [bytes, h1, h2, h3, h4]

theorem bytes_size (dip : DiskINode) {i : Nat} (h : i < 4) :
    dip.bytes (8 + i) = Bytes.bytes32 dip.size i := by
  have h1 : ¬8 + i < 2 := by omega
  have h2 : ¬8 + i < 4 := by omega
  have h3 : ¬8 + i < 6 := by omega
  have h4 : ¬8 + i < 8 := by omega
  have h5 : 8 + i < 12 := by omega
  simp [bytes, h1, h2, h3, h4, h5]

theorem bytes_addr (dip : DiskINode) (k : Nat) {i : Nat} (h : i < 4) :
    dip.bytes (12 + 4 * k + i) = Bytes.bytes32 (dip.addr k) i := by
  have h1 : ¬12 + 4 * k + i < 2 := by omega
  have h2 : ¬12 + 4 * k + i < 4 := by omega
  have h3 : ¬12 + 4 * k + i < 6 := by omega
  have h4 : ¬12 + 4 * k + i < 8 := by omega
  have h5 : ¬12 + 4 * k + i < 12 := by omega
  have h6 : (12 + 4 * k + i - 12) / 4 = k := by omega
  have h7 : (12 + 4 * k + i - 12) % 4 = i := by omega
  simp only [bytes, h1, h2, h3, h4, h5, h6, h7, if_false]

variable {d : BlockData} {off off' : Nat} {dip : DiskINode}

/-- An inode is read back as it was stored. -/
theorem load_store (h : off + DINODE_SIZE ≤ BSIZE) : load (dip.store d off) off = dip := by
  have hget : ∀ {i}, i < DINODE_SIZE → (dip.store d off).get (off + i) = dip.bytes i :=
    fun hi => Bytes.Buffer.get_put_of_mem d _ h hi
  have h16 : ∀ {a v}, a + 2 ≤ DINODE_SIZE → (∀ i < 2, dip.bytes (a + i) = Bytes.bytes16 v i) →
      (dip.store d off).get16 (off + a) = v := fun {a v} ha hv => by
    rw [Bytes.Buffer.get16, Bytes.word16_congr (b := Bytes.bytes16 v), Bytes.word16_bytes16]
    intro i hi
    rw [Nat.add_assoc, hget (by omega), hv i hi]
  have h32 : ∀ {a v}, a + 4 ≤ DINODE_SIZE → (∀ i < 4, dip.bytes (a + i) = Bytes.bytes32 v i) →
      (dip.store d off).get32 (off + a) = v := fun {a v} ha hv => by
    rw [Bytes.Buffer.get32, Bytes.word32_congr (b := Bytes.bytes32 v), Bytes.word32_bytes32]
    intro i hi
    rw [Nat.add_assoc, hget (by omega), hv i hi]
  refine DiskINode.ext ?_ ?_ ?_ ?_ ?_ (funext fun k => ?_)
  · exact h16 (a := 0) (by decide) fun i hi => by rw [Nat.zero_add]; exact bytes_type dip hi
  · exact h16 (by decide) fun i hi => bytes_major dip hi
  · exact h16 (by decide) fun i hi => bytes_minor dip hi
  · exact h16 (by decide) fun i hi => bytes_nlink dip hi
  · exact h32 (by decide) fun i hi => bytes_size dip hi
  · have hk := k.isLt
    have := h32 (a := 12 + 4 * k) (v := dip.addr k) (by simp only [NDIRECT, DINODE_SIZE] at *; omega)
      fun i hi => bytes_addr dip k hi
    rw [addr_fin, ← Nat.add_assoc] at this
    exact this

/-- A store of an inode leaves those at other offsets of the block as they were. -/
theorem load_store_ne (h : off' + DINODE_SIZE ≤ off ∨ off + DINODE_SIZE ≤ off') :
    load (dip.store d off) off' = load d off' := by
  have hget : ∀ {a i}, a + i < DINODE_SIZE →
      (dip.store d off).get (off' + a + i) = d.get (off' + a + i) :=
    fun hi => Bytes.Buffer.get_put_of_not_mem d _ (by omega)
  have h16 : ∀ {a}, a + 2 ≤ DINODE_SIZE →
      (dip.store d off).get16 (off' + a) = d.get16 (off' + a) := fun ha =>
    Bytes.word16_congr fun i hi => hget (by omega)
  have h32 : ∀ {a}, a + 4 ≤ DINODE_SIZE →
      (dip.store d off).get32 (off' + a) = d.get32 (off' + a) := fun ha =>
    Bytes.word32_congr fun i hi => hget (by omega)
  refine DiskINode.ext ?_ ?_ ?_ ?_ ?_ (funext fun k => ?_)
  · exact h16 (a := 0) (by decide)
  · exact h16 (by decide)
  · exact h16 (by decide)
  · exact h16 (by decide)
  · exact h32 (by decide)
  · have hk := k.isLt
    have := h32 (a := 12 + 4 * k) (by simp only [NDIRECT, DINODE_SIZE] at *; omega)
    rw [← Nat.add_assoc] at this
    exact this

theorem addr_setAddr (dip : DiskINode) {k l : Nat} (v : UInt32) (hl : l < NDIRECT + 1) :
    (dip.setAddr k v).addr l = if l = k then v else dip.addr l := by
  simp [addr, setAddr, hl]

theorem addr_of_le (dip : DiskINode) {k : Nat} (hk : NDIRECT + 1 ≤ k) : dip.addr k = 0 := by
  simp [addr, Nat.not_lt.mpr hk]

end DiskINode

/-! ### Bits of a block -/

theorem bit_mask_getLsbD (bi j : Nat) (hj : j < 8) :
    (bit_mask bi).toBitVec.getLsbD j = decide (j = bi % 8) := by
  have h : ∀ k < 8, ∀ j < 8, ((1 : UInt8) <<< UInt8.ofNat k).toBitVec.getLsbD j = decide (j = k) := by
    decide
  exact h (bi % 8) (Nat.mod_lt _ (by decide)) j hj

theorem and_bit_mask (x : UInt8) (bi : Nat) :
    (x &&& bit_mask bi != 0) = x.toBitVec.getLsbD (bi % 8) := by
  have hk : bi % 8 < 8 := Nat.mod_lt _ (by decide)
  have hbit : (x &&& bit_mask bi).toBitVec.getLsbD (bi % 8) = x.toBitVec.getLsbD (bi % 8) := by
    simp [bit_mask_getLsbD bi _ hk]
  cases hx : x.toBitVec.getLsbD (bi % 8) with
  | true =>
    rw [bne_iff_ne]
    intro h
    rw [h, hx] at hbit
    simp at hbit
  | false =>
    rw [bne_eq_false_iff_eq]
    apply UInt8.toBitVec_inj.mp
    apply BitVec.eq_of_getLsbD_eq
    intro j hj
    by_cases hjk : j = bi % 8
    · rw [hjk, hbit, hx]
      simp
    · simp [bit_mask_getLsbD bi j hj, hjk]

theorem bit_set_eq (d : BlockData) (bi : Nat) :
    bit_set d bi = (d.get (bi / 8)).toBitVec.getLsbD (bi % 8) := and_bit_mask _ _

variable {d : BlockData} {bi bj : Nat}

/-- The block after a store of the byte `v` where bit `bi` lies. -/
theorem bit_set_put (v : UInt8) (hj : bj < BIT_PER_BLOCK) :
    bit_set (d.put (bi / 8) 1 fun _ => v) bj =
      if bj / 8 = bi / 8 then v.toBitVec.getLsbD (bj % 8) else bit_set d bj := by
  simp only [BIT_PER_BLOCK, BSIZE] at hj
  rw [bit_set_eq, bit_set_eq, Bytes.Buffer.get_put _ _ _ _ (by simp only [BSIZE]; omega)]
  by_cases h : bj / 8 = bi / 8
  · rw [if_pos (by omega), if_pos h]
  · rw [if_neg (by omega), if_neg h]

/-- Marking a bit sets it and no other. -/
theorem bit_set_mark (hj : bj < BIT_PER_BLOCK) :
    bit_set (d.put (bi / 8) 1 fun _ => d.get (bi / 8) ||| bit_mask bi) bj =
      (bit_set d bj || decide (bj = bi)) := by
  rw [bit_set_put _ hj]
  split
  · next h =>
    have hb := bit_mask_getLsbD bi (bj % 8) (Nat.mod_lt _ (by decide))
    rw [UInt8.toBitVec_or, BitVec.getLsbD_or, hb, bit_set_eq, h]
    congr 1
    exact decide_eq_decide.mpr ⟨fun h' => by omega, fun h' => by omega⟩
  · next h =>
    have : bj ≠ bi := by rintro rfl; exact h rfl
    simp [this]

/-- Freeing a bit clears it and no other. -/
theorem bit_set_free (hj : bj < BIT_PER_BLOCK) :
    bit_set (d.put (bi / 8) 1 fun _ => d.get (bi / 8) &&& ~~~bit_mask bi) bj =
      (bit_set d bj && decide (bj ≠ bi)) := by
  rw [bit_set_put _ hj]
  split
  · next h =>
    have hlt : bj % 8 < 8 := Nat.mod_lt _ (by decide)
    have hb := bit_mask_getLsbD bi (bj % 8) hlt
    rw [UInt8.toBitVec_and, BitVec.getLsbD_and, UInt8.toBitVec_not, BitVec.getLsbD_not, hb,
      bit_set_eq, h]
    congr 1
    have hiff : bj % 8 = bi % 8 ↔ bj = bi := ⟨fun h' => by omega, fun h' => by omega⟩
    simp [hlt, hiff]
  · next h =>
    have : bj ≠ bi := by rintro rfl; exact h rfl
    simp [this]

/-! ### Regions -/

/-- Where the data blocks start: they are the last `nblocks` blocks. -/
def SuperBlock.datastart (sb : SuperBlock) : Nat := sb.size - sb.nblocks

/-- Block `b` is a data block. -/
def SuperBlock.Data (sb : SuperBlock) (b : Nat) : Prop := sb.datastart ≤ b ∧ b < sb.size

/-- The regions of the disk follow each other: inodes, bitmap, data.  Block numbers are 32-bit words
and the inode numbers of directory entries 16-bit words. -/
structure Layout (sb : SuperBlock) : Prop where
  inodes : sb.inodestart + sb.ninodes / INODE_PER_BLOCK + 1 ≤ sb.bmapstart
  bmap : sb.bmapstart + sb.size / BIT_PER_BLOCK + 1 ≤ sb.datastart
  words : sb.size < 2 ^ 32
  inums : sb.ninodes ≤ 2 ^ 16

namespace Layout

variable {sb : SuperBlock} {x y b p : Nat}

theorem inode_lt (h : Layout sb) (hx : x < sb.ninodes) : INODE_BLOCK sb x < sb.bmapstart := by
  have := h.inodes
  simp only [INODE_BLOCK, INODE_PER_BLOCK, BSIZE, DINODE_SIZE] at *
  omega

theorem bit_lt (h : Layout sb) (hb : b < sb.size) : BIT_BLOCK sb b < sb.datastart := by
  have := h.bmap
  simp only [BIT_BLOCK, BIT_PER_BLOCK, BSIZE] at *
  omega

theorem bmap_le (sb : SuperBlock) (b : Nat) : sb.bmapstart ≤ BIT_BLOCK sb b := by
  exact Nat.le_add_left _ _

theorem datastart_pos (h : Layout sb) : 0 < sb.datastart :=
  Nat.lt_of_lt_of_le (Nat.succ_pos _) h.bmap

theorem bmap_lt (h : Layout sb) : sb.bmapstart < sb.datastart :=
  Nat.lt_of_lt_of_le (Nat.lt_succ_of_le (Nat.le_add_right _ _)) h.bmap

theorem data_pos (h : Layout sb) (hb : sb.Data b) : b ≠ 0 := by
  have := h.datastart_pos
  have := hb.1
  omega

theorem inode_ne_bit (h : Layout sb) (hx : x < sb.ninodes) (b : Nat) :
    INODE_BLOCK sb x ≠ BIT_BLOCK sb b := by
  have := h.inode_lt hx
  have := bmap_le sb b
  omega

theorem inode_ne_data (h : Layout sb) (hx : x < sb.ninodes) (hp : sb.Data p) :
    INODE_BLOCK sb x ≠ p := by
  have := h.inode_lt hx
  have := h.bmap_lt
  have := hp.1
  omega

theorem bit_ne_data (h : Layout sb) (hb : b < sb.size) (hp : sb.Data p) : BIT_BLOCK sb b ≠ p := by
  have := h.bit_lt hb
  have := hp.1
  omega

/-- Inodes of one block lie apart. -/
theorem slot_apart (hxy : x ≠ y) (hb : INODE_BLOCK sb x = INODE_BLOCK sb y) :
    DINODE_SIZE * (y % INODE_PER_BLOCK) + DINODE_SIZE ≤ DINODE_SIZE * (x % INODE_PER_BLOCK) ∨
      DINODE_SIZE * (x % INODE_PER_BLOCK) + DINODE_SIZE ≤ DINODE_SIZE * (y % INODE_PER_BLOCK) := by
  simp only [INODE_BLOCK, INODE_PER_BLOCK, BSIZE, DINODE_SIZE] at *
  omega

theorem slot_fits (x : Nat) :
    DINODE_SIZE * (x % INODE_PER_BLOCK) + DINODE_SIZE ≤ BSIZE := by
  simp only [INODE_PER_BLOCK, BSIZE, DINODE_SIZE]
  omega

end Layout

section views

variable {sb : SuperBlock} {s : Fs} {x y b p : Nat} {blocks : Nat → BlockData}

/-- Inode `x` in the blocks. -/
def dinodeAt (sb : SuperBlock) (blocks : Nat → BlockData) (x : Nat) : DiskINode :=
  .load (blocks (INODE_BLOCK sb x)) (DINODE_SIZE * (x % INODE_PER_BLOCK))

theorem Fs.dinode_eq (s : Fs) (x : Nat) : s.dinode sb x = dinodeAt sb s.blocks x := rfl

/-- Bit `b` of the bitmap in the blocks. -/
def bitAt (sb : SuperBlock) (blocks : Nat → BlockData) (b : Nat) : Bool :=
  bit_set (blocks (BIT_BLOCK sb b)) (b % BIT_PER_BLOCK)

theorem dinodeAt_setAt_ne {d : BlockData} (h : INODE_BLOCK sb x ≠ p) :
    dinodeAt sb (setAt blocks p d) x = dinodeAt sb blocks x := by
  rw [dinodeAt, dinodeAt, setAt_of_ne h]

theorem bitAt_setAt_ne {d : BlockData} (h : BIT_BLOCK sb b ≠ p) :
    bitAt sb (setAt blocks p d) b = bitAt sb blocks b := by
  rw [bitAt, bitAt, setAt_of_ne h]

/-- The blocks after a store of inode `x`. -/
def storeAt (sb : SuperBlock) (blocks : Nat → BlockData) (x : Nat) (dip : DiskINode) :
    Nat → BlockData :=
  setAt blocks (INODE_BLOCK sb x)
    (dip.store (blocks (INODE_BLOCK sb x)) (DINODE_SIZE * (x % INODE_PER_BLOCK)))

theorem dinodeAt_storeAt {dip : DiskINode} :
    dinodeAt sb (storeAt sb blocks x dip) y = if y = x then dip else dinodeAt sb blocks y := by
  by_cases hyx : y = x
  · subst hyx
    rw [if_pos rfl, dinodeAt, storeAt, setAt_self, DiskINode.load_store (Layout.slot_fits y)]
  · rw [if_neg hyx, dinodeAt, storeAt]
    by_cases hb : INODE_BLOCK sb y = INODE_BLOCK sb x
    · rw [hb, setAt_self, DiskINode.load_store_ne (Layout.slot_apart (Ne.symm hyx) hb.symm),
        ← hb]
      rfl
    · rw [setAt_of_ne hb]
      rfl

theorem bitAt_storeAt {dip : DiskINode} (h : Layout sb) (hx : x < sb.ninodes) :
    bitAt sb (storeAt sb blocks x dip) b = bitAt sb blocks b :=
  bitAt_setAt_ne (h.inode_ne_bit hx b).symm

theorem storeAt_data {dip : DiskINode} (h : Layout sb) (hx : x < sb.ninodes) (hp : sb.Data p) :
    storeAt sb blocks x dip p = blocks p :=
  setAt_of_ne (h.inode_ne_data hx hp).symm

/-- The blocks after marking bit `b`. -/
def markAt (sb : SuperBlock) (blocks : Nat → BlockData) (b : Nat) : Nat → BlockData :=
  setAt blocks (BIT_BLOCK sb b)
    ((blocks (BIT_BLOCK sb b)).put (b % BIT_PER_BLOCK / 8) 1 fun _ =>
      (blocks (BIT_BLOCK sb b)).get (b % BIT_PER_BLOCK / 8) ||| bit_mask (b % BIT_PER_BLOCK))

/-- The blocks after freeing bit `b`. -/
def freeAt (sb : SuperBlock) (blocks : Nat → BlockData) (b : Nat) : Nat → BlockData :=
  setAt blocks (BIT_BLOCK sb b)
    ((blocks (BIT_BLOCK sb b)).put (b % BIT_PER_BLOCK / 8) 1 fun _ =>
      (blocks (BIT_BLOCK sb b)).get (b % BIT_PER_BLOCK / 8) &&& ~~~bit_mask (b % BIT_PER_BLOCK))

theorem bit_eq_iff {c : Nat} (hblock : BIT_BLOCK sb c = BIT_BLOCK sb b) :
    c % BIT_PER_BLOCK = b % BIT_PER_BLOCK ↔ c = b := by
  simp only [BIT_BLOCK, BIT_PER_BLOCK, BSIZE] at *
  constructor
  · intro h; omega
  · rintro rfl; rfl

theorem bitAt_markAt {c : Nat} :
    bitAt sb (markAt sb blocks b) c = (bitAt sb blocks c || decide (c = b)) := by
  by_cases hblock : BIT_BLOCK sb c = BIT_BLOCK sb b
  · rw [bitAt, markAt, hblock, setAt_self,
      bit_set_mark (Nat.mod_lt _ (by decide)), bitAt, hblock,
      decide_eq_decide.mpr (bit_eq_iff hblock)]
  · have hne : c ≠ b := by rintro rfl; exact hblock rfl
    rw [markAt, bitAt_setAt_ne hblock]
    simp [hne]

theorem bitAt_freeAt {c : Nat} :
    bitAt sb (freeAt sb blocks b) c = (bitAt sb blocks c && decide (c ≠ b)) := by
  by_cases hblock : BIT_BLOCK sb c = BIT_BLOCK sb b
  · rw [bitAt, freeAt, hblock, setAt_self,
      bit_set_free (Nat.mod_lt _ (by decide)), bitAt, hblock]
    congr 1
    exact decide_eq_decide.mpr (not_congr (bit_eq_iff hblock))
  · have hne : c ≠ b := by rintro rfl; exact hblock rfl
    rw [freeAt, bitAt_setAt_ne hblock]
    simp [hne]

theorem dinodeAt_markAt (h : Layout sb) (hx : x < sb.ninodes) :
    dinodeAt sb (markAt sb blocks b) x = dinodeAt sb blocks x :=
  dinodeAt_setAt_ne (h.inode_ne_bit hx b)

theorem dinodeAt_freeAt (h : Layout sb) (hx : x < sb.ninodes) :
    dinodeAt sb (freeAt sb blocks b) x = dinodeAt sb blocks x :=
  dinodeAt_setAt_ne (h.inode_ne_bit hx b)

theorem markAt_data (h : Layout sb) (hb : b < sb.size) (hp : sb.Data p) :
    markAt sb blocks b p = blocks p :=
  setAt_of_ne (h.bit_ne_data hb hp).symm

theorem freeAt_data (h : Layout sb) (hb : b < sb.size) (hp : sb.Data p) :
    freeAt sb blocks b p = blocks p :=
  setAt_of_ne (h.bit_ne_data hb hp).symm

end views

end Xv6fs
