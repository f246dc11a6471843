import Xv6fs.Fs.Names
import Xv6fs.Mkfs

/-! A check of an image: it computes whether the blocks in use are those that the inodes hold, and
whether the directories have no holes and name inodes that there are. -/

namespace Xv6fs

variable {sb : SuperBlock} {s : Fs} {blocks : Nat → BlockData}

/-- The slots of the allocated inodes that hold a block. -/
def holders (sb : SuperBlock) (blocks : Nat → BlockData) : List (Nat × Nat) :=
  (List.range sb.ninodes).flatMap fun x =>
    if (dinodeAt sb blocks x).type = FileType.Invalid then []
    else ((List.range NSLOT).filter fun k => slot blocks (dinodeAt sb blocks x) k ≠ 0).map (x, ·)

/-- The block in a slot. -/
def heldBlock (sb : SuperBlock) (blocks : Nat → BlockData) (i : Nat × Nat) : Nat :=
  slot blocks (dinodeAt sb blocks i.1) i.2

theorem mem_holders {i : Nat × Nat} {b : Nat} :
    Holds sb (dinodeAt sb blocks) blocks i b ↔ i ∈ holders sb blocks ∧ heldBlock sb blocks i = b := by
  obtain ⟨x, k⟩ := i
  simp only [holders, heldBlock, Holds, Allocated, List.mem_flatMap, List.mem_range]
  constructor
  · rintro ⟨⟨hx, ht⟩, hk, rfl, hne⟩
    refine ⟨⟨x, hx, ?_⟩, rfl⟩
    rw [if_neg ht]
    simp [hk, hne]
  · rintro ⟨⟨y, hy, hi⟩, rfl⟩
    split at hi
    · cases hi
    · next ht =>
      simp only [List.mem_map, List.mem_filter, List.mem_range, Prod.mk.injEq] at hi
      obtain ⟨k', ⟨hk, hne⟩, rfl, rfl⟩ := hi
      exact ⟨⟨hy, ht⟩, hk, rfl, of_decide_eq_true hne⟩

/-- The blocks that are held are data blocks, each held once, and they are those that the bitmap has
as in use. -/
structure BlocksChecked (sb : SuperBlock) (blocks : Nat → BlockData) : Prop where
  data : ∀ b ∈ (holders sb blocks).map (heldBlock sb blocks), sb.Data b
  nodup : ((holders sb blocks).map (heldBlock sb blocks)).Nodup
  marked : ∀ b < sb.datastart, bitAt sb blocks b = true
  used : ∀ b < sb.size, b ∈ (holders sb blocks).map (heldBlock sb blocks) ∨ b < sb.datastart ∨
    bitAt sb blocks b = false
  set : ∀ b ∈ (holders sb blocks).map (heldBlock sb blocks), bitAt sb blocks b = true

/-- Inode `x` is a directory without holes whose entries are whole and name inodes that there are, or
no directory. -/
structure DirChecked (sb : SuperBlock) (blocks : Nat → BlockData) (dip : DiskINode) : Prop where
  size_le : dip.size.toNat ≤ MAX_SIZE
  mapped : ∀ n < MAX_FILE, n * BSIZE < dip.size.toNat → slot blocks dip (fslot n) ≠ 0
  aligned : dip.size.toNat % DIRENT_SIZE = 0
  inums : ∀ e ∈ entriesAt blocks dip, e.inum.toNat < sb.ninodes

instance : Decidable (sb.Data b) := by
  unfold SuperBlock.Data
  infer_instance

instance : Decidable (BlocksChecked sb blocks) :=
  decidable_of_iff (_ ∧ _ ∧ _ ∧ _ ∧ _)
    ⟨fun ⟨h1, h2, h3, h4, h5⟩ => ⟨h1, h2, h3, h4, h5⟩, fun ⟨h1, h2, h3, h4, h5⟩ => ⟨h1, h2, h3, h4, h5⟩⟩

instance {dip : DiskINode} : Decidable (DirChecked sb blocks dip) :=
  decidable_of_iff (_ ∧ _ ∧ _ ∧ _)
    ⟨fun ⟨h1, h2, h3, h4⟩ => ⟨h1, h2, h3, h4⟩, fun ⟨h1, h2, h3, h4⟩ => ⟨h1, h2, h3, h4⟩⟩

theorem BlocksChecked.owned (h : BlocksChecked sb blocks) :
    Owned sb (dinodeAt sb blocks) blocks fun _ => False := by
  have hmem : ∀ {i b}, Holds sb (dinodeAt sb blocks) blocks i b →
      b ∈ (holders sb blocks).map (heldBlock sb blocks) := by
    intro i b hi
    obtain ⟨hmem, rfl⟩ := mem_holders.mp hi
    exact List.mem_map_of_mem hmem
  constructor
  · exact fun i b hi => h.data b (hmem hi)
  · exact fun b hb => hb.elim
  · exact h.marked
  · constructor
    · intro i j b hi hj
      obtain ⟨hi, hib⟩ := mem_holders.mp hi
      obtain ⟨hj, hjb⟩ := mem_holders.mp hj
      exact List.inj_on_of_nodup_map h.nodup hi hj (hib.trans hjb.symm)
    · exact fun hb => hb.elim
    · intro b
      constructor
      · rintro ⟨hdata, hset⟩
        rcases h.used b hdata.2 with hb | hb | hb
        · obtain ⟨i, hi, hib⟩ := List.mem_map.mp hb
          exact .inr ⟨i, mem_holders.mpr ⟨hi, hib⟩⟩
        · exact absurd hdata.1 (Nat.not_le.mpr hb)
        · rw [hset] at hb
          cases hb
      · rintro (hb | ⟨i, hi⟩)
        · exact hb.elim
        · exact ⟨h.data b (hmem hi), h.set b (hmem hi)⟩

/-- An image whose blocks and directories are in order. -/
def ImageChecked (sb : SuperBlock) (blocks : Nat → BlockData) : Prop :=
  BlocksChecked sb blocks ∧ ∀ x < sb.ninodes, (dinodeAt sb blocks x).type = FileType.T_DIR →
    DirChecked sb blocks (dinodeAt sb blocks x)

instance : Decidable (ImageChecked sb blocks) := by
  unfold ImageChecked
  infer_instance

theorem ImageChecked.tidy (h : ImageChecked sb blocks) : Tidy sb blocks where
  owned := h.1.owned
  solid x hx ht := by
    have hdir := h.2 x hx ht
    refine ⟨hdir.size_le, fun n hn => hdir.mapped n ?_ hn⟩
    have := hdir.size_le
    simp only [MAX_SIZE, BSIZE] at this hn
    omega
  aligned x hx ht := (h.2 x hx ht).aligned
  inums x hx ht := (h.2 x hx ht).inums

/-- A process that has just started over an image that is in order. -/
theorem Tidy.boot (h : Tidy sb blocks) : Wf sb (Fs.boot blocks) where
  tidy := h
  cached _ := {
    absent := fun _ => rfl
    lt := fun href => absurd href (Nat.lt_irrefl 0)
    unread := fun _ => rfl
    synced := fun hv => Bool.noConfusion hv
    alloc := fun hv => Bool.noConfusion hv
    links := fun hv => Bool.noConfusion hv }

theorem ImageChecked.boot (h : ImageChecked sb blocks) : Wf sb (Fs.boot blocks) := h.tidy.boot

/-- The names in directory `x` are in order. -/
structure DirNamed (a : AbsFs) (n x : Nat) : Prop where
  unique : ∀ e ∈ (a.node x).dir,
    (a.node x).dir.countP (fun e' => e'.Live ∧ e'.str = e.str) ≤ 1
  dot : ((a.node x).dir[0]?.map fun e => (e.inum.toNat, e.str)) = some (x, [46])
  dotdot : ((a.node x).dir[1]?.map fun e => (decide e.Live, e.str)) = some (true, [46, 46])
  named : ∀ e ∈ (a.node x).dir, e.Live → a.Alloc e.inum.toNat
  home : a.naming n (fun s => s ≠ [46] ∧ s ≠ [46, 46]) x ≤ if x = ROOTINO then 0 else 1

/-- The names in a file system are in order. -/
structure NamesChecked (a : AbsFs) (n : Nat) : Prop where
  root : (a.node ROOTINO).type = FileType.T_DIR
  unused : ¬a.Alloc 0
  up : ((a.node ROOTINO).dir[1]?.map fun e => e.inum.toNat) = some ROOTINO
  links : ∀ x < n, (a.node x).nlink.toNat = a.naming n (fun s => s ≠ [46]) x
  dirs : ∀ x < n, (a.node x).type = FileType.T_DIR → DirNamed a n x

instance (a : AbsFs) (n x : Nat) : Decidable (DirNamed a n x) :=
  decidable_of_iff (_ ∧ _ ∧ _ ∧ _ ∧ _)
    ⟨fun ⟨h1, h2, h3, h4, h5⟩ => ⟨h1, h2, h3, h4, h5⟩, fun ⟨h1, h2, h3, h4, h5⟩ => ⟨h1, h2, h3, h4, h5⟩⟩

instance (a : AbsFs) (n : Nat) : Decidable (NamesChecked a n) :=
  decidable_of_iff (_ ∧ _ ∧ _ ∧ _ ∧ _)
    ⟨fun ⟨h1, h2, h3, h4, h5⟩ => ⟨h1, h2, h3, h4, h5⟩, fun ⟨h1, h2, h3, h4, h5⟩ => ⟨h1, h2, h3, h4, h5⟩⟩

theorem NamesChecked.ordered (h : NamesChecked (s.abs sb) sb.ninodes)
    (hinums : ∀ x, ((s.abs sb).node x).type = FileType.T_DIR → ∀ e ∈ ((s.abs sb).node x).dir,
      e.inum.toNat < sb.ninodes)
    (hcached : ∀ x, 0 < (s.inodes x).ref → (s.abs sb).Alloc x ∧
      ∀ n, (s.abs sb).mem x = some n → n = ((s.abs sb).node x).nlink) :
    (s.abs sb).Ordered sb.ninodes := by
  have hlt : ∀ {x}, ((s.abs sb).node x).type = FileType.T_DIR → x < sb.ninodes := fun ht =>
    alloc_lt (by rw [AbsFs.Alloc, ht]; decide)
  constructor
  · exact h.root
  · exact h.unused
  · intro x ht name
    by_cases he : ∃ e ∈ ((s.abs sb).node x).dir, e.str = name
    · obtain ⟨e, he, rfl⟩ := he
      exact (h.dirs x (hlt ht) ht).unique e he
    · rw [List.countP_eq_zero.mpr]
      · exact Nat.zero_le 1
      · intro e hmem hp
        simp only [decide_eq_true_eq] at hp
        exact he ⟨e, hmem, hp.2⟩
  · intro x ht
    obtain ⟨e, he, hp⟩ := Option.map_eq_some_iff.mp (h.dirs x (hlt ht) ht).dot
    exact ⟨e, he, congrArg Prod.fst hp, congrArg Prod.snd hp⟩
  · intro x ht
    obtain ⟨e, he, hp⟩ := Option.map_eq_some_iff.mp (h.dirs x (hlt ht) ht).dotdot
    refine ⟨e, he, of_decide_eq_true (congrArg Prod.fst hp), congrArg Prod.snd hp, ?_⟩
    rintro rfl
    have hup := h.up
    rw [he] at hup
    exact Option.some.inj hup
  · exact fun x ht => (h.dirs x (hlt ht) ht).named
  · intro x
    by_cases hx : x < sb.ninodes
    · exact h.links x hx
    · have hnode : (s.abs sb).node x = .free := if_neg hx
      rw [hnode]
      symm
      apply Finset.sum_eq_zero
      intro d _
      split
      · next ht =>
        rw [List.countP_eq_zero]
        intro e he hp
        simp only [decide_eq_true_eq] at hp
        exact hx (hp.2.1 ▸ hinums d ht e he)
      · rfl
  · exact fun x ht => (h.dirs x (hlt ht) ht).home
  · exact hcached

/-- The names of a process that has just started. -/
theorem NamesChecked.boot {blocks : Nat → BlockData}
    (h : NamesChecked ((Fs.boot blocks).abs sb) sb.ninodes) (hwf : Wf sb (Fs.boot blocks)) :
    ((Fs.boot blocks).abs sb).Ordered sb.ninodes := by
  refine h.ordered (fun x ht e he => ?_) fun x href => absurd href (Nat.lt_irrefl 0)
  have hlt : x < sb.ninodes := alloc_lt (s := Fs.boot blocks) (by rw [AbsFs.Alloc, ht]; decide)
  rw [abs_type hlt] at ht
  rw [abs_node hlt, nodeAt_dir ht] at he
  exact hwf.tidy.inums x hlt ht e he

/-! A file system of 30 data blocks whose root directory has no entries but the first two. -/

def rootSb : SuperBlock where
  size := 64
  nblocks := 30
  ninodes := 8
  nlog := 30
  logstart := 2
  inodestart := 32
  bmapstart := 33

def rootInode : DiskINode := { DiskINode.zero with
  type := FileType.T_DIR
  nlink := 1
  size := 32
  addrs := fun k => if k.val = 0 then 34 else 0 }

def rootDisk : Disk :=
  setAt (setAt (setAt (fun _ => Bytes.Buffer.zero BSIZE)
    32 (rootInode.store (Bytes.Buffer.zero BSIZE) DINODE_SIZE))
    33 ((Bytes.Buffer.zero BSIZE).put 0 5 fun i => if i < 4 then 255 else 7))
    34 (((Bytes.Buffer.zero BSIZE).put 0 DIRENT_SIZE (DirEntry.mk 1 (strncpy [46])).bytes).put
      DIRENT_SIZE DIRENT_SIZE (DirEntry.mk 1 (strncpy [46, 46])).bytes)

def rootFs : Fs := Fs.boot rootDisk

theorem rootSb_layout : Layout rootSb := by
  constructor <;> decide

set_option maxRecDepth 100000 in
theorem rootFs_wf : Wf rootSb rootFs :=
  ImageChecked.boot (by decide +kernel)

set_option maxRecDepth 100000 in
theorem rootFs_ordered : (rootFs.abs rootSb).Ordered rootSb.ninodes :=
  NamesChecked.boot (by decide +kernel) rootFs_wf

end Xv6fs
