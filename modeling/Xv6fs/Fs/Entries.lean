import Xv6fs.Fs.Steps
import Xv6fs.Fs.Space

/-! The content of inodes on the abstract state: a `write` of an entry changes that entry of a
directory, and writes to a file change its size and blocks. -/

namespace Xv6fs

open Program (Runs runs_bind runs_pure runs_get runs_modify runs_assert runs_throw runs_ite)

/-! ### The bytes of an entry -/

theorem DirEntry.load_congr {a b : Bytes.Source} (h : ∀ j < DIRENT_SIZE, a j = b j) :
    DirEntry.load a = DirEntry.load b := by
  refine DirEntry.ext ?_ ?_
  · exact Bytes.word16_congr fun i hi => h i (by simp only [DIRENT_SIZE]; omega)
  · refine Bytes.Buffer.ext_get fun i hi => ?_
    simp only [load, Bytes.Buffer.get_ofSource _ hi]
    exact h _ (by simp only [DIRSIZ, DIRENT_SIZE] at *; omega)

/-- An entry is read back as it was written. -/
@[simp] theorem DirEntry.load_bytes (de : DirEntry) : DirEntry.load de.bytes = de := by
  refine DirEntry.ext ?_ ?_
  · refine (Bytes.word16_congr (b := Bytes.bytes16 de.inum) fun i hi => ?_).trans
      (Bytes.word16_bytes16 _)
    rw [bytes, if_pos hi]
  · refine Bytes.Buffer.ext_get fun i hi => ?_
    simp only [load, Bytes.Buffer.get_ofSource _ hi, bytes]
    rw [if_neg (by omega), Nat.add_sub_cancel_left]

variable {sb : SuperBlock} {s s' : Fs} {x y i : Nat} {blocks blocks' : Nat → BlockData}
  {dip dip' : DiskINode} {buf : Bytes.Source}

theorem length_entriesAt (blocks : Nat → BlockData) (dip : DiskINode) :
    (entriesAt blocks dip).length = dip.size.toNat / DIRENT_SIZE := by
  rw [entriesAt, List.length_map, List.length_range]

theorem getElem_entriesAt (h : i < (entriesAt blocks dip).length) :
    (entriesAt blocks dip)[i] = .load fun j => fbyte blocks dip (i * DIRENT_SIZE + j) := by
  simp [entriesAt]

/-- The entries after a `write` of entry `i`. -/
theorem entriesAt_put {tot : Nat} (hi : i * DIRENT_SIZE ≤ dip.size.toNat)
    (haligned : dip.size.toNat % DIRENT_SIZE = 0) (htot : tot = DIRENT_SIZE)
    (hsize : dip'.size.toNat = max dip.size.toNat (i * DIRENT_SIZE + tot))
    (hmax : dip'.size.toNat ≤ MAX_SIZE)
    (hbyte : ∀ o < MAX_SIZE, fbyte blocks' dip' o =
      if i * DIRENT_SIZE ≤ o ∧ o < i * DIRENT_SIZE + tot then buf (o - i * DIRENT_SIZE)
      else fbyte blocks dip o) :
    entriesAt blocks' dip' = putEntry (entriesAt blocks dip) i (.load buf) := by
  subst htot
  have hlen := length_entriesAt blocks dip
  have hlen' := length_entriesAt blocks' dip'
  have hentry : ∀ (j : Nat) (hj : j < (entriesAt blocks' dip').length),
      (entriesAt blocks' dip')[j] = if j = i then .load buf
        else .load fun k => fbyte blocks dip (j * DIRENT_SIZE + k) := by
    intro j hj
    rw [getElem_entriesAt hj]
    have hin : ∀ k < DIRENT_SIZE, j * DIRENT_SIZE + k < MAX_SIZE := fun k hk => by
      simp only [DIRENT_SIZE] at *
      omega
    split
    · next hji =>
      refine DirEntry.load_congr fun k hk => ?_
      rw [hbyte _ (hin k hk), hji, if_pos (by omega), Nat.add_sub_cancel_left]
    · next hji =>
      refine DirEntry.load_congr fun k hk => ?_
      rw [hbyte _ (hin k hk), if_neg]
      simp only [DIRENT_SIZE] at *
      omega
  unfold putEntry
  split
  · next hlt =>
    refine List.ext_getElem ?_ fun j h1 h2 => ?_
    · rw [List.length_set]
      simp only [DIRENT_SIZE] at *
      omega
    · rw [hentry j h1, List.getElem_set]
      by_cases hji : i = j
      · rw [if_pos hji, if_pos hji.symm]
      · rw [if_neg hji, if_neg (Ne.symm hji), getElem_entriesAt]
  · next hge =>
    have hlast : i = (entriesAt blocks dip).length := by
      simp only [DIRENT_SIZE] at *
      omega
    refine List.ext_getElem ?_ fun j h1 h2 => ?_
    · rw [List.length_append, List.length_singleton]
      simp only [DIRENT_SIZE] at *
      omega
    · rw [hentry j h1]
      split
      · next hji =>
        subst hji
        rw [List.getElem_append_right (by omega)]
        simp [hlast]
      · next hji =>
        have hj : j < (entriesAt blocks dip).length := by
          rw [List.length_append, List.length_singleton] at h2
          omega
        rw [List.getElem_append_left hj, getElem_entriesAt hj]

/-! ### Reading an entry -/

/-- Directory `x` is in memory, and these are its entries. -/
structure Listing (s : Fs) (x : Nat) (dir : List DirEntry) : Prop where
  type : (s.inodes x).dinode.type = FileType.T_DIR
  solid : Solid s.blocks (s.inodes x).dinode
  aligned : (s.inodes x).dinode.size.toNat % DIRENT_SIZE = 0
  entries : entriesAt s.blocks (s.inodes x).dinode = dir

namespace Listing

variable {dir : List DirEntry}

theorem length (h : Listing s x dir) :
    dir.length = (s.inodes x).dinode.size.toNat / DIRENT_SIZE := by
  rw [← h.entries, length_entriesAt]

/-- `read` of an entry. -/
theorem read (h : Listing s x dir) (hi : i < dir.length) {E : Fault → Prop} :
    Runs (INode.read sb x buf (i * DIRENT_SIZE) DIRENT_SIZE) s (fun r s' =>
      s' = { s with trace := .access x :: s.trace } ∧ r.1 = DIRENT_SIZE ∧
        DirEntry.load r.2 = dir[i]) E := by
  have hlen := h.length
  have hal := h.aligned
  refine (read_solid h.solid _ _).imp ?_
  rintro r s' ⟨hs', hr, hbuf⟩
  have hr : r.1 = DIRENT_SIZE := by
    rw [hr]
    simp only [DIRENT_SIZE] at *
    split <;> omega
  refine ⟨hs', hr, ?_⟩
  have hget : dir[i] = .load fun j => fbyte s.blocks (s.inodes x).dinode (i * DIRENT_SIZE + j) := by
    rw [← getElem_entriesAt (by rw [h.entries]; exact hi)]
    simp only [h.entries]
  rw [hget]
  refine DirEntry.load_congr fun j hj => ?_
  rw [hbuf j, if_pos (by rw [hr]; exact hj)]
  rfl

end Listing

theorem nodeAt_dir (h : dip.type = FileType.T_DIR) : nodeAt blocks dip =
    ⟨dip.type, dip.nlink, entriesAt blocks dip, 0, slot blocks dip, fun _ => 0⟩ := if_pos h

theorem nodeAt_file (h : dip.type ≠ FileType.T_DIR) (h' : dip.type ≠ FileType.Invalid) :
    nodeAt blocks dip =
      ⟨dip.type, dip.nlink, [], dip.size.toNat, slot blocks dip, fbyte blocks dip⟩ := by
  rw [nodeAt, if_neg h, if_neg h']

/-- What is known of a directory that has been read. -/
structure Wf.Dir (sb : SuperBlock) (s : Fs) (x : Nat) : Prop where
  lt : x < sb.ninodes
  valid : (s.inodes x).valid = true
  type : (s.dinode sb x).type = FileType.T_DIR
  solid : Solid s.blocks (s.inodes x).dinode
  aligned : (s.inodes x).dinode.size.toNat % DIRENT_SIZE = 0
  entries : ((s.abs sb).node x).dir = entriesAt s.blocks (s.inodes x).dinode
  length : ((s.abs sb).node x).dir.length = (s.inodes x).dinode.size.toNat / DIRENT_SIZE
  inums : ∀ e ∈ ((s.abs sb).node x).dir, e.inum.toNat < sb.ninodes

theorem Wf.dir (h : Wf sb s) (hx : (s.inodes x).dinode.type = FileType.T_DIR) :
    Wf.Dir sb s x := by
  obtain ⟨hv, -⟩ := h.dir_valid hx
  have hlt := h.valid_lt hv
  have htype : (s.dinode sb x).type = FileType.T_DIR := by
    rw [← hx, h.synced hv]
  have hsolid := h.tidy.solid x hlt htype
  have hentries : ((s.abs sb).node x).dir = entriesAt s.blocks (s.dinode sb x) := by
    rw [abs_node hlt, nodeAt_dir htype]
  have hmem : entriesAt s.blocks (s.inodes x).dinode = entriesAt s.blocks (s.dinode sb x) :=
    entriesAt_congr (h.size_eq hv) (h.fbyte_eq hv)
  exact {
    lt := hlt
    valid := hv
    type := htype
    solid := ⟨by rw [h.size_eq hv]; exact hsolid.size_le, fun n hn => by
      rw [h.slot_eq hv]
      rw [h.size_eq hv] at hn
      exact hsolid.mapped n hn⟩
    aligned := by rw [h.size_eq hv]; exact h.tidy.aligned x hlt htype
    entries := hentries.trans hmem.symm
    length := by rw [hentries, ← hmem, length_entriesAt]
    inums := by rw [hentries]; exact h.tidy.inums x hlt htype }

theorem Wf.Dir.listing (h : Wf.Dir sb s x) (hx : (s.inodes x).dinode.type = FileType.T_DIR) :
    Listing s x ((s.abs sb).node x).dir := ⟨hx, h.solid, h.aligned, h.entries.symm⟩

/-- `read` of an entry of a directory. -/
theorem Wf.read_entry (h : Wf sb s) (hx : (s.inodes x).dinode.type = FileType.T_DIR) {buf}
    (hi : i < ((s.abs sb).node x).dir.length) :
    Does sb (INode.read sb x buf (i * DIRENT_SIZE) DIRENT_SIZE) s fun r s' =>
      Reads sb s s' (s.abs sb) ∧ s'.inodes = s.inodes ∧ r.1 = DIRENT_SIZE ∧
        DirEntry.load r.2 = ((s.abs sb).node x).dir[i] := by
  refine ((h.dir hx).listing hx).read hi |>.imp ?_
  rintro r s' ⟨hs', hr, hload⟩
  subst hs'
  exact ⟨h.congr rfl rfl, ⟨rfl, rfl⟩, rfl, hr, hload⟩

/-! ### Blocks in use -/

theorem alloc_lt (hx : (s.abs sb).Alloc x) : x < sb.ninodes := by
  apply Nat.lt_of_not_le
  intro hle
  exact hx (congrArg Node.type (if_neg (Nat.not_lt.mpr hle)))

theorem nodeAt_slots {blocks : Nat → BlockData} {dip : DiskINode}
    (h : dip.type ≠ FileType.Invalid) : (nodeAt blocks dip).slots = slot blocks dip := by
  unfold nodeAt
  split
  · rfl
  · rfl

theorem abs_slots (hx : (s.abs sb).Alloc x) :
    ((s.abs sb).node x).slots = slot s.blocks (s.dinode sb x) := by
  have hlt := alloc_lt hx
  rw [AbsFs.Alloc, abs_type hlt] at hx
  rw [abs_node hlt, nodeAt_slots hx]

/-- The blocks in use are those in the slots of the allocated inodes. -/
theorem Wf.used_iff (hl : Layout sb) (h : Wf sb s) {b : Nat} (hb : sb.Data b) :
    bitAt sb s.blocks b = true ↔
      ∃ x k, (s.abs sb).Alloc x ∧ k < NSLOT ∧ ((s.abs sb).node x).slots k = b := by
  have hne := hl.data_pos hb
  have hpart := h.tidy.owned.part.used_iff b
  constructor
  · intro hbit
    rcases hpart.mp ⟨hb, hbit⟩ with hextra | ⟨⟨x, k⟩, ⟨hlt, htype⟩, hk, hslot, -⟩
    · exact hextra.elim
    · have halloc : (s.abs sb).Alloc x := by rwa [AbsFs.Alloc, abs_type hlt]
      exact ⟨x, k, halloc, hk, (congrFun (abs_slots halloc) k).trans hslot⟩
  · rintro ⟨x, k, hx, hk, hslot⟩
    have hlt := alloc_lt hx
    rw [abs_slots hx] at hslot
    rw [AbsFs.Alloc, abs_type hlt] at hx
    exact (hpart.mpr (.inr ⟨(x, k), ⟨hlt, hx⟩, hk, hslot, hne⟩)).2

namespace AbsFs

/-- The blocks that no allocated inode has. -/
def free_blocks (sb : SuperBlock) (a : AbsFs) : Finset Nat :=
  (Finset.range sb.size).filter fun b => sb.datastart ≤ b ∧
    ∀ x < sb.ninodes, a.Alloc x → ∀ k < NSLOT, (a.node x).slots k ≠ b

/-- The slots of inode `x` that have to be mapped before `n` bytes at `off` can be stored. -/
def needed (a : AbsFs) (x off n : Nat) : Finset Nat :=
  (Finset.range NSLOT).filter fun l => (a.node x).slots l = 0 ∧ Spans off (off + n) l

/-- There is room for entry `i` of directory `x`. -/
def RoomAt (sb : SuperBlock) (a : AbsFs) (x i : Nat) : Prop :=
  i < (a.node x).dir.length ∨ i * DIRENT_SIZE + DIRENT_SIZE ≤ MAX_SIZE ∧
    (a.needed x (i * DIRENT_SIZE) DIRENT_SIZE).card ≤ (a.free_blocks sb).card

/-- There is room for one more entry of directory `x`. -/
def Room (sb : SuperBlock) (a : AbsFs) (x : Nat) : Prop := a.RoomAt sb x (freeSlot (a.node x).dir)

end AbsFs

theorem Wf.free_blocks_eq (hl : Layout sb) (h : Wf sb s) :
    s.free_blocks sb = (s.abs sb).free_blocks sb := by
  ext b
  rw [Fs.mem_free_blocks, AbsFs.free_blocks, Finset.mem_filter, Finset.mem_range]
  refine and_congr_right fun hb => ?_
  by_cases hdata : sb.datastart ≤ b
  · have hused := h.used_iff hl ⟨hdata, hb⟩
    rw [← Bool.not_eq_true, hused]
    simp only [hdata, true_and, not_exists, not_and]
    exact ⟨fun hall x _ hx k hk => hall x k hx hk,
      fun hall x k hx hk => hall x (alloc_lt hx) hx k hk⟩
  · have hmark := h.tidy.owned.marked b (Nat.lt_of_not_le hdata)
    simp only [hmark, hdata, false_and, Bool.true_eq_false]

/-! ### Writing -/

/-- What `write` leaves when it ends normally, in range or not, as far as the abstract state goes:
either nothing has changed or inode `x` is the node `nd`. -/
theorem Wf.written (h : Wf sb s) (hx : (s.inodes x).valid = true) {off n tot : Nat}
    (hw : Written sb (fun _ => False) x buf n off s tot s')
    (hdir : (s'.dinode sb x).type = FileType.T_DIR → Solid s'.blocks (s'.dinode sb x) ∧
      (s'.dinode sb x).size.toNat % DIRENT_SIZE = 0 ∧
      ∀ e ∈ entriesAt s'.blocks (s'.dinode sb x), e.inum.toNat < sb.ninodes) :
    Wf sb s' ∧ s'.abs sb = ((s.abs sb).modify x fun _ =>
      nodeAt s'.blocks (s'.dinode sb x)).setMem x (s.inodes x).dinode.nlink := by
  have hlt := h.valid_lt hx
  have htype : (s'.inodes x).dinode.type ≠ FileType.Invalid := by
    rw [hw.type_eq, h.synced hx]
    exact (h.cached x).alloc hx
  obtain ⟨hwf, habs⟩ := h.apart hw.toApart hlt hw.owned hdir
    (.of_synced h hx hw.cache hw.synced htype)
  refine ⟨hwf, habs.trans ((abs_synced hw.cache hx _).trans ?_)⟩
  rw [hw.nlink_eq]

/-- A change of a directory leaves its links. -/
theorem AbsFs.setMem_of_mem {a : AbsFs} {n : UInt16} (h : a.mem x = some n) : a.setMem x n = a := by
  refine AbsFs.ext rfl rfl ?_ rfl rfl
  simp only [AbsFs.setMem]
  rw [← h]
  exact setAt_same (x := x) _

theorem AbsFs.setSlots_same (a : AbsFs) (x : Nat) : a.setSlots x (a.node x).slots = a :=
  AbsFs.ext (setAt_same (x := x) _) rfl rfl rfl rfl

/-- What `write` of entry `i` of directory `x` does.  There is room for an entry in the place of
another. -/
inductive AbsFs.EntryStep (sb : SuperBlock) (a : AbsFs) (x i : Nat) (e : DirEntry) :
    Bool → AbsFs → Prop
  | written {slots : Nat → Nat} (hroom : a.RoomAt sb x i)
      (hkept : i < (a.node x).dir.length → slots = (a.node x).slots) :
      EntryStep sb a x i e true ((a.setEntry x i e).setSlots x slots)
  | no_room {slots : Nat → Nat} (hno : ¬a.RoomAt sb x i)
      (hspare : Node.Spare (a.node x).slots slots) :
      EntryStep sb a x i e false (a.setSlots x slots)

/-- The slots after a `write` of an entry in the place of another. -/
theorem Written.entry_slots {off tot : Nat} (hw : Written sb (fun _ => False) x buf DIRENT_SIZE off s tot s')
    (hsolid : Solid s.blocks (s.inodes x).dinode) (hoff : off % DIRENT_SIZE = 0)
    (hlt : off < (s.inodes x).dinode.size.toNat) : tot = DIRENT_SIZE ∧
      slot s'.blocks (s'.inodes x).dinode = slot s.blocks (s.inodes x).dinode := by
  have hmax := hsolid.size_le
  have hblk : off / BSIZE < MAX_FILE := div_lt_max (by omega)
  have hmapped : slot s.blocks (s.inodes x).dinode (fslot (off / BSIZE)) ≠ 0 := by
    refine hsolid.mapped _ ?_
    simp only [BSIZE]
    omega
  have hfull : ¬tot < DIRENT_SIZE := by
    intro hshort
    have h0 : tot = 0 ∨ (off + tot) % BSIZE = 0 := hw.edge hshort
    obtain rfl : tot = 0 := by
      simp only [DIRENT_SIZE, BSIZE] at *
      omega
    have hempty := hw.unmapped hshort
    rw [Nat.add_zero, hw.kept _ (fslot_lt hblk) hmapped] at hempty
    exact hmapped hempty
  obtain rfl : tot = DIRENT_SIZE := by
    have := hw.le
    omega
  refine ⟨rfl, funext fun k => ?_⟩
  by_cases hk : k < NSLOT
  · by_cases hne : slot s.blocks (s.inodes x).dinode k = 0
    · rw [hne]
      by_contra hnew
      obtain ⟨o, ho, hle, hspan⟩ := hw.only k hk hne hnew
      rw [if_neg hfull] at ho
      have hdiv : o / BSIZE = off / BSIZE := by
        simp only [DIRENT_SIZE, BSIZE] at *
        omega
      rw [hdiv] at hspan
      rcases hspan with rfl | ⟨rfl, hind⟩
      · exact hmapped hne
      · rw [slot_addr (by decide)] at hne
        rw [slot_indirect (by omega), if_pos hne] at hmapped
        exact hmapped rfl
    · exact hw.kept k hk hne
  · rw [slot_of_le (Nat.le_of_not_lt hk), slot_of_le (Nat.le_of_not_lt hk)]

/-- A `write` of an entry writes all of it or nothing. -/
theorem Written.entry_cases {tot : Nat}
    (hw : Written sb (fun _ => False) x buf DIRENT_SIZE (i * DIRENT_SIZE) s tot s') :
    tot = 0 ∨ tot = DIRENT_SIZE := by
  have hle := hw.le
  by_cases hlt : tot < DIRENT_SIZE
  · rcases hw.edge hlt with h0 | hedge
    · exact .inl h0
    · simp only [DIRENT_SIZE, BSIZE] at *
      omega
  · exact .inr (by omega)

/-- The entries after a `write` of one. -/
theorem Written.listing {dir : List DirEntry} {tot : Nat}
    (hw : Written sb (fun _ => False) x buf DIRENT_SIZE (i * DIRENT_SIZE) s tot s')
    (h : Listing s x dir) (hi : i ≤ dir.length) (hmax : i * DIRENT_SIZE + DIRENT_SIZE ≤ MAX_SIZE) :
    Listing s' x (if tot = DIRENT_SIZE then putEntry dir i (.load buf) else dir) := by
  have hlen := h.length
  have hal := h.aligned
  have hoff : i * DIRENT_SIZE ≤ (s.inodes x).dinode.size.toNat := by
    simp only [DIRENT_SIZE] at *
    omega
  have hsolid := hw.solid h.solid hoff hmax
  have hsize := hw.size_eq
  have hcases := hw.entry_cases
  refine ⟨hw.type_eq.trans h.type, hsolid, ?_, ?_⟩
  · rw [hsize]
    simp only [DIRENT_SIZE] at *
    omega
  · rw [← h.entries]
    split
    · next htot => exact entriesAt_put hoff hal htot hsize hsolid.size_le hw.bytes
    · next htot =>
      have h0 : tot = 0 := hcases.resolve_right htot
      subst h0
      refine entriesAt_congr (UInt32.toNat_inj.mp ?_) fun o => ?_
      · rw [hsize]
        omega
      · by_cases ho : o < MAX_SIZE
        · exact (hw.bytes o ho).trans (if_neg (by omega))
        · rw [fbyte_of_le (Nat.le_of_not_lt ho), fbyte_of_le (Nat.le_of_not_lt ho)]

/-- The slots after a `write` for which there was no block. -/
theorem Written.spare {n off : Nat} (hw : Written sb (fun _ => False) x buf n off s 0 s')
    (hn : 0 < n) : Node.Spare (slot s.blocks (s.inodes x).dinode)
      (slot s'.blocks (s'.inodes x).dinode) where
  others k hne := by
    by_cases hk : k < NSLOT
    · by_cases h0 : slot s.blocks (s.inodes x).dinode k = 0
      · rw [h0]
        by_contra hnew
        obtain ⟨o, ho, hle, hspan⟩ := hw.only k hk h0 hnew
        rw [if_pos hn] at ho
        obtain rfl : o = off := by omega
        rcases hspan with rfl | ⟨hind, -⟩
        · exact hnew (hw.unmapped hn)
        · exact hne hind
      · exact hw.kept k hk h0
    · rw [slot_of_le (Nat.le_of_not_lt hk), slot_of_le (Nat.le_of_not_lt hk)]
  indirect := hw.kept NDIRECT (by decide)

/-- `write` of an entry of a directory, or of one past its last. -/
theorem Wf.write_entry (hl : Layout sb) (h : Wf sb s) (ho : s.outstanding ≥ 1)
    (hx : (s.inodes x).dinode.type = FileType.T_DIR)
    (hi : i ≤ ((s.abs sb).node x).dir.length)
    (hinum : (DirEntry.load buf).inum.toNat < sb.ninodes) :
    Does sb (INode.write sb x buf (i * DIRENT_SIZE) DIRENT_SIZE) s fun n s' =>
      (s.abs sb).EntryStep sb x i (.load buf) (decide (n = DIRENT_SIZE)) (s'.abs sb) := by
  have hd := h.dir hx
  have hlen := hd.length
  have hal := hd.aligned
  have hmem := abs_mem_valid sb hd.valid
  have hoff : i * DIRENT_SIZE ≤ (s.inodes x).dinode.size.toNat := by
    simp only [DIRENT_SIZE] at *
    omega
  have hnlink : (s.inodes x).dinode.nlink = (s.dinode sb x).nlink :=
    (h.cached x).links hd.valid hd.type
  by_cases hmax : i * DIRENT_SIZE + DIRENT_SIZE ≤ MAX_SIZE
  · refine (write_runs hl (h.growing hd.valid ho) hoff hmax).mono (fun tot s' hw => ?_)
      fun _ => TooBig.benign
    have hcases := hw.entry_cases
    have hlist := hw.listing (hd.listing hx) hi hmax
    have htype' : (s'.dinode sb x).type = FileType.T_DIR := by
      rw [hw.synced]
      exact hlist.type
    have hsolid : Solid s'.blocks (s'.dinode sb x) := by
      rw [hw.synced]
      exact hlist.solid
    have hentries : entriesAt s'.blocks (s'.dinode sb x) =
        if tot = DIRENT_SIZE then putEntry ((s.abs sb).node x).dir i (.load buf)
        else ((s.abs sb).node x).dir := by
      rw [hw.synced]
      exact hlist.entries
    have hinums : ∀ e ∈ entriesAt s'.blocks (s'.dinode sb x), e.inum.toNat < sb.ninodes := by
      intro e he
      rw [hentries] at he
      split at he
      · unfold putEntry at he
        split at he
        · rcases List.mem_or_eq_of_mem_set he with he | rfl
          · exact hd.inums e he
          · exact hinum
        · rcases List.mem_append.mp he with he | he
          · exact hd.inums e he
          · rw [List.mem_singleton.mp he]
            exact hinum
      · exact hd.inums e he
    have haligned' : (s'.dinode sb x).size.toNat % DIRENT_SIZE = 0 := by
      rw [hw.synced]
      exact hlist.aligned
    obtain ⟨hwf, habs⟩ := h.written hd.valid hw fun _ => ⟨hsolid, haligned', hinums⟩
    have hnode : nodeAt s'.blocks (s'.dinode sb x) = { (s.abs sb).node x with
        dir := entriesAt s'.blocks (s'.dinode sb x)
        slots := slot s'.blocks (s'.inodes x).dinode } := by
      rw [nodeAt_dir htype', abs_node hd.lt, nodeAt_dir hd.type, hw.synced, hw.type_eq,
        hw.nlink_eq, hnlink, hx, hd.type]
    have hslots : ((s.abs sb).node x).slots = slot s.blocks (s.inodes x).dinode := by
      rw [abs_node hd.lt, nodeAt_dir hd.type]
      exact funext fun k => (h.slot_eq hd.valid k).symm
    have hsize : i < ((s.abs sb).node x).dir.length →
        i * DIRENT_SIZE < (s.inodes x).dinode.size.toNat := by
      intro hlt
      simp only [DIRENT_SIZE] at *
      omega
    have heven : i * DIRENT_SIZE % DIRENT_SIZE = 0 := Nat.mul_mod_left _ _
    have hfull : tot = DIRENT_SIZE ↔ ((s.abs sb).needed x (i * DIRENT_SIZE) DIRENT_SIZE).card ≤
        ((s.abs sb).free_blocks sb).card := by
      rw [← h.free_blocks_eq hl, AbsFs.needed, hslots]
      exact hw.full_iff (h.growing hd.valid ho) hmax
    refine ⟨hwf, ?_⟩
    dsimp only
    rw [habs, AbsFs.setMem_of_mem (show ((s.abs sb).modify x _).mem x = _ from hmem), hnode, hentries]
    by_cases htot : tot = DIRENT_SIZE
    · rw [if_pos htot, decide_eq_true htot]
      have hstep : (s.abs sb).EntryStep sb x i (.load buf) true
          (((s.abs sb).setEntry x i (.load buf)).setSlots x
            (slot s'.blocks (s'.inodes x).dinode)) := by
        refine .written (.inr ⟨hmax, hfull.mp htot⟩) fun hlt => ?_
        rw [hslots]
        exact (hw.entry_slots hd.solid heven (hsize hlt)).2
      simpa only [AbsFs.setEntry, AbsFs.setSlots, AbsFs.modify, setAt_self, setAt_setAt] using hstep
    · rw [if_neg htot, decide_eq_false htot]
      have h0 : tot = 0 := hcases.resolve_right htot
      subst h0
      refine .no_room (fun hroom => ?_) ?_
      · rcases hroom with hlt | ⟨-, hle⟩
        · exact htot (hw.entry_slots hd.solid heven (hsize hlt)).1
        · exact htot (hfull.mpr hle)
      rw [hslots]
      exact hw.spare (by decide)
  · refine (write_out_of_range (.inr (by omega))).imp ?_
    rintro n s' ⟨hn, hs'⟩
    subst hs'
    refine ⟨h.congr rfl rfl, ?_⟩
    have hshort : n ≠ DIRENT_SIZE := by
      rw [hn]
      decide
    dsimp only
    rw [decide_eq_false hshort]
    have hno : ¬(s.abs sb).RoomAt sb x i := by
      rintro (hlt | ⟨hle, -⟩)
      · have := hd.solid.size_le
        simp only [DIRENT_SIZE] at *
        omega
      · exact hmax hle
    have hstep := AbsFs.EntryStep.no_room (e := .load buf) hno (.refl _)
    rwa [AbsFs.setSlots_same] at hstep

/-! ### Files -/

/-- File `x` has got another size, other blocks and other bytes, and the links that it has in
memory. -/
def AbsFs.FileStep (a : AbsFs) (x : Nat) (a' : AbsFs) : Prop :=
  a' = a ∨ ∃ size slots bytes, a' = (a.setLinks x (a.links x)).setFile x size slots bytes

/-- What is known of a file that has been read. -/
structure Wf.File (sb : SuperBlock) (s : Fs) (x : Nat) : Prop where
  lt : x < sb.ninodes
  valid : (s.inodes x).valid = true
  type : (s.dinode sb x).type ≠ FileType.T_DIR
  alloc : (s.dinode sb x).type ≠ FileType.Invalid
  mem : (s.abs sb).mem x = some (s.inodes x).dinode.nlink
  node : (s.abs sb).node x = ⟨(s.dinode sb x).type, (s.dinode sb x).nlink, [],
    (s.inodes x).dinode.size.toNat, slot s.blocks (s.inodes x).dinode,
    fbyte s.blocks (s.inodes x).dinode⟩

theorem Wf.file (h : Wf sb s) (hv : (s.inodes x).valid = true)
    (hx : (s.inodes x).dinode.type ≠ FileType.T_DIR) : Wf.File sb s x := by
  have hlt := h.valid_lt hv
  have htype : (s.dinode sb x).type ≠ FileType.T_DIR := by
    rw [h.synced hv] at hx
    exact hx
  have halloc : (s.dinode sb x).type ≠ FileType.Invalid := (h.cached x).alloc hv
  exact {
    lt := hlt
    valid := hv
    type := htype
    alloc := halloc
    mem := abs_mem_valid sb hv
    node := by
      rw [abs_node hlt, nodeAt_file htype halloc, h.size_eq hv,
        show slot s.blocks (s.inodes x).dinode = slot s.blocks (s.dinode sb x) from
          funext fun k => h.slot_eq hv k,
        show fbyte s.blocks (s.inodes x).dinode = fbyte s.blocks (s.dinode sb x) from
          funext fun o => h.fbyte_eq hv o] }

/-- The abstract state after a change of file `x` that is written through. -/
theorem Wf.File.step (hf : Wf.File sb s x)
    (hsync : s'.dinode sb x = (s'.inodes x).dinode)
    (htype : (s'.inodes x).dinode.type = (s.inodes x).dinode.type)
    (hnlink : (s'.inodes x).dinode.nlink = (s.inodes x).dinode.nlink) (h : Wf sb s) :
    ((s.abs sb).modify x fun _ => nodeAt s'.blocks (s'.dinode sb x)).setMem x
        (s'.inodes x).dinode.nlink =
      ((s.abs sb).setLinks x ((s.abs sb).links x)).setFile x (s'.inodes x).dinode.size.toNat
        (slot s'.blocks (s'.inodes x).dinode) (fbyte s'.blocks (s'.inodes x).dinode) := by
  have hmem := hf.mem
  have ht : (s'.dinode sb x).type = (s.dinode sb x).type := by
    rw [hsync, htype, h.synced hf.valid]
  have hnode : nodeAt s'.blocks (s'.dinode sb x) = ⟨(s.dinode sb x).type,
      (s.inodes x).dinode.nlink, [], (s'.inodes x).dinode.size.toNat,
      slot s'.blocks (s'.inodes x).dinode, fbyte s'.blocks (s'.inodes x).dinode⟩ := by
    rw [nodeAt_file (by rw [ht]; exact hf.type) (by rw [ht]; exact hf.alloc), ht, hsync, hnlink]
  rw [hnode, hnlink]
  refine AbsFs.ext ?_ rfl ?_ rfl rfl
  · funext y
    simp only [AbsFs.setMem, AbsFs.modify, AbsFs.setLinks, AbsFs.setFile, AbsFs.links, hmem,
      Option.getD_some, setAt_apply, hf.node]
    split <;> rfl
  · simp only [AbsFs.setMem, AbsFs.modify, AbsFs.setLinks, AbsFs.setFile, AbsFs.links, hmem,
      Option.getD_some]

/-- `write` to a file. -/
theorem Wf.write_file (hl : Layout sb) (h : Wf sb s) (ho : s.outstanding ≥ 1)
    (hv : (s.inodes x).valid = true) (hx : (s.inodes x).dinode.type ≠ FileType.T_DIR)
    (off n : Nat) :
    Does sb (INode.write sb x buf off n) s fun _ s' =>
      (s.abs sb).FileStep x (s'.abs sb) ∧ ((s.abs sb).node x).Keeps ((s'.abs sb).node x) ∧
        (((s.abs sb).node x).Whole → ((s'.abs sb).node x).Whole) := by
  have hf := h.file hv hx
  by_cases hout : off > (s.inodes x).dinode.size.toNat ∨ off + n > MAX_SIZE
  · refine (write_out_of_range hout).imp ?_
    rintro n s' ⟨_, hs'⟩
    subst hs'
    exact ⟨h.congr rfl rfl, .inl rfl, fun _ _ => rfl, id⟩
  · obtain ⟨hoff, hmax⟩ := not_or.mp hout
    have hoff : off ≤ (s.inodes x).dinode.size.toNat := Nat.le_of_not_lt hoff
    have hmax : off + n ≤ MAX_SIZE := Nat.le_of_not_lt hmax
    refine (write_runs hl (h.growing hv ho) hoff hmax).mono (fun tot s' hw => ?_)
      fun _ => TooBig.benign
    obtain ⟨hwf, habs⟩ := h.written hv hw fun ht => by
      rw [hw.synced, hw.type_eq] at ht
      exact absurd ht hx
    have hnode := hf.step hw.synced hw.type_eq hw.nlink_eq h
    rw [← hw.nlink_eq, hnode] at habs
    refine ⟨hwf, .inr ⟨_, _, _, habs⟩, ?_, fun hwhole => ?_⟩
    · rw [habs, hf.node]
      simp only [AbsFs.setFile, AbsFs.modify, setAt_self]
      intro k hne
      refine hw.kept k (Nat.lt_of_not_le fun hk => ?_) hne
      exact hne (slot_of_le hk)
    · rw [hf.node] at hwhole
      have hsolid := hw.solid ⟨hwhole.1, hwhole.2⟩ hoff hmax
      rw [habs]
      simp only [AbsFs.setFile, AbsFs.modify, setAt_self]
      exact ⟨hsolid.size_le, hsolid.mapped⟩

/-- `trunc` of a file. -/
theorem Wf.trunc_file (hl : Layout sb) (h : Wf sb s) (ho : s.outstanding ≥ 1)
    (hv : (s.inodes x).valid = true) (hx : (s.inodes x).dinode.type ≠ FileType.T_DIR) :
    Does sb (INode.trunc sb x) s fun _ s' =>
      s'.abs sb = ((s.abs sb).setLinks x ((s.abs sb).links x)).setFile x 0 (fun _ => 0)
        fun _ => 0 := by
  have hf := h.file hv hx
  have hg := h.growing hv ho
  refine (trunc_runs hl hg.alloc hg.owned ho).mono (fun _ s' ht => ?_) fun _ => TooBig.benign
  have hmem : (s'.inodes x).dinode = (s.inodes x).dinode.bare := by rw [ht.inodes, setAt_self]
  have hcache : s'.inodes x = { s.inodes x with dinode := (s'.inodes x).dinode } := by
    rw [hmem, ht.inodes, setAt_self]
  have htype : (s'.inodes x).dinode.type = (s.inodes x).dinode.type := by rw [hmem]; rfl
  obtain ⟨hwf, habs⟩ := h.apart ht.toApart hf.lt ht.owned (fun htd => by
      rw [ht.synced, htype] at htd
      exact absurd htd hx)
    (.of_synced h hv hcache ht.synced (by
      rw [htype, h.synced hv]
      exact hf.alloc))
  have hstep := hf.step ht.synced htype (by rw [hmem]; rfl) h
  refine ⟨hwf, (habs.trans ((abs_synced hcache hv _).trans hstep)).trans ?_⟩
  have hslot : slot s'.blocks (s.inodes x).dinode.bare = fun _ => 0 := funext slot_bare
  have hbyte : fbyte s'.blocks (s.inodes x).dinode.bare = fun _ => 0 := funext fbyte_bare
  rw [hmem, hslot, hbyte]
  rfl

/-- The size of a file changes, and its blocks stay. -/
theorem Wf.resize_file (hl : Layout sb) (h : Wf sb s) (ho : s.outstanding ≥ 1)
    (hv : (s.inodes x).valid = true) (hx : (s.inodes x).dinode.type ≠ FileType.T_DIR)
    (size : UInt32) :
    Does sb (do modify_dinode x fun dip => { dip with size }; INode.update sb x) s fun _ s' =>
      s'.abs sb = ((s.abs sb).setLinks x ((s.abs sb).links x)).setFile x size.toNat
        ((s.abs sb).node x).slots ((s.abs sb).node x).bytes := by
  have hf := h.file hv hx
  have hg := h.growing hv ho
  refine (modify_update_runs _ ho).mono (fun _ s' hs => ?_) fun _ => TooBig.benign
  have hmem := hs.mem
  have hsync : s'.dinode sb x = (s'.inodes x).dinode := by rw [hs.disk_self, hmem]
  have htype : (s'.inodes x).dinode.type = (s.inodes x).dinode.type := by rw [hmem]
  obtain ⟨hwf, habs⟩ := h.apart (hs.apart hl hf.lt hg.owned) hf.lt (by
      rw [← Fs.view_synced hsync]
      exact hs.owned hl hf.lt hg.owned rfl rfl) (fun htd => by
      rw [hsync, htype] at htd
      exact absurd htd hx)
    (.of_synced h hv hs.cache hsync (by
      rw [htype, h.synced hv]
      exact hf.alloc))
  have hstep := hf.step hsync htype (by rw [hmem]) h
  refine ⟨hwf, (habs.trans ((abs_synced hs.cache hv _).trans hstep)).trans ?_⟩
  have hslot : slot s'.blocks (s'.inodes x).dinode = slot s.blocks (s.inodes x).dinode :=
    funext fun k => hs.slot_eq hl hf.lt hg.owned hg.alloc rfl k
  have hbyte : fbyte s'.blocks (s'.inodes x).dinode = fbyte s.blocks (s.inodes x).dinode := by
    funext o
    rw [fbyte, fbyte, hslot]
    split
    · rfl
    · next hne =>
      have hk : fslot (o / BSIZE) < NSLOT := Nat.lt_of_not_le fun hk => hne (slot_of_le hk)
      rw [hs.data hl hf.lt (hg.owned.data _ _ (hg.holds hk hne))]
  rw [hslot, hbyte, hf.node, hmem]

end Xv6fs
