import Xv6fs.Fs.Budget

/-! `create`: what it does to the abstract state, and what it logs. -/

namespace Xv6fs

open Program (Runs runs_bind runs_pure runs_get runs_modify runs_assert runs_throw runs_ite runs_imp)

variable {sb : SuperBlock} {s s' s0 s1 s2 s3 : Fs} {x y i : Nat} {a a' : AbsFs}
  {dir : List DirEntry}

/-- There is one bitmap block, and every directory has links: what the budget rests on. -/
def Budgeted (sb : SuperBlock) (s : Fs) : Prop := sb.size ≤ BIT_PER_BLOCK ∧ (s.abs sb).Linked

theorem Reads.outstanding (hr : Reads sb s s' a) : s'.outstanding = a.outstanding :=
  congrArg AbsFs.outstanding hr.abs

/-- The links of an inode that has been read. -/
theorem links_eq (hx : (s.inodes x).valid = true) :
    (s.abs sb).links x = (s.inodes x).dinode.nlink := by
  rw [AbsFs.links, abs_mem_valid sb hx, Option.getD_some]

theorem outstanding_of_abs (h : s'.abs sb = a) : s'.outstanding = a.outstanding :=
  congrArg AbsFs.outstanding h

/-! ### The steps with what they log -/

namespace Wf

/-- `inode_name_parent` at the beginning of an operation. -/
theorem start_parent (hl : Layout sb) (hroot : ROOTINO < sb.ninodes) (h : Wf sb s)
    (ho : s.outstanding ≥ 1) (path : List UInt8) :
    Does sb (Xv6fs.inode_name_parent sb path) s fun r s' =>
      (r = resolveParent (s.abs sb).node path ∧ Since sb s s' (r.toList.map Prod.fst) ∧
        ∀ p ∈ r, p.1 < sb.ninodes ∧ (s'.abs sb).OpenDir p.1) ∧
      (Budgeted sb s → Adds {sb.bmapstart} 1 s s') := by
  have hwalk := h.inode_name_parent hl hroot h ho (.refl s) path
  simp only [List.append_nil] at hwalk
  refine Runs.imp (hwalk.also (runs_imp fun hb : Budgeted sb s =>
    h.inode_name_x_adds hl hb.1 hroot ho hb.2 path true)) ?_
  rintro _ _ ⟨⟨h1, h2⟩, h3⟩
  exact ⟨h1, h2, h3⟩

theorem start_name (hl : Layout sb) (hroot : ROOTINO < sb.ninodes) (h : Wf sb s)
    (ho : s.outstanding ≥ 1) (path : List UInt8) :
    Does sb (Xv6fs.inode_name sb path) s fun r s' =>
      (r = resolve (s.abs sb).node path ∧ Since sb s s' r.toList ∧ ∀ x ∈ r, x < sb.ninodes) ∧
      (Budgeted sb s → Adds {sb.bmapstart} 1 s s') := by
  have hwalk := h.inode_name hl hroot h ho (.refl s) path
  simp only [List.append_nil] at hwalk
  have hadds : Runs (Xv6fs.inode_name sb path) s
      (fun _ s' => Budgeted sb s → Adds {sb.bmapstart} 1 s s') fun _ => True :=
    runs_imp fun hb => (h.inode_name_x_adds hl hb.1 hroot ho hb.2 path false).bind fun _ _ h1 => h1
  refine Runs.imp (hwalk.also hadds) ?_
  rintro _ _ ⟨⟨h1, h2⟩, h3⟩
  exact ⟨h1, h2, h3⟩

end Wf

/-- The inode and the bitmap. -/
abbrev own (sb : SuperBlock) (x : Nat) : Finset Nat := {sb.bmapstart, INODE_BLOCK sb x}

theorem sub_bmap (sb : SuperBlock) (x y : Nat) :
    {sb.bmapstart} ⊆ insert (INODE_BLOCK sb x) (own sb y) := by
  simp

theorem sub_inode (sb : SuperBlock) (x y : Nat) :
    {INODE_BLOCK sb y} ⊆ insert (INODE_BLOCK sb x) (own sb y) := by
  simp

theorem sub_own (sb : SuperBlock) (x y : Nat) :
    own sb x ⊆ insert (INODE_BLOCK sb x) (own sb y) := by
  simp [Finset.insert_subset_iff]

namespace Adds

variable {n m : Nat}

/-- What is logged with the inode among the others. -/
theorem other (h : Adds (own sb x) n s s') : Adds {sb.bmapstart} (n + 1) s s' := by
  rw [own, Finset.pair_comm] at h
  exact h.absorb

/-- What is logged with more blocks allowed. -/
theorem le {K : Finset Nat} (h : Adds K n s s') (hn : n ≤ m) : Adds K m s s' :=
  h.mono (Finset.Subset.refl K) hn

end Adds

namespace Does

variable {α β : Type} {m : Prog α} {f : α → Prog β} {Q Q' : α → Fs → Prop} {R : β → Fs → Prop}

/-- What is known of a step besides. -/
theorem also (h : Does sb m s Q) (h' : Runs m s Q' fun _ => True) :
    Does sb m s fun a s' => Q a s' ∧ Q' a s' :=
  Runs.imp (Runs.also h h') fun _ _ hs' => ⟨hs'.1.1, hs'.1.2, hs'.2⟩

end Does

namespace Wf

theorem lock_logs (h : Wf sb s) (x : Nat) :
    Does sb (INode.lock sb x) s fun _ s' =>
      (Reads sb s s' ((s.abs sb).load x) ∧ (s'.inodes x).valid = true ∧ 0 < (s.inodes x).ref) ∧
        Adds ∅ 0 s s' :=
  (h.lock x).also (lock_costs x s)

theorem unlock_logs (h : Wf sb s) (x : Nat) :
    Does sb (INode.unlock x) s fun _ s' => Reads sb s s' (s.abs sb) ∧ Adds ∅ 0 s s' :=
  (h.unlock x).also (unlock_costs x s)

theorem dirlookup_logs (h : Wf sb s) (x : Nat) (name : List UInt8) :
    Does sb (INode.dirlookup sb x name) s fun r s' =>
      ((s.abs sb).OpenDir x ∧ Looked sb x name s r s') ∧ Adds ∅ 0 s s' :=
  (h.dirlookup x name).also (h.dirlookup_adds x name)

theorem put_logs (hl : Layout sb) (h : Wf sb s) (ho : s.outstanding ≥ 1) (x : Nat) :
    Does sb (inode_unlock_put sb x) s fun _ s' =>
      (s'.abs sb = (s.abs sb).put x ∧
        (¬((s.abs sb).ref x = 1 ∧ (s.abs sb).mem x = some 0) → s'.blocks = s.blocks)) ∧
      (sb.size ≤ BIT_PER_BLOCK → Adds (own sb x) 0 s s') :=
  (h.unlock_put hl ho x).also
    (runs_imp fun hone => (h.unlock_put_adds hl hone x).imp fun _ _ hs => hs.1)

theorem links_logs (hl : Layout sb) (h : Wf sb s) (hx : (s.inodes x).valid = true)
    (ho : s.outstanding ≥ 1) (f : DiskINode → DiskINode)
    (htype : (f (s.inodes x).dinode).type = (s.inodes x).dinode.type)
    (hsize : (f (s.inodes x).dinode).size = (s.inodes x).dinode.size)
    (haddrs : (f (s.inodes x).dinode).addrs = (s.inodes x).dinode.addrs) :
    Does sb (do modify_dinode x f; INode.update sb x) s fun _ s' =>
      s'.abs sb = (s.abs sb).setLinks x (f (s.inodes x).dinode).nlink ∧ Adds (own sb x) 0 s s' :=
  (h.update_links hl hx ho f htype hsize haddrs).also
    ((Costs.modify_inode (n := 0) x _).bind_free (fun _ => Costs.update (by simp)) s)

end Wf

/-- `inode_alloc` logs the inode that it takes. -/
theorem inode_alloc_adds (type : UInt16) :
    Runs (inode_alloc sb type) s (fun r s' => Adds (r.elim ∅ fun x => {INODE_BLOCK sb x}) 0 s s')
      fun _ => True := by
  have hloop : ∀ fuel inum, Runs (inode_alloc_from sb type fuel inum) s
      (fun r s' => Adds (r.elim ∅ fun x => {INODE_BLOCK sb x}) 0 s s') fun _ => True := by
    intro fuel
    induction fuel with
    | zero => exact fun _ => Adds.refl s
    | succ fuel ih =>
      intro inum
      rw [inode_alloc_from]
      refine runs_ite.mpr ⟨fun _ => runs_bind.mpr (runs_ite.mpr ⟨fun _ => ?_, fun _ => ih _⟩),
        fun _ => Adds.refl s⟩
      have hstore : Costs (store_dinode sb inum { DiskINode.zero with type })
          {INODE_BLOCK sb inum} 0 := .modify_block _ _
      exact (hstore s).bind fun _ s1 h1 => (Costs.log_write (n := 0) (by simp) s1).bind
        fun _ s2 h2 => (Costs.modify_inode (n := 0) inum _ s2).bind
          fun _ s3 h3 => (h1.then_same h2).then_same h3
  exact hloop _ _

/-! ### `create` -/

/-- The entries of a directory with one more, in the first free slot or at the end. -/
def linkEntry (dir : List DirEntry) (name : List UInt8) (inum : Nat) : List DirEntry :=
  putEntry dir (freeSlot dir) ⟨UInt16.ofNat inum, strncpy name⟩

namespace AbsFs

/-- Directory `x` gets an entry. -/
def addEntry (a : AbsFs) (x : Nat) (name : List UInt8) (inum : Nat) : AbsFs :=
  a.modify x fun nd => { nd with dir := linkEntry nd.dir name inum }

theorem modify_node_of_ne (f : Node → Node) (h : y ≠ x) : (a.modify x f).node y = a.node y :=
  setAt_of_ne h

theorem modify_node_self (f : Node → Node) : (a.modify x f).node x = f (a.node x) := setAt_self

@[simp] theorem put_outstanding (a : AbsFs) (x : Nat) :
    (a.put x).outstanding = a.outstanding := by
  unfold put
  split <;> rfl

@[simp] theorem put_files (a : AbsFs) (x : Nat) : (a.put x).files = a.files := by
  unfold put
  split <;> rfl

end AbsFs

/-- Directory `x` gets an entry, and a block when that needs one, if there is room. -/
inductive AbsFs.Enters (sb : SuperBlock) (a : AbsFs) (x : Nat) (name : List UInt8) (inum : Nat) :
    Bool → AbsFs → Prop
  | added {slots : Nat → Nat} (hroom : a.Room sb x) :
      Enters sb a x name inum true ((a.addEntry x name inum).setSlots x slots)
  | no_room {slots : Nat → Nat} (hno : ¬a.Room sb x)
      (hspare : Node.Spare (a.node x).slots slots) :
      Enters sb a x name inum false (a.setSlots x slots)

namespace AbsFs.Enters

variable {name : List UInt8} {inum : Nat} {b : Bool}

/-- The cache and the file table are as they were. -/
theorem frame (h : a.Enters sb x name inum b a') :
    a'.ref = a.ref ∧ a'.mem = a.mem ∧ a'.files = a.files ∧ a'.outstanding = a.outstanding := by
  cases h <;> exact ⟨rfl, rfl, rfl, rfl⟩

theorem other (h : a.Enters sb x name inum b a') (hy : y ≠ x) : a'.node y = a.node y := by
  cases h <;> simp only [addEntry, setSlots, modify, setAt_of_ne hy]

theorem entries (h : a.Enters sb x name inum true a') :
    (a'.node x).dir = linkEntry (a.node x).dir name inum := by
  cases h
  simp only [addEntry, setSlots, modify, setAt_self]

end AbsFs.Enters

/-- What `create_entries` leaves: the entries that it could add. -/
inductive Entered (sb : SuperBlock) (a : AbsFs) (type : UInt16) (dp ip : Nat) (name : List UInt8) :
    Bool → AbsFs → Prop
  | file {a' : AbsFs} (htype : type ≠ FileType.T_DIR) (h : a.Enters sb dp name ip true a') :
      Entered sb a type dp ip name true a'
  | dir {a1 a2 a' : AbsFs} (htype : type = FileType.T_DIR) (hdot : a.Enters sb ip [46] ip true a1)
      (hdotdot : a1.Enters sb ip [46, 46] dp true a2) (h : a2.Enters sb dp name ip true a') :
      Entered sb a type dp ip name true a'
  | not {slots' : Nat → Nat} (dir : List DirEntry) (slots : Nat → Nat)
      (hspare : Node.Spare (a.node dp).slots slots')
      (hno : type ≠ FileType.T_DIR → ¬a.Room sb dp) :
      Entered sb a type dp ip name false
        ((a.modify ip fun nd => { nd with dir, slots }).setSlots dp slots')

namespace Entered

variable {type : UInt16} {dp ip : Nat} {name : List UInt8}

/-- The cache and the file table are as they were. -/
theorem frame {b : Bool} (h : Entered sb a type dp ip name b a') :
    a'.ref = a.ref ∧ a'.mem = a.mem ∧ a'.files = a.files ∧ a'.outstanding = a.outstanding := by
  cases h with
  | file _ h => exact h.frame
  | dir _ hdot hdotdot h =>
    obtain ⟨h1, h2, h3, h4⟩ := hdot.frame
    obtain ⟨h5, h6, h7, h8⟩ := hdotdot.frame
    obtain ⟨h9, h10, h11, h12⟩ := h.frame
    exact ⟨h9.trans (h5.trans h1), h10.trans (h6.trans h2), h11.trans (h7.trans h3),
      h12.trans (h8.trans h4)⟩
  | not => exact ⟨rfl, rfl, rfl, rfl⟩

end Entered

/-- `dirlink` of a name that is not there. -/
theorem Wf.dirlink_new (hl : Layout sb) (h : Wf sb s) (ho : s.outstanding ≥ 1) (x : Nat)
    {name : List UInt8} {inum : Nat} (hinum : inum < sb.ninodes)
    (hnone : findEntry ((s.abs sb).node x).dir name = none) :
    Does sb (INode.dirlink sb x name inum) s fun r s' =>
      (s.abs sb).Enters sb x name inum r (s'.abs sb) ∧
        (sb.size ≤ BIT_PER_BLOCK → Adds (own sb x) 2 s s') := by
  refine ((h.dirlink hl ho x name hinum).also (runs_imp fun hone : sb.size ≤ BIT_PER_BLOCK =>
    h.dirlink_adds hl hone x name inum)).imp ?_
  rintro r s' _ ⟨⟨_, hlinked⟩, hadds⟩
  refine ⟨?_, hadds⟩
  generalize s'.abs sb = a' at hlinked
  cases hlinked with
  | exists_ hsome =>
    rw [hnone] at hsome
    cases hsome
  | tried _ hstep =>
    cases hstep with
    | written hroom _ => exact .added hroom
    | no_room hno hspare => exact .no_room hno hspare

theorem Wf.create_entries (hl : Layout sb) (h : Wf sb s) (ho : s.outstanding ≥ 1) {type : UInt16}
    {dp ip : Nat} {name : List UInt8} (hdp : dp < sb.ninodes) (hip : ip < sb.ninodes)
    (hne : dp ≠ ip) (hempty : ((s.abs sb).node ip).dir = [])
    (hnone : findEntry ((s.abs sb).node dp).dir name = none) :
    Does sb (create.create_entries sb type dp ip name) s fun b s' =>
      Entered sb (s.abs sb) type dp ip name b (s'.abs sb) ∧
        (sb.size ≤ BIT_PER_BLOCK → Adds (insert (INODE_BLOCK sb dp) (own sb ip)) 6 s s') := by
  have hK : own sb ip ⊆ insert (INODE_BLOCK sb dp) (own sb ip) ∧
      own sb dp ⊆ insert (INODE_BLOCK sb dp) (own sb ip) :=
    ⟨Finset.subset_insert _ _, sub_own sb dp ip⟩
  -- inode `ip` is not `dp`, so nothing else has changed when an entry is missing
  have hnot : ∀ {a' : AbsFs}, (∀ y ≠ ip, a'.node y = (s.abs sb).node y) →
      (∃ dir slots, a'.node ip = { (s.abs sb).node ip with dir, slots }) →
      a'.ref = (s.abs sb).ref ∧ a'.mem = (s.abs sb).mem ∧ a'.files = (s.abs sb).files ∧
        a'.outstanding = (s.abs sb).outstanding →
      ∀ {slots'}, Node.Spare (a'.node dp).slots slots' →
      (type ≠ FileType.T_DIR → ¬(s.abs sb).Room sb dp) →
      Entered sb (s.abs sb) type dp ip name false (a'.setSlots dp slots') := by
    rintro a' hothers ⟨dir, slots, hself⟩ ⟨href, hmem, hfiles, hout⟩ slots' hspare hno
    have heq : a' = (s.abs sb).modify ip fun nd => { nd with dir, slots } := by
      refine AbsFs.ext (funext fun y => ?_) href hmem hfiles hout
      by_cases hy : y = ip
      · rw [hy, hself, AbsFs.modify_node_self]
      · rw [hothers y hy, AbsFs.modify_node_of_ne _ hy]
    rw [hothers dp hne] at hspare
    rw [heq]
    exact .not dir slots hspare hno
  have hself : ∀ {a1 a2 : AbsFs} {nm : List UInt8} {inum : Nat} {b : Bool},
      a1.Enters sb ip nm inum b a2 → (∃ dir slots, a1.node ip = { (s.abs sb).node ip with dir, slots }) →
      ∃ dir slots, a2.node ip = { (s.abs sb).node ip with dir, slots } := by
    rintro a1 a2 nm inum b henters ⟨dir, slots, heq⟩
    cases henters with
    | @added slots' _ =>
      refine ⟨linkEntry dir nm inum, slots', ?_⟩
      simp only [AbsFs.addEntry, AbsFs.setSlots, AbsFs.modify, setAt_self, heq]
    | @no_room slots' _ _ =>
      refine ⟨dir, slots', ?_⟩
      simp only [AbsFs.setSlots, AbsFs.modify, setAt_self, heq]
  have hstart : ∃ dir slots, (s.abs sb).node ip = { (s.abs sb).node ip with dir, slots } :=
    ⟨_, _, rfl⟩
  rw [create.create_entries]
  refine .ite (fun htype => ?_) fun htype => ?_
  · refine (h.dirlink_new hl ho ip hip (by rw [hempty]; rfl)).bind ?_
    rintro dot s1 h1 ⟨henters1, hadds1⟩
    refine .ite (fun hdot => ?_) fun hdot => ?_
    · rw [hdot] at henters1
      have hdir1 : ((s1.abs sb).node ip).dir = linkEntry [] [46] ip := by
        rw [henters1.entries, hempty]
      have hnone1 : findEntry ((s1.abs sb).node ip).dir [46, 46] = none := by
        rw [hdir1, findEntry_eq_none]
        intro e he
        rw [List.mem_singleton.mp he]
        exact fun hl => absurd hl.2 (by simp only [DirEntry.str]; decide)
      have ho1 : s1.outstanding ≥ 1 := by
        rw [show s1.outstanding = s.outstanding from henters1.frame.2.2.2]
        exact ho
      refine (h1.dirlink_new hl ho1 ip hdp hnone1).bind ?_
      rintro dotdot s2 h2 ⟨henters2, hadds2⟩
      have hadds02 : sb.size ≤ BIT_PER_BLOCK →
          Adds (insert (INODE_BLOCK sb dp) (own sb ip)) 4 s s2 := fun hone =>
        ((hadds1 hone).trans (hadds2 hone)).mono hK.1 (Nat.le_refl 4)
      have hframe : (s2.abs sb).ref = (s.abs sb).ref ∧ (s2.abs sb).mem = (s.abs sb).mem ∧
          (s2.abs sb).files = (s.abs sb).files ∧
          (s2.abs sb).outstanding = (s.abs sb).outstanding := by
        obtain ⟨e1, e2, e3, e4⟩ := henters1.frame
        obtain ⟨e5, e6, e7, e8⟩ := henters2.frame
        exact ⟨e5.trans e1, e6.trans e2, e7.trans e3, e8.trans e4⟩
      have hothers : ∀ y ≠ ip, (s2.abs sb).node y = (s.abs sb).node y := fun y hy =>
        (henters2.other hy).trans (henters1.other hy)
      have hself2 := hself henters2 (hself henters1 hstart)
      refine .ite (fun hdotdot => ?_) fun hdotdot => ?_
      · rw [hdotdot] at henters2
        have ho2 : s2.outstanding ≥ 1 := by
          rw [show s2.outstanding = s.outstanding from hframe.2.2.2]
          exact ho
        have hnone2 : findEntry ((s2.abs sb).node dp).dir name = Option.none := by
          rw [hothers dp hne]
          exact hnone
        refine (h2.dirlink_new hl ho2 dp hip hnone2).imp ?_
        rintro b s3 _ ⟨henters3, hadds3⟩
        refine ⟨?_, fun hone => (hadds02 hone).trans ((hadds3 hone).mono hK.2 (Nat.le_refl 2))⟩
        generalize s3.abs sb = a3 at henters3
        cases b with
        | true => exact .dir htype henters1 henters2 henters3
        | false =>
          cases henters3 with
          | no_room _ hspare => exact hnot hothers hself2 hframe hspare (absurd htype)
      · refine .pure h2 ⟨?_, fun hone => (hadds02 hone).mono (Finset.Subset.refl _) (by omega)⟩
        have hentered := hnot hothers hself2 hframe (.refl _) (absurd htype)
        rwa [AbsFs.setSlots_same] at hentered
    · refine .pure h1 ⟨?_, fun hone => (hadds1 hone).mono hK.1 (by omega)⟩
      have hentered := hnot (fun y hy => henters1.other hy) (hself henters1 hstart) henters1.frame
        (.refl _) (absurd htype)
      rwa [AbsFs.setSlots_same] at hentered
  · refine (h.dirlink_new hl ho dp hip hnone).imp ?_
    rintro b s1 _ ⟨henters1, hadds1⟩
    refine ⟨?_, fun hone =>
      (hadds1 hone).mono hK.2 (by omega)⟩
    generalize s1.abs sb = a1 at henters1
    cases b with
    | true => exact .file htype henters1
    | false =>
      cases henters1 with
      | no_room hno hspare =>
        exact hnot (fun _ _ => rfl) hstart ⟨rfl, rfl, rfl, rfl⟩ hspare fun _ => hno

/-- Directory `x` has one more link when a directory has been added to it. -/
def AbsFs.addParent (a : AbsFs) (type : UInt16) (x : Nat) : AbsFs :=
  if type = FileType.T_DIR then a.setLinks x (a.links x + 1) else a

/-- There is a directory for a new object at `path`, no entry of that name in it, and an inode for
it. -/
def AbsFs.Creatable (sb : SuperBlock) (a : AbsFs) (path : List UInt8) : Prop :=
  ∃ dp name, resolveParent a.node path = some (dp, name) ∧
    findEntry (a.node dp).dir name = none ∧ ∃ x, 1 ≤ x ∧ x < sb.ninodes ∧ ¬a.Alloc x

/-- What `create` does: it finds an inode, makes one, or ends without one, when it may have undone
what it has made. -/
inductive Created (sb : SuperBlock) (a0 : AbsFs) (path : List UInt8) (type : UInt16) :
    Option Nat → AbsFs → Prop
  | refused {a : AbsFs} (h : During a0 a []) (hno : ¬a0.Creatable sb path) :
      Created sb a0 path type none a
  | found {a : AbsFs} {dp i : Nat} {name : List UInt8}
      (hparent : resolveParent a0.node path = some (dp, name))
      (hfind : findEntry (a0.node dp).dir name = some i)
      (h : During a0 a [entryInum (a0.node dp).dir i]) (htype : type = FileType.T_FILE)
      (hip : (a0.node (entryInum (a0.node dp).dir i)).type = FileType.T_FILE ∨
        (a0.node (entryInum (a0.node dp).dir i)).type = FileType.T_DEVICE)
      (hmem : a.mem (entryInum (a0.node dp).dir i) =
        some (a0.links (entryInum (a0.node dp).dir i))) :
      Created sb a0 path type (some (entryInum (a0.node dp).dir i)) a
  | made {a a' : AbsFs} {dp ip : Nat} {name : List UInt8}
      (hparent : resolveParent a0.node path = some (dp, name))
      (hnone : findEntry (a0.node dp).dir name = none) (h : During a0 a [dp])
      (hopen : a.OpenDir dp) (hpos : 1 ≤ ip) (hlt : ip < sb.ninodes) (hfree : ¬a.Alloc ip)
      (hentered : Entered sb ((a.alloc ip type).setLinks ip 1) type dp ip name true a') :
      Created sb a0 path type (some ip) ((a'.addParent type dp).put dp)
  | undone {a a' : AbsFs} {dp ip : Nat} {name : List UInt8}
      (hparent : resolveParent a0.node path = some (dp, name))
      (hnone : findEntry (a0.node dp).dir name = none) (h : During a0 a [dp])
      (hopen : a.OpenDir dp) (hpos : 1 ≤ ip) (hlt : ip < sb.ninodes) (hfree : ¬a.Alloc ip)
      (hentered : Entered sb ((a.alloc ip type).setLinks ip 1) type dp ip name false a') :
      Created sb a0 path type none (((a'.setLinks ip 0).put ip).put dp)

namespace AbsFs

theorem put_mem_of_ne (h : y ≠ x) : (a.put x).mem y = a.mem y := by
  unfold put
  split <;> exact setAt_of_ne h

theorem addParent_mem_of_ne {type : UInt16} (h : y ≠ x) :
    (a.addParent type x).mem y = a.mem y := by
  unfold addParent
  split
  · exact setAt_of_ne h
  · rfl

@[simp] theorem addParent_outstanding (type : UInt16) :
    (a.addParent type x).outstanding = a.outstanding := by
  unfold addParent
  split <;> rfl

@[simp] theorem addParent_files (type : UInt16) : (a.addParent type x).files = a.files := by
  unfold addParent
  split <;> rfl

end AbsFs

/-- `create` leaves the file table. -/
theorem Created.frame {path : List UInt8} {type : UInt16} {r : Option Nat}
    (h : Created sb a path type r a') : a'.files = a.files ∧ a'.outstanding = a.outstanding := by
  cases h with
  | refused h _ => exact ⟨h.files, h.outstanding⟩
  | found _ _ h => exact ⟨h.files, h.outstanding⟩
  | made _ _ h _ _ _ _ hentered =>
    simp only [AbsFs.put_files, AbsFs.put_outstanding, AbsFs.addParent_files,
      AbsFs.addParent_outstanding]
    exact ⟨hentered.frame.2.2.1.trans h.files, hentered.frame.2.2.2.trans h.outstanding⟩
  | undone _ _ h _ _ _ _ hentered =>
    simp only [AbsFs.put_files, AbsFs.put_outstanding]
    exact ⟨hentered.frame.2.2.1.trans h.files, hentered.frame.2.2.2.trans h.outstanding⟩

/-- The inode that `create` returns has been read. -/
theorem Created.mem {path : List UInt8} {type : UInt16} (h : Created sb a path type (some x) a') :
    ∃ n, a'.mem x = some n := by
  cases h with
  | found _ _ _ _ _ hmem => exact ⟨_, hmem⟩
  | made _ _ _ hopen _ _ hfree hentered =>
    have hne : x ≠ _ := fun heq => hfree (by rw [AbsFs.Alloc, heq, hopen.1]; decide)
    refine ⟨1, ?_⟩
    rw [AbsFs.put_mem_of_ne hne, AbsFs.addParent_mem_of_ne hne, hentered.frame.2.1]
    exact setAt_self

theorem Wf.create (hl : Layout sb) (hroot : ROOTINO < sb.ninodes) (h : Wf sb s)
    (ho : s.outstanding ≥ 1) (path : List UInt8) {type : UInt16} (major minor : UInt16)
    (htype : type ≠ FileType.Invalid) :
    Does sb (create sb path type major minor) s fun r s' =>
      Created sb (s.abs sb) path type r (s'.abs sb) ∧
        (Budgeted sb s → Adds (r.elim {sb.bmapstart} (own sb)) (r.elim 9 fun _ => 8) s s') := by
  refine (h.start_parent hl hroot ho path).bind ?_
  rintro r s1 h1 ⟨⟨hr, hs1, hopen1⟩, hadds1⟩
  cases r with
  | none =>
    refine .pure h1 ⟨.refused hs1.during ?_, fun hb => (hadds1 hb).le (by decide)⟩
    rintro ⟨dp, name, hparent, -⟩
    rw [← hr] at hparent
    cases hparent
  | some p =>
    obtain ⟨dp, name⟩ := p
    obtain ⟨hdp, hopen1⟩ := hopen1 _ rfl
    refine (h1.lock_logs dp).bind ?_
    rintro _ s2 h2 ⟨hlock, hadds2⟩
    obtain ⟨hs2, halloc, htype2, hmem2⟩ := hs1.lock h2 hlock
    have hadds2 : Budgeted sb s → Adds {sb.bmapstart} 1 s s2 := fun hb =>
      (hadds1 hb).then_same (hadds2.mono (Finset.empty_subset _) (Nat.le_refl 0))
    refine (h2.dirlookup_logs dp name).bind ?_
    rintro r s3 h3 ⟨⟨hopen, hlook⟩, hadds3⟩
    have hadds3 : Budgeted sb s → Adds {sb.bmapstart} 1 s s3 := fun hb =>
      (hadds2 hb).then_same (hadds3.mono (Finset.empty_subset _) (Nat.le_refl 0))
    have hnode : (s2.abs sb).node dp = (s.abs sb).node dp :=
      hs2.during.node_eq (h2.normal.alloc dp _ hmem2)
    cases r with
    | some q =>
      obtain ⟨ip, off⟩ := q
      obtain ⟨i, hfind, hip, -, -, hr3⟩ := hlook
      rw [hnode] at hfind hip
      have hreached : (s.abs sb).Reached ip := by
        rw [hip]
        exact .entry (hs2.during.reached dp List.mem_cons_self) (hnode ▸ hopen.1) hfind
      have hs3 := hs2.get hr3 hreached
      have ho3 : s3.outstanding ≥ 1 := hs3.outstanding ▸ ho
      refine (h3.put_logs hl ho3 dp).bind ?_
      rintro _ s4 h4 ⟨⟨hput4, hb4⟩, hadds4⟩
      have hs4 := hs3.put_second h h3 hput4 hb4
      refine (h4.lock_logs ip).bind ?_
      rintro _ s5 h5 ⟨hlock5, hadds5⟩
      obtain ⟨hs5, -, htype5, hmem5⟩ := hs4.lock h5 hlock5
      have hadds5 : Budgeted sb s → Adds {sb.bmapstart} 2 s s5 := fun hb =>
        ((hadds3 hb).trans (hadds4 hb.1).other).then_same
          (hadds5.mono (Finset.empty_subset _) (Nat.le_refl 0))
      refine .get_bind ?_
      dsimp only
      rw [htype5]
      refine .ite (fun hfile => ?_) fun _ => ?_
      · refine .pure h5 ⟨?_, fun hb => (hadds5 hb).mono (by simp) (by simp)⟩
        subst hip
        exact .found hr.symm hfind hs5.during hfile.1 hfile.2 hmem5
      · have ho5 : s5.outstanding ≥ 1 := hs5.outstanding ▸ ho
        refine (h5.put_logs hl ho5 ip).bind ?_
        rintro _ s6 h6 ⟨⟨hput6, hb6⟩, hadds6⟩
        refine .pure h6 ?_
        have hs6 := hs5.put_head h h5 hput6 hb6
        refine ⟨.refused hs6.during ?_, fun hb => ((hadds5 hb).trans (hadds6 hb.1).other).le (by decide)⟩
        rintro ⟨dp', name', hparent, hnone, -⟩
        cases hr.trans hparent
        rw [hfind] at hnone
        cases hnone
    | none =>
      obtain ⟨hnone, hr3⟩ := hlook
      rw [hnode] at hnone
      have hs3 := hs2.reads hr3
      have ho3 : s3.outstanding ≥ 1 := hs3.outstanding ▸ ho
      refine ((h3.inode_alloc hl ho3 htype).also (inode_alloc_adds type)).bind ?_
      rintro r s4 h4 ⟨hr4, hadds4⟩
      cases r with
      | none =>
        obtain ⟨hr4, hall4⟩ := hr4
        have hs4 := hs3.reads hr4
        have ho4 : s4.outstanding ≥ 1 := hs4.outstanding ▸ ho
        refine (h4.put_logs hl ho4 dp).bind ?_
        rintro _ s5 h5 ⟨⟨hput5, hb5⟩, hadds5⟩
        refine .pure h5 ?_
        have hs5 := hs4.put_head h h4 hput5 hb5
        refine ⟨.refused hs5.during ?_, fun hb => (((hadds3 hb).then_same (hadds4.mono
          (Finset.empty_subset _) (Nat.le_refl 0))).trans (hadds5 hb.1).other).le (by decide)⟩
        rintro ⟨-, -, -, -, y, hy, hylt, hyfree⟩
        exact hyfree (hs3.during.alloc_of (hall4 y hy hylt))
      | some ip =>
        obtain ⟨hpos, hiplt, hfree, -, habs4⟩ := hr4
        have hopen3 : (s3.abs sb).OpenDir dp := hr3.abs ▸ hopen
        have hne : dp ≠ ip := by
          rintro rfl
          exact hfree (by rw [AbsFs.Alloc, hopen3.1]; decide)
        have ho4 : s4.outstanding ≥ 1 := (outstanding_of_abs habs4).symm ▸ ho3
        refine (h4.lock_logs ip).bind ?_
        rintro _ s5 h5 ⟨⟨hr5, hv5, _⟩, hadds5⟩
        have ho5 : s5.outstanding ≥ 1 := hr5.outstanding.symm ▸ ho4
        rw [Does, ← Program.runs_bind_assoc]
        refine (h5.links_logs hl hv5 ho5 (fun dip => { dip with major, minor, nlink := 1 }) rfl rfl
          rfl).bind ?_
        rintro _ s6 h6 ⟨habs6, hadds6⟩
        have ho6 : s6.outstanding ≥ 1 := (outstanding_of_abs habs6).symm ▸ ho5
        have habs6 : s6.abs sb = ((s3.abs sb).alloc ip type).setLinks ip 1 := by
          rw [habs6, hr5.abs, habs4]
          exact AbsFs.ext rfl rfl setAt_setAt rfl rfl
        have hnode6 : (s6.abs sb).node ip = .empty type 1 := by
          rw [habs6]
          simp only [AbsFs.setLinks, AbsFs.setMem, AbsFs.modify, AbsFs.alloc, setAt_self]
          rfl
        have hdp6 : (s6.abs sb).node dp = (s.abs sb).node dp := by
          rw [habs6]
          simp only [AbsFs.setLinks, AbsFs.setMem, AbsFs.modify, AbsFs.alloc, setAt_of_ne hne]
          rw [hr3.abs, hnode]
        refine (h6.create_entries hl ho6 hdp hiplt hne (by rw [hnode6]; rfl)
          (by rw [hdp6]; exact hnone)).bind ?_
        rintro linked s7 h7 ⟨hentered, hadds7⟩
        rw [habs6] at hentered
        have hmem7 : (s7.abs sb).mem = setAt (s3.abs sb).mem ip (some 1) := hentered.frame.2.1
        have ho7 : s7.outstanding ≥ 1 := by
          rw [show s7.outstanding = s3.outstanding from hentered.frame.2.2.2]
          exact ho3
        have hadds7 : Budgeted sb s →
            Adds (insert (INODE_BLOCK sb dp) (own sb ip)) 7 s s7 := fun hb => by
          have h3 := (hadds3 hb).mono (sub_bmap sb dp ip) (Nat.le_refl 1)
          have h4 := h3.then_same (hadds4.mono (sub_inode sb dp ip) (Nat.le_refl 0))
          have h5 := h4.then_same (hadds5.mono (Finset.empty_subset _) (Nat.le_refl 0))
          have h6 := h5.then_same (hadds6.mono (Finset.subset_insert _ _) (Nat.le_refl 0))
          exact h6.trans (hadds7 hb.1)
        have hout : ∀ {s8 : Fs} {a8 : AbsFs}, s8.abs sb = a8 → a8.outstanding = s7.outstanding →
            s8.outstanding ≥ 1 := fun habs hout => by
          rw [outstanding_of_abs habs, hout]
          exact ho7
        refine .ite (fun hlinked => ?_) fun hlinked => ?_
        · rw [hlinked] at hentered
          obtain ⟨n, hmemdp⟩ := hopen3.2
          obtain ⟨hv7, -⟩ := valid_of_mem (show (s7.abs sb).mem dp = some n by
            rw [hmem7, setAt_of_ne hne, hmemdp])
          have hmade := Created.made hr.symm hnone hs3.during hopen3 hpos hiplt hfree hentered
          refine .ite (fun hdir => ?_) fun hdir => ?_
          · rw [Does, ← Program.runs_bind_assoc]
            refine (h7.links_logs hl hv7 ho7 (fun dip => { dip with nlink := dip.nlink + 1 }) rfl rfl
              rfl).bind ?_
            rintro _ s8 h8 ⟨habs8, hadds8⟩
            refine (h8.put_logs hl (hout habs8 rfl) dp).bind ?_
            rintro _ s9 h9 ⟨⟨hput9, _⟩, hadds9⟩
            refine .pure h9 ⟨?_, fun hb => ?_⟩
            · rw [AbsFs.addParent, if_pos hdir, links_eq hv7] at hmade
              rw [hput9, habs8]
              exact hmade
            · exact (((hadds7 hb).then_same (hadds8.mono (sub_own sb dp ip) (Nat.le_refl 0))).then_same
                ((hadds9 hb.1).mono (sub_own sb dp ip) (Nat.le_refl 0))).absorb
          · refine (h7.put_logs hl ho7 dp).bind ?_
            rintro _ s8 h8 ⟨⟨hput8, _⟩, hadds8⟩
            refine .pure h8 ⟨?_, fun hb => ?_⟩
            · rw [AbsFs.addParent, if_neg hdir] at hmade
              rw [hput8]
              exact hmade
            · exact ((hadds7 hb).then_same
                ((hadds8 hb.1).mono (sub_own sb dp ip) (Nat.le_refl 0))).absorb
        · rw [Bool.not_eq_true] at hlinked
          rw [hlinked] at hentered
          obtain ⟨hv7, -⟩ := valid_of_mem (show (s7.abs sb).mem ip = some 1 by rw [hmem7, setAt_self])
          rw [Does, ← Program.runs_bind_assoc]
          refine (h7.links_logs hl hv7 ho7 (fun dip => { dip with nlink := 0 }) rfl rfl
            rfl).bind ?_
          rintro _ s8 h8 ⟨habs8, hadds8⟩
          have ho8 := hout habs8 rfl
          refine (h8.put_logs hl ho8 ip).bind ?_
          rintro _ s9 h9 ⟨⟨hput9, _⟩, hadds9⟩
          have ho9 : s9.outstanding ≥ 1 := by
            rw [outstanding_of_abs hput9, AbsFs.put_outstanding]
            exact ho8
          refine (h9.put_logs hl ho9 dp).bind ?_
          rintro _ s10 h10 ⟨⟨hput10, _⟩, hadds10⟩
          refine .pure h10 ⟨?_, fun hb => ?_⟩
          · rw [hput10, hput9, habs8]
            exact .undone hr.symm hnone hs3.during hopen3 hpos hiplt hfree hentered
          · have h8 := (hadds7 hb).then_same (hadds8.mono (Finset.subset_insert _ _) (Nat.le_refl 0))
            have h9 := h8.then_same ((hadds9 hb.1).mono (Finset.subset_insert _ _) (Nat.le_refl 0))
            exact (h9.then_same ((hadds10 hb.1).mono (sub_own sb dp ip) (Nat.le_refl 0))).absorb.other

end Xv6fs
