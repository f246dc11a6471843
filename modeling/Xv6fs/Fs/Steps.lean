import Xv6fs.Fs.Invariant
import Xv6fs.Fs.Trunc

/-! The steps of an operation that change an inode on disk keep the state in order, and do on the
abstract state what their names say. -/

namespace Xv6fs

open Program (Runs runs_bind runs_pure runs_get runs_modify runs_assert runs_throw runs_ite)

variable {sb : SuperBlock} {s s' : Fs} {x y : Nat} {blocks blocks' : Nat → BlockData}
  {dip dip' : DiskINode}

/-! ### Inodes that have not changed -/

theorem entriesAt_congr (hsize : dip'.size = dip.size)
    (h : ∀ off, fbyte blocks' dip' off = fbyte blocks dip off) :
    entriesAt blocks' dip' = entriesAt blocks dip := by
  simp only [entriesAt, hsize, h]

theorem nodeAt_congr (htype : dip'.type = dip.type) (hnlink : dip'.nlink = dip.nlink)
    (hsize : dip'.size = dip.size)
    (hbyte : dip.type ≠ FileType.Invalid → ∀ off, fbyte blocks' dip' off = fbyte blocks dip off)
    (hslot : dip.type ≠ FileType.Invalid → ∀ k, slot blocks' dip' k = slot blocks dip k) :
    nodeAt blocks' dip' = nodeAt blocks dip := by
  by_cases hinvalid : dip.type = FileType.Invalid
  · have hno : FileType.Invalid ≠ FileType.T_DIR := by decide
    simp only [nodeAt, htype, hnlink, hinvalid, if_neg hno, if_true]
  · have hbytes := funext (hbyte hinvalid)
    have hslots := funext (hslot hinvalid)
    simp only [nodeAt, htype, hnlink, hsize, hbytes, hslots,
      entriesAt_congr hsize (hbyte hinvalid)]

theorem Apart.fbyte_eq (h : Apart sb x s s') (hyx : y ≠ x) (hy : Allocated sb (s.dinode sb) y)
    (off : Nat) : fbyte s'.blocks (s'.dinode sb y) off = fbyte s.blocks (s.dinode sb y) off := by
  by_cases hoff : off < MAX_SIZE
  · exact h.fbyte_other hyx hy hoff
  · rw [fbyte_of_le (Nat.le_of_not_lt hoff), fbyte_of_le (Nat.le_of_not_lt hoff)]

theorem Apart.node_other (h : Apart sb x s s') (hyx : y ≠ x) (hy : y < sb.ninodes) :
    nodeAt s'.blocks (s'.dinode sb y) = nodeAt s.blocks (s.dinode sb y) := by
  have hd := h.disk y hy hyx
  refine nodeAt_congr (by rw [hd]) (by rw [hd]) (by rw [hd]) (fun ht off => ?_) fun ht k => ?_
  · exact h.fbyte_eq hyx ⟨hy, ht⟩ off
  · exact h.slot_other hyx ⟨hy, ht⟩ k

/-- The state stays in order when only inode `x` changes, and inode `x` is in order. -/
theorem Wf.apart (h : Wf sb s) (ha : Apart sb x s s') (hx : x < sb.ninodes)
    (howned : Owned sb (s'.dinode sb) s'.blocks fun _ => False)
    (hdir : (s'.dinode sb x).type = FileType.T_DIR → Solid s'.blocks (s'.dinode sb x) ∧
      (s'.dinode sb x).size.toNat % DIRENT_SIZE = 0 ∧
      ∀ e ∈ entriesAt s'.blocks (s'.dinode sb x), e.inum.toNat < sb.ninodes)
    (hcached : Cached sb s'.blocks x (s'.inodes x)) :
    Wf sb s' ∧ s'.abs sb = { s.abs sb with
      node := setAt (s.abs sb).node x (nodeAt s'.blocks (s'.dinode sb x))
      ref := setAt (s.abs sb).ref x (s'.inodes x).ref
      mem := setAt (s.abs sb).mem x
        (if (s'.inodes x).valid then some (s'.inodes x).dinode.nlink else none) } := by
  have hold : ∀ y < sb.ninodes, y ≠ x → (dinodeAt sb s'.blocks y).type = FileType.T_DIR →
      (dinodeAt sb s.blocks y).type = FileType.T_DIR ∧ Allocated sb (s.dinode sb) y := by
    intro y hy hyx ht
    have hd := ha.disk y hy hyx
    simp only [Fs.dinode_eq] at hd
    rw [hd] at ht
    exact ⟨ht, hy, by rw [Fs.dinode_eq, ht]; decide⟩
  refine ⟨⟨⟨howned, fun y hy ht => ?_, fun y hy ht => ?_, fun y hy ht => ?_⟩, fun y => ?_⟩, ?_⟩
  · by_cases hyx : y = x
    · subst hyx
      exact (hdir ht).1
    · obtain ⟨ht0, hal⟩ := hold y hy hyx ht
      exact ha.solid_other hyx hal (h.tidy.solid y hy ht0)
  · by_cases hyx : y = x
    · subst hyx
      exact (hdir ht).2.1
    · obtain ⟨ht0, hal⟩ := hold y hy hyx ht
      have hd := ha.disk y hy hyx
      simp only [Fs.dinode_eq] at hd
      rw [hd]
      exact h.tidy.aligned y hy ht0
  · by_cases hyx : y = x
    · subst hyx
      exact (hdir ht).2.2
    · obtain ⟨ht0, hal⟩ := hold y hy hyx ht
      have hd := ha.disk y hy hyx
      have he := entriesAt_congr (by rw [hd]) (ha.fbyte_eq hyx hal)
      simp only [Fs.dinode_eq] at he
      rw [he]
      exact h.tidy.inums y hy ht0
  · by_cases hyx : y = x
    · exact hyx ▸ hcached
    · have hc := h.cached y
      rw [ha.others y hyx]
      have hd : (s.inodes y).valid = true → dinodeAt sb s'.blocks y = dinodeAt sb s.blocks y :=
        fun hv => ha.disk y (h.valid_lt hv) hyx
      exact ⟨hc.absent, hc.lt, hc.unread, fun hv => by rw [hd hv]; exact hc.synced hv,
        fun hv => by rw [hd hv]; exact hc.alloc hv, fun hv => by rw [hd hv]; exact hc.links hv⟩
  · refine AbsFs.ext (funext fun y => ?_) (funext fun y => ?_) (funext fun y => ?_) ha.files
      ha.outstanding
    · simp only [Fs.abs, setAt_apply]
      by_cases hyx : y = x
      · rw [if_pos hyx, hyx, if_pos hx]
      · rw [if_neg hyx]
        split
        · next hy => exact ha.node_other hyx hy
        · rfl
    · simp only [Fs.abs, setAt_apply]
      by_cases hyx : y = x
      · rw [if_pos hyx, hyx]
      · rw [if_neg hyx, ha.others y hyx]
    · simp only [Fs.abs, setAt_apply]
      by_cases hyx : y = x
      · rw [if_pos hyx, hyx]
      · rw [if_neg hyx, ha.others y hyx]

/-! ### The inode that changes -/

/-- The copy in memory has the slots and bytes of the inode on disk. -/
theorem Wf.synced (h : Wf sb s) (hx : (s.inodes x).valid = true) :
    (s.inodes x).dinode = { s.dinode sb x with nlink := (s.inodes x).dinode.nlink } :=
  (h.cached x).synced hx

theorem Wf.slot_eq (h : Wf sb s) (hx : (s.inodes x).valid = true) (k : Nat) :
    slot s.blocks (s.inodes x).dinode k = slot s.blocks (s.dinode sb x) k := by
  rw [h.synced hx]
  rfl

theorem Wf.fbyte_eq (h : Wf sb s) (hx : (s.inodes x).valid = true) (off : Nat) :
    fbyte s.blocks (s.inodes x).dinode off = fbyte s.blocks (s.dinode sb x) off := by
  rw [fbyte, fbyte, h.slot_eq hx]

theorem Wf.size_eq (h : Wf sb s) (hx : (s.inodes x).valid = true) :
    (s.inodes x).dinode.size = (s.dinode sb x).size := by
  rw [h.synced hx]

theorem Wf.growing (h : Wf sb s) (hx : (s.inodes x).valid = true) (ho : s.outstanding ≥ 1) :
    Growing sb (fun _ => False) x s := by
  have htype : ∀ y, (s.view sb x y).type = (s.dinode sb y).type := fun y => by
    by_cases hyx : y = x
    · rw [hyx, Fs.view_self, h.synced hx]
    · rw [Fs.view_of_ne hyx]
  refine ⟨⟨h.valid_lt hx, ?_⟩, ?_, ho⟩
  · rw [htype]
    exact (h.cached x).alloc hx
  · refine h.tidy.owned.congr (fun y => ?_) (fun y _ k _ => ?_) (fun _ _ => rfl) (fun _ => rfl)
      fun _ => Iff.rfl
    · rw [Allocated, Allocated, htype]
      rfl
    · by_cases hyx : y = x
      · rw [hyx, Fs.view_self, h.synced hx]
        rfl
      · rw [Fs.view_of_ne hyx]
        rfl

/-- An inode whose copies are the same is in order. -/
theorem Cached.of_synced (h : Wf sb s) (hx : (s.inodes x).valid = true)
    (hcache : s'.inodes x = { s.inodes x with dinode := (s'.inodes x).dinode })
    (hsync : s'.dinode sb x = (s'.inodes x).dinode)
    (htype : (s'.inodes x).dinode.type ≠ FileType.Invalid) :
    Cached sb s'.blocks x (s'.inodes x) where
  absent h0 := by
    rw [hcache] at h0
    exact absurd h0 (Nat.ne_of_gt (h.valid_ref hx))
  lt _ := h.valid_lt hx
  unread hv := by
    rw [hcache] at hv
    exact absurd (hx.symm.trans hv) (by decide)
  synced _ := by
    rw [← Fs.dinode_eq, hsync]
  alloc _ := by rw [← Fs.dinode_eq, hsync]; exact htype
  links _ _ := by rw [← Fs.dinode_eq, hsync]

/-- The cache after a change of inode `x` that is written through. -/
theorem abs_synced (h : s'.inodes x = { s.inodes x with dinode := (s'.inodes x).dinode })
    (hx : (s.inodes x).valid = true) (nd : Node) :
    ({ s.abs sb with
      node := setAt (s.abs sb).node x nd
      ref := setAt (s.abs sb).ref x (s'.inodes x).ref
      mem := setAt (s.abs sb).mem x
        (if (s'.inodes x).valid then some (s'.inodes x).dinode.nlink else none) } : AbsFs) =
      ((s.abs sb).modify x fun _ => nd).setMem x (s'.inodes x).dinode.nlink := by
  refine AbsFs.ext rfl ?_ ?_ rfl rfl
  · rw [h]
    exact setAt_same (x := x) _
  · simp only [AbsFs.setMem, AbsFs.modify]
    rw [h]
    simp only [hx, if_true]

theorem Wf.saved (hl : Layout sb) (h : Wf sb s) (hx : (s.inodes x).valid = true)
    (ho : s.outstanding ≥ 1) (hs : Saved sb x dip s s')
    (htype : dip.type = (s.inodes x).dinode.type) (hsize : dip.size = (s.inodes x).dinode.size)
    (haddrs : dip.addrs = (s.inodes x).dinode.addrs) :
    Wf sb s' ∧ s'.abs sb = (s.abs sb).setLinks x dip.nlink := by
  have hlt := h.valid_lt hx
  have hg := h.growing hx ho
  have hsync : s'.dinode sb x = (s'.inodes x).dinode := by rw [hs.disk_self, hs.mem]
  have hslot : ∀ k, slot s'.blocks (s'.dinode sb x) k = slot s.blocks (s.dinode sb x) k :=
    fun k => by rw [hsync, hs.slot_eq hl hlt hg.owned hg.alloc haddrs, h.slot_eq hx]
  have hbyte : ∀ off, fbyte s'.blocks (s'.dinode sb x) off = fbyte s.blocks (s.dinode sb x) off := by
    intro off
    unfold fbyte
    rw [hslot]
    split
    · rfl
    · next hne =>
      have hk : fslot (off / BSIZE) < NSLOT := by
        by_contra hk
        exact hne (slot_of_le (Nat.le_of_not_lt hk))
      rw [← h.slot_eq hx] at hne ⊢
      rw [hs.data hl hlt (hg.owned.data _ _ (hg.holds hk hne))]
  have hdisk : (s'.dinode sb x).type = (s.dinode sb x).type ∧
      (s'.dinode sb x).size = (s.dinode sb x).size := by
    rw [hs.disk_self, htype, hsize, h.synced hx]
    exact ⟨rfl, rfl⟩
  have hnode : nodeAt s'.blocks (s'.dinode sb x) =
      { nodeAt s.blocks (s.dinode sb x) with nlink := dip.nlink } := by
    have he := entriesAt_congr hdisk.2 hbyte
    have hn : (s'.dinode sb x).nlink = dip.nlink := by rw [hs.disk_self]
    simp only [nodeAt, hdisk.1, hdisk.2, hn, he, funext hslot, funext hbyte]
    split
    · rfl
    · split <;> rfl
  have ha := hs.apart hl hlt hg.owned
  have hdir : (s'.dinode sb x).type = FileType.T_DIR → Solid s'.blocks (s'.dinode sb x) ∧
      (s'.dinode sb x).size.toNat % DIRENT_SIZE = 0 ∧
      ∀ e ∈ entriesAt s'.blocks (s'.dinode sb x), e.inum.toNat < sb.ninodes := by
    intro ht
    rw [hdisk.1] at ht
    have hsolid := h.tidy.solid x hlt ht
    refine ⟨⟨by rw [hdisk.2]; exact hsolid.size_le, fun n hn => ?_⟩, ?_, ?_⟩
    · rw [hslot]
      rw [hdisk.2] at hn
      exact hsolid.mapped n hn
    · rw [hdisk.2]
      exact h.tidy.aligned x hlt ht
    · rw [entriesAt_congr hdisk.2 hbyte]
      exact h.tidy.inums x hlt ht
  have howned : Owned sb (s'.dinode sb) s'.blocks fun _ => False := by
    rw [← Fs.view_synced hsync]
    exact hs.owned hl hlt hg.owned htype haddrs
  have hcached : Cached sb s'.blocks x (s'.inodes x) := by
    refine .of_synced h hx hs.cache hsync ?_
    rw [hs.mem, htype, h.synced hx]
    exact (h.cached x).alloc hx
  obtain ⟨hwf, habs⟩ := h.apart ha hlt howned hdir hcached
  refine ⟨hwf, habs.trans ((abs_synced hs.cache hx _).trans ?_)⟩
  rw [hs.mem, hnode]
  refine AbsFs.ext ?_ rfl rfl rfl rfl
  simp only [AbsFs.setMem, AbsFs.modify, AbsFs.setLinks, abs_node hlt]

/-- The links of an inode that has been read change, in memory and on disk. -/
theorem Wf.update_links (hl : Layout sb) (h : Wf sb s) (hx : (s.inodes x).valid = true)
    (ho : s.outstanding ≥ 1) (f : DiskINode → DiskINode)
    (htype : (f (s.inodes x).dinode).type = (s.inodes x).dinode.type)
    (hsize : (f (s.inodes x).dinode).size = (s.inodes x).dinode.size)
    (haddrs : (f (s.inodes x).dinode).addrs = (s.inodes x).dinode.addrs) :
    Does sb (do modify_dinode x f; INode.update sb x) s fun _ s' =>
      s'.abs sb = (s.abs sb).setLinks x (f (s.inodes x).dinode).nlink :=
  (modify_update_runs f ho).mono (fun _ _ hs => h.saved hl hx ho hs htype hsize haddrs)
    fun _ => TooBig.benign

theorem Wf.update (hl : Layout sb) (h : Wf sb s) (hx : (s.inodes x).valid = true)
    (ho : s.outstanding ≥ 1) :
    Does sb (INode.update sb x) s fun _ s' =>
      s'.abs sb = (s.abs sb).setLinks x (s.inodes x).dinode.nlink := by
  refine (update_runs sb ho).mono (fun _ s' ⟨hm, hblocks⟩ => ?_) fun _ => TooBig.benign
  refine h.saved hl hx ho ⟨hm.files, hm.outstanding, ?_, hblocks⟩ rfl rfl rfl
  rw [hm.inodes]
  exact (setAt_same (x := x) _).symm

/-! ### Allocated and freed inodes -/

theorem entriesAt_nil (dip : DiskINode) (h : dip.size = 0) : entriesAt blocks dip = [] := by
  rw [entriesAt, h]
  rfl

theorem slot_bare (k : Nat) : slot blocks dip.bare k = 0 := by
  unfold slot
  simp only [DiskINode.addr_bare]
  split <;> rfl

theorem fbyte_bare (off : Nat) : fbyte blocks dip.bare off = 0 := by
  rw [fbyte, slot_bare, if_pos rfl]

theorem nodeAt_bare (htype : dip.type ≠ FileType.Invalid) :
    nodeAt blocks dip.bare = .empty dip.type dip.nlink := by
  have hslot : slot blocks dip.bare = fun _ => 0 := funext slot_bare
  have hbyte : fbyte blocks dip.bare = fun _ => 0 := funext fbyte_bare
  simp only [nodeAt]
  split
  · rw [entriesAt_nil dip.bare rfl, hslot]
    rfl
  · rw [if_neg (show dip.bare.type ≠ FileType.Invalid from htype)]
    rw [hslot, hbyte]
    rfl

/-- A free inode is stored as one without blocks, and gets a reference. -/
theorem Wf.allocated (hl : Layout sb) (h : Wf sb s) (hx : x < sb.ninodes)
    (hfree : (s.dinode sb x).type = FileType.Invalid) {type : UInt16}
    (htype : type ≠ FileType.Invalid) (s' : Fs) (hfiles : s'.files = s.files)
    (hout : s'.outstanding = s.outstanding)
    (hinodes : s'.inodes = setAt s.inodes x { s.inodes x with ref := (s.inodes x).ref + 1 })
    (hblocks : s'.blocks = storeAt sb s.blocks x { DiskINode.zero with type }) :
    Wf sb s' ∧ s'.abs sb = (s.abs sb).alloc x type := by
  have hnot : ¬Allocated sb (dinodeAt sb s.blocks) x := fun hal => hal.2 hfree
  have hvalid : (s.inodes x).valid = false := by
    cases hv : (s.inodes x).valid with
    | false => rfl
    | true => exact absurd hfree ((h.cached x).alloc hv)
  have hself : s'.inodes x = { s.inodes x with ref := (s.inodes x).ref + 1 } := by
    rw [hinodes, setAt_self]
  have hdisk : ∀ y, s'.dinode sb y =
      if y = x then { DiskINode.zero with type } else s.dinode sb y := fun y => by
    rw [Fs.dinode_eq, hblocks, dinodeAt_storeAt]
    rfl
  have hdata : ∀ p, sb.Data p → s'.blocks p = s.blocks p := fun p hp => by
    rw [hblocks, storeAt_data hl hx hp]
  have ha : Apart sb x s s' := {
    files := hfiles
    outstanding := hout
    others := fun y hyx => by rw [hinodes, setAt_of_ne hyx]
    disk := fun y _ hyx => by rw [hdisk, if_neg hyx]
    frame := fun y _ hy k hk hne => hdata _ (h.tidy.owned.data (y, k) _ ⟨hy, hk, rfl, hne⟩) }
  have hbare : { DiskINode.zero with type } = ({ DiskINode.zero with type } : DiskINode).bare := rfl
  have hdip : s'.dinode sb x = { DiskINode.zero with type } := by rw [hdisk, if_pos rfl]
  have howned : Owned sb (s'.dinode sb) s'.blocks fun _ => False := by
    have h1 := h.tidy.owned.fresh hnot { DiskINode.zero with type } fun k _ => by
      rw [hbare, DiskINode.addr_bare]
    have hdns : setAt (dinodeAt sb s.blocks) x { DiskINode.zero with type } = s'.dinode sb := by
      funext y
      rw [setAt_apply, hdisk]
      rfl
    rw [hdns] at h1
    rw [hblocks]
    exact h1.store hl hx _
  have hnode : nodeAt s'.blocks (s'.dinode sb x) = .empty type 0 := by
    rw [hdip, hbare, nodeAt_bare htype]
    rfl
  have hentries : entriesAt s'.blocks (s'.dinode sb x) = [] := entriesAt_nil _ (by rw [hdip]; rfl)
  obtain ⟨hwf, habs⟩ := h.apart ha hx howned (fun _ => by
      refine ⟨⟨by rw [hdip]; exact Nat.zero_le _, fun n hn => ?_⟩, by rw [hdip]; rfl, fun e he => ?_⟩
      · rw [hdip] at hn
        exact absurd hn (Nat.not_lt_zero _)
      · rw [hentries] at he
        cases he)
    { absent := fun h0 => by rw [hself] at h0; cases h0
      lt := fun _ => hx
      unread := fun _ => by rw [hself]; exact (h.cached x).unread hvalid
      synced := fun hv => by rw [hself, hvalid] at hv; cases hv
      alloc := fun hv => by rw [hself, hvalid] at hv; cases hv
      links := fun hv => by rw [hself, hvalid] at hv; cases hv }
  refine ⟨hwf, habs.trans (AbsFs.ext ?_ ?_ ?_ rfl rfl)⟩
  · rw [hnode]
    rfl
  · rw [hself]
    rfl
  · simp only [hself, hvalid]
    have hmem : (s.abs sb).mem x = none := by simp [Fs.abs, hvalid]
    simp only [Bool.false_eq_true, if_false, ← hmem]
    exact setAt_same (x := x) _

/-- What `inode_alloc` returns: the first free inode, if there is one. -/
def AllocResult (sb : SuperBlock) (type : UInt16) (s : Fs) (r : Option Nat) (s' : Fs) : Prop :=
  match r with
  | none => Reads sb s s' (s.abs sb) ∧ ∀ y, 1 ≤ y → y < sb.ninodes → (s.abs sb).Alloc y
  | some x => 1 ≤ x ∧ x < sb.ninodes ∧ ¬(s.abs sb).Alloc x ∧
      (∀ y, 1 ≤ y → y < x → (s.abs sb).Alloc y) ∧ s'.abs sb = (s.abs sb).alloc x type

theorem Wf.inode_alloc (hl : Layout sb) (h : Wf sb s) (ho : s.outstanding ≥ 1) {type : UInt16}
    (htype : type ≠ FileType.Invalid) :
    Does sb (inode_alloc sb type) s (AllocResult sb type s) := by
  have loop : ∀ fuel inum, sb.ninodes ≤ inum + fuel → 1 ≤ inum →
      (∀ y, 1 ≤ y → y < inum → (s.abs sb).Alloc y) →
      Does sb (inode_alloc_from sb type fuel inum) s (AllocResult sb type s) := by
    intro fuel
    induction fuel with
    | zero => exact fun inum hfuel _ hall => .pure h ⟨⟨rfl, rfl⟩, fun y h1 hy => hall y h1 (by omega)⟩
    | succ fuel ih =>
      intro inum hfuel h1 hall
      rw [inode_alloc_from]
      refine .ite (fun hlt => .get_bind (.ite (fun hfree => ?_) fun hno => ?_)) fun hge =>
        .pure h ⟨⟨rfl, rfl⟩, fun y h1 hy => hall y h1 (by omega)⟩
      · rw [Does, store_dinode, ← Program.runs_bind_assoc]
        refine ((modify_log_write_runs _ ho).mono (fun _ _ hq => hq)
          fun _ => TooBig.benign).bind ?_
        rintro _ s1 ⟨hm, hb⟩
        simp only [Xv6fs.inode_get, modify_inode, runs_bind, runs_modify, runs_pure]
        obtain ⟨hwf, habs⟩ := h.allocated hl hlt hfree htype
          { s1 with
            inodes := setAt s1.inodes inum { s1.inodes inum with ref := (s1.inodes inum).ref + 1 } }
          hm.files hm.outstanding (by rw [hm.inodes]) hb
        refine ⟨hwf, h1, hlt, ?_, hall, habs⟩
        rw [AbsFs.Alloc, abs_type hlt]
        exact fun hne => hne hfree
      · refine ih (inum + 1) (by omega) (by omega) fun y hy1 hy => ?_
        by_cases hyi : y = inum
        · rw [AbsFs.Alloc, hyi, abs_type hlt]
          exact hno
        · exact hall y hy1 (by omega)
  exact loop _ _ (Nat.le_add_left _ _) (Nat.le_refl _) fun y _ _ => by omega

/-- The state after `inode_free` and `inode_drop`. -/
theorem Wf.freed (h : Wf sb s) (s' : Fs) (hx : x < sb.ninodes) (ha : Apart sb x s s')
    (howned : Owned sb (s'.dinode sb) s'.blocks fun _ => False)
    (htype : (s'.dinode sb x).type = FileType.Invalid) (hnlink : (s'.dinode sb x).nlink = 0)
    (hself : s'.inodes x = .absent) : Wf sb s' ∧ s'.abs sb = (s.abs sb).free x := by
  obtain ⟨hwf, habs⟩ := h.apart ha hx howned
    (fun ht => absurd (htype.symm.trans ht) (by decide))
    { absent := fun _ => hself
      lt := fun _ => hx
      unread := fun _ => by rw [hself]; rfl
      synced := fun hv => by rw [hself] at hv; cases hv
      alloc := fun hv => by rw [hself] at hv; cases hv
      links := fun hv => by rw [hself] at hv; cases hv }
  refine ⟨hwf, habs.trans (AbsFs.ext ?_ ?_ ?_ rfl rfl)⟩
  · have hnode : nodeAt s'.blocks (s'.dinode sb x) = .free := by
      rw [nodeAt, htype, if_neg (by decide), if_pos rfl, hnlink]
    rw [hnode]
    rfl
  · rw [hself]
    rfl
  · rw [hself]
    rfl

/-- `inode_free` of the last reference to an inode without links. -/
theorem Wf.inode_free (hl : Layout sb) (h : Wf sb s) (ho : s.outstanding ≥ 1)
    (href : (s.inodes x).ref = 1) (hv : (s.inodes x).valid = true)
    (hn : (s.inodes x).dinode.nlink = 0) :
    Does sb (do Xv6fs.inode_free sb x; Xv6fs.inode_drop x) s fun _ s' => s'.abs sb = (s.abs sb).free x := by
  have hx := h.valid_lt hv
  have hpos : 0 < (s.inodes x).ref := by omega
  simp only [Does, Xv6fs.inode_free, mtx_lock, mtx_unlock, Xv6fs.record, modify_inode,
    Xv6fs.inode_drop, runs_bind, runs_get, runs_assert, runs_modify]
  refine ⟨fun _ => ?_, fun _ => ⟨by decide, by decide⟩⟩
  generalize hs0 : ({ s with
    trace := Event.lock x :: s.trace
    inodes := setAt s.inodes x { s.inodes x with locked := true } } : Fs) = s0
  have hi0 : s0.inodes = setAt s.inodes x { s.inodes x with locked := true } := by rw [← hs0]
  have hb0 : s0.blocks = s.blocks := by rw [← hs0]
  have hd0 : s0.dinode sb = s.dinode sb := funext fun y => by
    rw [Fs.dinode_eq, Fs.dinode_eq, hb0]
  obtain ⟨h0, -⟩ := h.set_locked hpos true s0 hb0 hi0 (by rw [← hs0]) (by rw [← hs0])
  have hv0 : (s0.inodes x).valid = true := by rw [hi0, setAt_self]; exact hv
  have hg := h0.growing hv0 (by rw [← hs0]; exact ho)
  refine ((trunc_runs hl hg.alloc hg.owned hg.outstanding).mono (fun _ _ hq => hq)
    fun _ => TooBig.benign).imp fun _ s1 h1 => ?_
  have ho1 : s1.outstanding ≥ 1 := by rw [h1.outstanding]; exact hg.outstanding
  have hmem1 : (s1.inodes x).dinode = (s0.inodes x).dinode.bare := by rw [h1.inodes, setAt_self]
  rw [← runs_bind]
  refine ((modify_update_runs (fun dip => { dip with type := FileType.Invalid }) ho1).mono
    (fun _ _ hq => hq) fun _ => TooBig.benign).imp fun _ s2 h2 => ?_
  have hview1 : Owned sb (s1.view sb x) s1.blocks fun _ => False := by
    rw [Fs.view_synced h1.synced]
    exact h1.owned
  have ha : Apart sb x s0 s2 := h1.toApart.trans (h2.apart hl hx hview1)
  have hinodes2 : s2.inodes x = { s.inodes x with
      locked := true
      dinode := { (s1.inodes x).dinode with type := FileType.Invalid } } := by
    rw [h2.inodes, setAt_self, h1.inodes, setAt_self, hi0, setAt_self]
  have hdip : s2.dinode sb x = { (s1.inodes x).dinode with type := FileType.Invalid } :=
    h2.disk_self
  have hzero : ∀ k, ({ (s1.inodes x).dinode with type := FileType.Invalid } : DiskINode).addr k =
      0 := fun k => by
    rw [hmem1]
    exact (s0.inodes x).dinode.addr_bare k
  have howned : Owned sb (s2.dinode sb) s2.blocks fun _ => False := by
    have hd := h1.owned.drop x { (s1.inodes x).dinode with type := FileType.Invalid }
      fun k _ => hzero k
    have hdns : setAt (s1.dinode sb) x { (s1.inodes x).dinode with type := FileType.Invalid } =
        s2.dinode sb := by
      funext y
      rw [setAt_apply, h2.disk]
    rw [hdns] at hd
    refine hd.congr (fun _ => Iff.rfl) (fun _ _ _ _ => rfl) (fun p hp => h2.data hl hx hp)
      (h2.bit hl hx) fun b => ?_
    simp only [false_or, false_iff, not_exists]
    rintro k ⟨-, -, hs, hne⟩
    rw [h1.synced, hmem1, slot_bare] at hs
    exact hne hs.symm
  have hlast : setAt (setAt (setAt s2.inodes x { s2.inodes x with valid := false }) x
      { s2.inodes x with valid := false, locked := false }) x .absent =
      setAt s2.inodes x .absent := by
    funext y
    simp only [setAt_apply]
    split <;> rfl
  simp only [setAt_self, hinodes2, href, Nat.sub_self, if_true] at hlast ⊢
  rw [hlast]
  refine h.freed { s2 with
      trace := Event.unlock x :: s2.trace
      inodes := setAt s2.inodes x .absent } hx ⟨?_, ?_, fun y hyx => ?_, fun y hy hyx => ?_,
    fun y hyx hy k hk hne => ?_⟩ howned ?_ ?_ setAt_self
  · exact ha.files.trans (by rw [← hs0])
  · exact ha.outstanding.trans (by rw [← hs0])
  · simp only [setAt_of_ne hyx]
    rw [ha.others y hyx, hi0, setAt_of_ne hyx]
  · exact (ha.disk y hy hyx).trans (by rw [hd0])
  · have hf := ha.frame y hyx
    rw [hd0, hb0] at hf
    exact hf hy k hk hne
  · exact congrArg DiskINode.type hdip
  · refine (congrArg DiskINode.nlink hdip).trans ?_
    rw [hmem1, hi0, setAt_self]
    exact hn

/-- `inode_put`. -/
theorem Wf.inode_put (hl : Layout sb) (h : Wf sb s) (ho : s.outstanding ≥ 1) (x : Nat) :
    Does sb (inode_put sb x) s fun _ s' => s'.abs sb = (s.abs sb).put x ∧
      (¬((s.abs sb).ref x = 1 ∧ (s.abs sb).mem x = some 0) → s'.blocks = s.blocks) := by
  have hiff : ((s.inodes x).ref = 1 ∧ (s.inodes x).valid = true ∧ (s.inodes x).dinode.nlink = 0) ↔
      ((s.abs sb).ref x = 1 ∧ (s.abs sb).mem x = some 0) := by
    refine and_congr_right fun _ => ⟨fun ⟨hv, hn⟩ => ?_, fun hm => valid_of_mem hm⟩
    rw [abs_mem_valid sb hv, hn]
  refine .get_bind ?_
  dsimp only
  by_cases hfree : (s.abs sb).ref x = 1 ∧ (s.abs sb).mem x = some 0
  · rw [if_pos (hiff.mpr hfree), AbsFs.put, if_pos hfree]
    obtain ⟨href, hv, hn⟩ := hiff.mpr hfree
    exact (h.inode_free hl ho href hv hn).imp fun _ _ _ habs => ⟨habs, fun hno => absurd hfree hno⟩
  · rw [if_neg fun hc => hfree (hiff.mp hc), AbsFs.put, if_neg hfree]
    exact (h.inode_drop x).imp fun _ s' _ hr => ⟨hr.abs, fun _ => hr.blocks⟩

end Xv6fs
