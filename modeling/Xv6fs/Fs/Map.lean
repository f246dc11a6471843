import Xv6fs.Fs.Content

/-! What `block_map` does: it finds the block of a file, or gives the file a zeroed one. -/

namespace Xv6fs

open Program (Runs runs_bind runs_pure runs_get runs_modify runs_assert runs_throw runs_ite)

variable {sb : SuperBlock} {s s' s1 s2 s3 : Fs} {x y k b : Nat} {extra : Nat → Prop}

/-- What mapping slot `k` of inode `x` does: the block is in the slot, unless there is no free one,
and every byte is as it was. -/
structure Mapped (sb : SuperBlock) (extra : Nat → Prop) (x k : Nat) (s : Fs) (b : Nat) (s' : Fs) :
    Prop where
  evolves : Evolves sb x s s'
  growing : Growing sb extra x s'
  bytes : ∀ off < MAX_SIZE, s'.byte x off = s.byte x off
  result : (b = 0 ∧ Full sb s') ∨ (b ≠ 0 ∧ slot s'.blocks (s'.inodes x).dinode k = b)
  unmapped : b = 0 → slot s'.blocks (s'.inodes x).dinode k = 0
  only : ∀ l < NSLOT, slot s.blocks (s.inodes x).dinode l = 0 →
    slot s'.blocks (s'.inodes x).dinode l ≠ 0 → l = k ∨ l = NDIRECT ∧ NDIRECT < k

namespace Mapped

/-- The block was there. -/
theorem found (hg : Growing sb extra x s)
    (hne : slot s.blocks (s.inodes x).dinode k ≠ 0) :
    Mapped sb extra x k s (slot s.blocks (s.inodes x).dinode k) s where
  evolves := .refl s
  growing := hg
  bytes _ _ := rfl
  result := .inr ⟨hne, rfl⟩
  unmapped h0 := h0
  only _ _ h0 hne := absurd h0 hne

/-- There is no free block. -/
theorem full (hg : Growing sb extra x s) (hm : SameMem s s') (hblocks : s'.blocks = s.blocks)
    (hfull : Full sb s) (hempty : slot s.blocks (s.inodes x).dinode k = 0) :
    Mapped sb extra x k s 0 s' := by
  have hdisk : s'.dinode sb = s.dinode sb := funext fun y => by
    rw [Fs.dinode_eq, Fs.dinode_eq, hblocks]
  have hview : s'.view sb x = s.view sb x := by rw [Fs.view, Fs.view, hdisk, hm.inodes]
  exact {
    evolves := {
      files := hm.files
      outstanding := hm.outstanding
      others := fun y _ => by rw [hm.inodes]
      disk := fun y _ _ => by rw [hdisk]
      cache := by rw [hm.inodes]
      frame := fun _ _ _ _ _ _ => by rw [hblocks]
      mem := ⟨_, by rw [hm.inodes]⟩
      disk_self := fun _ => by rw [hdisk]
      kept := fun _ _ _ => by rw [hm.inodes, hblocks] }
    growing := {
      alloc := hview ▸ hg.alloc
      owned := by rw [hview, hblocks]; exact hg.owned
      outstanding := hm.outstanding ▸ hg.outstanding }
    bytes := fun off _ => by rw [Fs.byte, Fs.byte, hm.inodes, hblocks]
    result := .inl ⟨rfl, fun c hc => by rw [hblocks]; exact hfull c hc⟩
    unmapped := fun _ => by rw [hm.inodes, hblocks]; exact hempty
    only := fun l _ h0 hne => by
      rw [hm.inodes, hblocks] at hne
      exact absurd h0 hne }

/-- A path through two mappings ends with the second. -/
theorem trans {c : Nat} (h1 : Mapped sb extra x NDIRECT s b s1)
    (h2 : Mapped sb extra x k s1 c s2) (hk : NDIRECT < k) : Mapped sb extra x k s c s2 where
  evolves := h1.evolves.trans h2.evolves
  growing := h2.growing
  bytes off hoff := (h2.bytes off hoff).trans (h1.bytes off hoff)
  result := h2.result
  unmapped := h2.unmapped
  only l hl h0 hne := by
    by_cases h : slot s1.blocks (s1.inodes x).dinode l = 0
    · exact h2.only l hl h hne
    · rcases h1.only l hl h0 h with rfl | ⟨-, hlt⟩
      · exact .inr ⟨rfl, hk⟩
      · exact absurd hlt (Nat.lt_irrefl _)

/-- A slot that could not be mapped was empty before, too. -/
theorem empty (h : Mapped sb extra x k s 0 s') (hk : k < NSLOT) :
    slot s.blocks (s.inodes x).dinode k = 0 := by
  by_contra hne
  exact hne ((h.evolves.kept k hk hne).symm.trans (h.unmapped rfl))

end Mapped

/-- Slot `k` has come to hold the block `b`, which was free and is zeroed. -/
theorem Mapped.taken (hg : Growing sb extra x s) (hfiles : s'.files = s.files)
    (hout : s'.outstanding = s.outstanding) (hothers : ∀ y, y ≠ x → s'.inodes y = s.inodes y)
    (hcache : s'.inodes x = { s.inodes x with dinode := (s'.inodes x).dinode })
    (hmem : ∃ addrs, (s'.inodes x).dinode = { (s.inodes x).dinode with addrs := addrs })
    (hdisk : ∀ y < sb.ninodes, s'.dinode sb y = s.dinode sb y) (hb : b ≠ 0)
    (hunheld : ∀ i, ¬Holds sb (s.view sb x) s.blocks i b)
    (hempty : slot s.blocks (s.inodes x).dinode k = 0)
    (hslot : ∀ l < NSLOT, slot s'.blocks (s'.inodes x).dinode l =
      if l = k then b else slot s.blocks (s.inodes x).dinode l)
    (hk : k < NSLOT) (hzero : s'.blocks b = Bytes.Buffer.zero BSIZE)
    (hkeep : ∀ p, sb.Data p → p ≠ b → p ≠ slot s.blocks (s.inodes x).dinode NDIRECT →
      s'.blocks p = s.blocks p)
    (howned : Owned sb (s'.view sb x) s'.blocks extra) : Mapped sb extra x k s b s' := by
  have hkeep' : ∀ i p, Holds sb (s.view sb x) s.blocks i p → i ≠ (x, NDIRECT) →
      s'.blocks p = s.blocks p := by
    intro i p hi hne
    refine hkeep p (hg.owned.data i p hi) (fun hpb => hunheld i (hpb ▸ hi)) fun hp => hne ?_
    refine hg.owned.part.inj hi ?_
    rw [hp]
    exact hg.holds (by decide) (hp ▸ hi.2.2.2)
  have hkept : ∀ l < NSLOT, slot s.blocks (s.inodes x).dinode l ≠ 0 →
      slot s'.blocks (s'.inodes x).dinode l = slot s.blocks (s.inodes x).dinode l := by
    intro l hl hne
    rw [hslot l hl, if_neg]
    rintro rfl
    exact hne hempty
  have hevolves : Evolves sb x s s' := {
    files := hfiles
    outstanding := hout
    others := hothers
    cache := hcache
    mem := hmem
    disk := fun y hy _ => hdisk y hy
    disk_self := hdisk x
    kept := hkept
    frame := fun y hyx hy l hl hne =>
      hkeep' _ _ (Growing.holds_other hyx hy hl hne) fun heq => hyx (congrArg Prod.fst heq) }
  exact {
    evolves := hevolves
    growing := ⟨hevolves.allocated_view hg.alloc, howned, hout ▸ hg.outstanding⟩
    bytes := fun off hoff => by
      refine fbyte_grow (fun l hl hne h0 => ⟨hkept l hl h0, ?_⟩) (fun l hl hne h0 h1 => ?_) hoff
      · exact hkeep' _ _ (hg.holds hl h0) fun heq => hne (congrArg Prod.snd heq)
      · rw [hslot l hl] at h1 ⊢
        split at h1
        · rw [if_pos ‹_›]
          exact hzero
        · exact absurd h0 h1
    result := .inr ⟨hb, by rw [hslot k hk, if_pos rfl]⟩
    unmapped := fun h0 => absurd h0 hb
    only := fun l hl h0 hne => by
      rw [hslot l hl] at hne
      split at hne
      · next hlk => exact .inl hlk
      · exact absurd h0 hne }

/-- Taking a free block changes no slot. -/
theorem Taken.slot_eq {dns : Nat → DiskINode} (ht : Taken sb dns extra s b s') {dip : DiskINode}
    (hind : (dip.addr NDIRECT).toNat ≠ 0 → ∃ i, Holds sb dns s.blocks i (dip.addr NDIRECT).toNat)
    (hdata : (dip.addr NDIRECT).toNat ≠ 0 → sb.Data (dip.addr NDIRECT).toNat) (l : Nat) :
    slot s'.blocks dip l = slot s.blocks dip l := by
  refine slot_congr (fun _ _ => rfl) fun hne => ht.rest _ (hdata hne) ?_
  rintro rfl
  obtain ⟨i, hi⟩ := hind hne
  exact ht.unheld i hi

/-- The indirect block of a growing inode is in its slot. -/
theorem Growing.indirect (hg : Growing sb extra x s)
    (hne : ((s.inodes x).dinode.addr NDIRECT).toNat ≠ 0) :
    Holds sb (s.view sb x) s.blocks (x, NDIRECT) ((s.inodes x).dinode.addr NDIRECT).toNat := by
  have h := holds_indirect s.blocks hg.alloc (by rw [Fs.view_self]; exact hne)
  rw [Fs.view_self] at h
  exact h

theorem Growing.slot_taken (hg : Growing sb extra x s)
    (ht : Taken sb (s.view sb x) extra s b s') (l : Nat) :
    slot s'.blocks (s.inodes x).dinode l = slot s.blocks (s.inodes x).dinode l :=
  ht.slot_eq (fun hne => ⟨_, hg.indirect hne⟩) (fun hne => hg.owned.data _ _ (hg.indirect hne)) l

/-- Ownership depends on what the view says of the inodes there are. -/
theorem Owned.of_view {blocks : Nat → BlockData} (dip : DiskINode)
    (h : Owned sb (setAt (s.view sb x) x dip) blocks extra)
    (hdisk : ∀ y < sb.ninodes, s'.dinode sb y = s.dinode sb y)
    (hmem : (s'.inodes x).dinode = dip) : Owned sb (s'.view sb x) blocks extra := by
  refine h.congr_dns _ fun y hy => ?_
  by_cases hyx : y = x
  · subst hyx
    rw [Fs.view_self, setAt_self, hmem]
  · rw [Fs.view_of_ne hyx, setAt_of_ne hyx, Fs.view_of_ne hyx, hdisk y hy]

theorem block_map_addr_runs (hl : Layout sb) (hg : Growing sb extra x s) (hk : k < NDIRECT + 1) :
    Runs (block_map_addr sb x k) s (Mapped sb extra x k s) TooBig := by
  have hkn : k < NSLOT := Nat.lt_of_lt_of_le hk (by decide)
  have hsk : slot s.blocks (s.inodes x).dinode k = _ := slot_addr hk
  rw [block_map_addr, runs_bind, runs_get]
  dsimp only
  split
  · next h0 =>
    refine (alloc_runs hl hg.outstanding hg.owned).bind ?_
    rintro b s1 ⟨hm, h1⟩
    rcases h1 with ⟨rfl, hblocks, hfull⟩ | ht
    · rw [if_pos rfl, runs_pure]
      exact .full hg hm hblocks hfull (hsk.trans h0)
    · have hb := hl.data_pos ht.data
      have hbv := Owned.toNat_ofNat hl ht.data
      have haddr : (s.inodes x).dinode.addr k = 0 := UInt32.toNat_inj.mp h0
      rw [if_neg hb]
      simp only [modify_dinode, modify_inode, runs_bind, runs_modify, runs_pure, hm.inodes]
      refine .taken hg hm.files hm.outstanding (fun y hy => setAt_of_ne hy)
        (by simp only [setAt_self]) ⟨_, by simp only [setAt_self]; rfl⟩
        (fun y hy => ht.disk y hy) hb ht.unheld (hsk.trans h0) (fun l hl => ?_) hkn ht.zero
        (fun p hp hpb _ => ht.rest p hp hpb) ?_
      · simp only [setAt_self]
        rw [slot_setAddr hk haddr (fun _ => by rw [hbv]; exact ht.zero), hbv, hg.slot_taken ht]
      · have h2 := ht.owned.hold_addr hl hg.alloc hk (by rw [Fs.view_self]; exact haddr)
          (.inr rfl) fun _ => ht.zero
        rw [Fs.view_self] at h2
        refine Owned.of_view _ (s := s) (h2.congr (fun _ => Iff.rfl) (fun _ _ _ _ => rfl)
          (fun _ _ => rfl) (fun _ => rfl) fun c => ?_) (fun y hy => ht.disk y hy) ?_
        · exact ⟨fun hc => ⟨.inl hc, fun hcb => ht.unused (hcb ▸ hc)⟩,
            fun hc => hc.1.resolve_right hc.2⟩
        · simp only [setAt_self]
  · next h0 =>
    rw [runs_pure, ← hsk]
    exact .found hg (by rw [hsk]; exact h0)

theorem block_map_indirect_runs (hl : Layout sb) (hg : Growing sb extra x s) {j : Nat}
    (hj : j < NINDIRECT) (hne : ((s.inodes x).dinode.addr NDIRECT).toNat ≠ 0) :
    Runs (block_map_indirect sb ((s.inodes x).dinode.addr NDIRECT).toNat j) s
      (Mapped sb extra x (NDIRECT + 1 + j) s) TooBig := by
  have hkn : NDIRECT + 1 + j < NSLOT := Nat.add_lt_add_left hj _
  have hsk : slot s.blocks (s.inodes x).dinode (NDIRECT + 1 + j) =
      ((s.blocks ((s.inodes x).dinode.addr NDIRECT).toNat).get32 (4 * j)).toNat := by
    rw [slot_indirect (by omega), if_neg hne, Nat.add_sub_cancel_left]
  rw [block_map_indirect, runs_bind, runs_get]
  dsimp only
  split
  · next h0 =>
    refine (alloc_runs hl hg.outstanding hg.owned).bind ?_
    rintro b s1 ⟨hm, h1⟩
    rcases h1 with ⟨rfl, hblocks, hfull⟩ | ht
    · simp only [ne_eq, not_true_eq_false, if_false, runs_pure]
      exact .full hg hm hblocks hfull (hsk.trans h0)
    · have hb := hl.data_pos ht.data
      have hbv := Owned.toNat_ofNat hl ht.data
      rw [if_pos hb, ← Program.runs_bind_assoc]
      refine (modify_log_write_runs _ (hm.outstanding ▸ hg.outstanding)).bind ?_
      rintro _ s2 ⟨hm2, hblocks⟩
      have hdata := hg.owned.data _ _ (hg.indirect hne)
      have hindb : ((s.inodes x).dinode.addr NDIRECT).toNat ≠ b := fun heq =>
        ht.unheld _ (heq ▸ hg.indirect hne)
      have hdisk : ∀ y < sb.ninodes, s2.dinode sb y = s.dinode sb y := fun y hy => by
        rw [Fs.dinode_eq, hblocks, dinodeAt_setAt_ne (hl.inode_ne_data hy hdata), ← ht.disk y hy]
        rfl
      have hinodes : s2.inodes = s.inodes := hm2.inodes.trans hm.inodes
      rw [runs_pure]
      refine .taken hg (hm2.files.trans hm.files) (hm2.outstanding.trans hm.outstanding)
        (fun y _ => by rw [hinodes]) (by rw [hinodes]) ⟨_, by rw [hinodes]⟩ hdisk hb ht.unheld (hsk.trans h0)
        (fun l hln => ?_) hkn ?_ (fun p hp hpb hp12 => ?_) ?_
      · rw [hinodes, hblocks, slot_put32 hj hln hne, hbv, hg.slot_taken ht]
      · rw [hblocks, setAt_of_ne (Ne.symm hindb)]
        exact ht.zero
      · rw [slot_addr (by decide)] at hp12
        rw [hblocks, setAt_of_ne hp12]
        exact ht.rest p hp hpb
      · have h2 := ht.owned.hold_indirect hl hg.alloc hj (by rw [Fs.view_self]; exact hne)
          (by rw [Fs.view_self, hg.slot_taken ht, hsk, h0]) (.inr rfl)
        rw [Fs.view_self, ← hblocks] at h2
        refine Owned.of_view (s.inodes x).dinode (s := s) ?_ hdisk (by rw [hinodes])
        refine h2.congr (fun y => ?_) (fun y _ _ _ => ?_) (fun _ _ => rfl) (fun _ => rfl) fun c => ?_
        · rw [Fs.view_setAt_self]
        · rw [Fs.view_setAt_self]
        · exact ⟨fun hc => ⟨.inl hc, fun hcb => ht.unused (hcb ▸ hc)⟩,
            fun hc => hc.1.resolve_right hc.2⟩
  · next h0 =>
    rw [runs_pure, ← hsk]
    exact .found hg (by rw [hsk]; exact h0)

theorem block_map_runs (hl : Layout sb) (hg : Growing sb extra x s) {n : Nat} (hn : n < MAX_FILE) :
    Runs (block_map sb x n) s (Mapped sb extra x (fslot n) s) TooBig := by
  rw [block_map]
  split
  · next hd =>
    rw [fslot, if_pos hd]
    exact block_map_addr_runs hl hg (Nat.lt_succ_of_lt hd)
  · next hd =>
    have hj : n - NDIRECT < NINDIRECT := by
      simp only [MAX_FILE, NDIRECT, NINDIRECT, BSIZE] at *
      omega
    rw [if_pos hj]
    refine (block_map_addr_runs hl hg (by decide : NDIRECT < NDIRECT + 1)).bind fun b s1 h1 => ?_
    have hk : fslot n = NDIRECT + 1 + (n - NDIRECT) := by
      rw [fslot, if_neg hd]
      omega
    rcases h1.result with ⟨rfl, hfull⟩ | ⟨hb, hslot⟩
    · rw [if_pos rfl, runs_pure]
      refine ⟨h1.evolves, h1.growing, h1.bytes, .inl ⟨rfl, hfull⟩, fun _ => ?_,
        fun l hl h0 hne => ?_⟩
      · have h12 := h1.unmapped rfl
        rw [slot_addr (by decide)] at h12
        rw [fslot, if_neg hd, slot_indirect (by omega), if_pos h12]
      · rcases h1.only l hl h0 hne with h12 | ⟨-, hlt⟩
        · exact .inr ⟨h12, by omega⟩
        · exact absurd hlt (Nat.lt_irrefl _)
    · rw [if_neg hb, ← hslot, slot_addr (by decide), hk]
      rw [← hslot, slot_addr (by decide)] at hb
      exact (block_map_indirect_runs hl h1.growing hj hb).imp fun c s2 h2 =>
        h1.trans h2 (by omega)

/-- An entry of `addrs` that is not empty is found, and nothing happens. -/
theorem block_map_addr_found {E : Fault → Prop} (hne : ((s.inodes x).dinode.addr k).toNat ≠ 0) :
    Runs (block_map_addr sb x k) s
      (fun b s' => b = ((s.inodes x).dinode.addr k).toNat ∧ s' = s) E := by
  rw [block_map_addr, runs_bind, runs_get]
  dsimp only
  rw [if_neg hne, runs_pure]
  exact ⟨rfl, rfl⟩

/-- A block that is mapped is found, and nothing happens. -/
theorem block_map_found {n : Nat} {E : Fault → Prop} (hn : n < MAX_FILE)
    (hne : slot s.blocks (s.inodes x).dinode (fslot n) ≠ 0) :
    Runs (block_map sb x n) s
      (fun b s' => b = slot s.blocks (s.inodes x).dinode (fslot n) ∧ s' = s) E := by
  by_cases hd : n < NDIRECT
  · rw [fslot, if_pos hd, slot_addr (Nat.lt_succ_of_lt hd)] at *
    rw [block_map, if_pos hd]
    exact block_map_addr_found hne
  · have hj : n - NDIRECT < NINDIRECT := by
      simp only [MAX_FILE, NDIRECT, NINDIRECT, BSIZE] at *
      omega
    have hslot : slot s.blocks (s.inodes x).dinode (fslot n) =
        if ((s.inodes x).dinode.addr NDIRECT).toNat = 0 then 0
        else ((s.blocks ((s.inodes x).dinode.addr NDIRECT).toNat).get32
          (4 * (n - NDIRECT))).toNat := by
      rw [fslot, if_neg hd, slot_indirect (by omega), Nat.add_sub_add_right]
    rw [hslot] at hne ⊢
    have h12 : ((s.inodes x).dinode.addr NDIRECT).toNat ≠ 0 := fun h0 => hne (if_pos h0)
    rw [if_neg h12] at hne ⊢
    rw [block_map, if_neg hd, if_pos hj]
    refine (block_map_addr_found h12).bind ?_
    rintro b s1 ⟨hb, hs⟩
    subst hb hs
    rw [if_neg h12, block_map_indirect, runs_bind, runs_get]
    dsimp only
    rw [if_neg hne, runs_pure]
    exact ⟨rfl, rfl⟩

end Xv6fs
