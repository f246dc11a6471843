import Xv6fs.Fs.ReadWrite

/-! `INode::trunc`: an inode gives up all its blocks at once, which are then freed one by one. -/

namespace Xv6fs

open Program (Runs runs_bind runs_pure runs_get runs_modify runs_assert runs_throw runs_ite)

/-- The inode after the entries of `addrs` in `l` are cleared. -/
def DiskINode.clear (dip : DiskINode) (l : List Nat) : DiskINode :=
  { dip with addrs := fun i => if i.val ∈ l then 0 else dip.addrs i }

/-- The inode without blocks. -/
def DiskINode.bare (dip : DiskINode) : DiskINode := { dip with size := 0, addrs := fun _ => 0 }

variable {sb : SuperBlock} {s s' : Fs} {x k b : Nat} {dns : Nat → DiskINode} {R : Nat → Prop}
  {blocks : Nat → BlockData} {dip : DiskINode}

theorem DiskINode.addr_clear (l : List Nat) {k : Nat} (hk : k < NDIRECT + 1) :
    (dip.clear l).addr k = if k ∈ l then 0 else dip.addr k := by
  simp [addr, clear, hk]

theorem DiskINode.addr_bare (dip : DiskINode) (k : Nat) : dip.bare.addr k = 0 := by
  simp [addr, bare]

/-- While `trunc` frees the blocks of inode `x`, those in the slots `R` are left.  Data blocks are
as they were. -/
structure Freeing (sb : SuperBlock) (dns : Nat → DiskINode) (blocks : Nat → BlockData) (x : Nat)
    (R : Nat → Prop) (s : Fs) : Prop where
  owned : Owned sb (setAt dns x (dns x).bare) s.blocks
    fun c => ∃ k, R k ∧ Holds sb dns blocks (x, k) c
  data : ∀ p, sb.Data p → s.blocks p = blocks p
  disk : ∀ y < sb.ninodes, s.dinode sb y = dinodeAt sb blocks y
  outstanding : s.outstanding ≥ 1

namespace Freeing

theorem congr {R' : Nat → Prop} (h : Freeing sb dns blocks x R s) (hblocks : s'.blocks = s.blocks)
    (hout : s'.outstanding = s.outstanding)
    (hR : ∀ k c, Holds sb dns blocks (x, k) c → (R' k ↔ R k)) : Freeing sb dns blocks x R' s' where
  owned := by
    rw [hblocks]
    refine h.owned.congr (fun _ => Iff.rfl) (fun _ _ _ _ => rfl) (fun _ _ => rfl) (fun _ => rfl)
      fun c => ?_
    constructor
    · rintro ⟨k, hk, hc⟩
      exact ⟨k, (hR k c hc).mp hk, hc⟩
    · rintro ⟨k, hk, hc⟩
      exact ⟨k, (hR k c hc).mpr hk, hc⟩
  data p hp := by rw [hblocks]; exact h.data p hp
  disk y hy := by rw [Fs.dinode_eq, hblocks]; exact h.disk y hy
  outstanding := hout ▸ h.outstanding

/-- All blocks of the inode are to be freed. -/
theorem start (h : Owned sb dns s.blocks fun _ => False) (ho : s.outstanding ≥ 1) :
    Freeing sb dns s.blocks x (fun _ => True) s where
  owned := by
    refine (h.drop x _ fun k _ => DiskINode.addr_bare _ k).congr (fun _ => Iff.rfl)
      (fun _ _ _ _ => rfl) (fun _ _ => rfl) (fun _ => rfl) fun c => ?_
    simp
  data _ _ := rfl
  disk _ _ := rfl
  outstanding := ho

/-- The block in slot `k` is freed. -/
theorem free_runs (hl : Layout sb) (h : Freeing sb dns blocks x R s)
    (h0 : Owned sb dns blocks fun _ => False) (hk : R k) (hb : Holds sb dns blocks (x, k) b) :
    Runs (block_free sb b) s (fun _ s' => SameMem s s' ∧
      Freeing sb dns blocks x (fun l => R l ∧ l ≠ k) s') TooBig := by
  have hextra : ∃ l, R l ∧ Holds sb dns blocks (x, l) b := ⟨k, hk, hb⟩
  refine (block_free_runs h.outstanding (h.owned.bit_of_extra hextra)).imp ?_
  rintro _ s' ⟨hm, hblocks⟩
  refine ⟨hm, ?_⟩
  have hdata := h0.data _ _ hb
  exact {
    owned := by
      rw [hblocks]
      refine (h.owned.free hl hextra).congr (fun _ => Iff.rfl) (fun _ _ _ _ => rfl)
        (fun _ _ => rfl) (fun _ => rfl) fun c => ?_
      constructor
      · rintro ⟨l, ⟨hR, hlk⟩, hc⟩
        refine ⟨⟨l, hR, hc⟩, ?_⟩
        rintro rfl
        exact hlk (congrArg Prod.snd (h0.part.inj hc hb))
      · rintro ⟨⟨l, hR, hc⟩, hcb⟩
        refine ⟨l, ⟨hR, ?_⟩, hc⟩
        rintro rfl
        exact hcb (hc.2.2.1.symm.trans hb.2.2.1)
    data := fun p hp => by rw [hblocks, freeAt_data hl hdata.2 hp]; exact h.data p hp
    disk := fun y hy => by
      rw [Fs.dinode_eq, hblocks, dinodeAt_freeAt hl hy]
      exact h.disk y hy
    outstanding := hm.outstanding ▸ h.outstanding }

end Freeing

/-- The loop over the direct blocks frees those in `l`. -/
theorem trunc_direct_runs (hl : Layout sb) (h0 : Owned sb dns blocks fun _ => False)
    (hx : Allocated sb dns x) (l : List Nat) (h : Freeing sb dns blocks x R s) (hnodup : l.Nodup)
    (hin : ∀ i ∈ l, i < NDIRECT ∧ R i)
    (haddr : ∀ i ∈ l, (s.inodes x).dinode.addr i = (dns x).addr i) :
    Runs (INode.trunc_direct sb x l) s (fun _ s' => s'.files = s.files ∧
      s'.inodes = setAt s.inodes x
        { s.inodes x with dinode := (s.inodes x).dinode.clear l } ∧
      s'.outstanding = s.outstanding ∧
      Freeing sb dns blocks x (fun k => R k ∧ k ∉ l) s') TooBig := by
  induction l generalizing s R with
  | nil =>
    rw [INode.trunc_direct, runs_pure]
    refine ⟨rfl, ?_, rfl, h.congr rfl rfl fun _ _ _ => by simp⟩
    have hclear : (s.inodes x).dinode.clear [] = (s.inodes x).dinode := by
      simp [DiskINode.clear]
    rw [hclear]
    funext y
    rw [setAt_apply]
    split
    · next hyx => rw [hyx]
    · rfl
  | cons i l ih =>
    obtain ⟨hi, hRi⟩ := hin i List.mem_cons_self
    have hai := haddr i List.mem_cons_self
    rw [List.nodup_cons] at hnodup
    have hclear : ∀ dip : DiskINode, (dip.setAddr i 0).clear l = dip.clear (i :: l) := fun dip => by
      refine DiskINode.ext rfl rfl rfl rfl rfl (funext fun j => ?_)
      simp only [DiskINode.clear, DiskINode.setAddr, List.mem_cons]
      by_cases hji : j.val = i
      · simp [hji]
      · simp [hji]
    rw [INode.trunc_direct, runs_bind, runs_get]
    dsimp only
    split
    · next hne =>
      rw [hai] at hne ⊢
      have hb : Holds sb dns blocks (x, i) ((dns x).addr i).toNat :=
        ⟨hx, Nat.lt_of_lt_of_le hi (by decide), slot_addr (Nat.lt_succ_of_lt hi), hne⟩
      refine (h.free_runs hl h0 hRi hb).bind ?_
      rintro _ s1 ⟨hm, h1⟩
      simp only [modify_dinode, modify_inode, runs_bind, runs_modify, hm.inodes]
      refine (ih (R := fun k => R k ∧ k ≠ i) ?_ hnodup.2 (fun j hj => ?_) fun j hj => ?_).imp ?_
      · exact h1.congr rfl rfl fun _ _ _ => Iff.rfl
      · have := hin j (List.mem_cons_of_mem _ hj)
        exact ⟨this.1, this.2, fun hji => hnodup.1 (hji ▸ hj)⟩
      · have hj' := hin j (List.mem_cons_of_mem _ hj)
        simp only [setAt_self]
        rw [DiskINode.addr_setAddr _ _ (Nat.lt_succ_of_lt hj'.1),
          if_neg fun hji : j = i => hnodup.1 (hji ▸ hj)]
        exact haddr j (List.mem_cons_of_mem _ hj)
      · rintro _ s2 ⟨hfiles, hinodes, hout, hf⟩
        refine ⟨hfiles.trans hm.files, ?_, hout.trans hm.outstanding,
          hf.congr rfl rfl fun _ _ _ => ?_⟩
        · simp only [hinodes, setAt_self, hclear]
          funext y
          simp only [setAt_apply]
          split <;> rfl
        · simp only [List.mem_cons, not_or, and_assoc]
    · next h00 =>
      have hzero : (s.inodes x).dinode.addr i = 0 :=
        UInt32.toNat_inj.mp (by simpa using h00)
      refine (ih h hnodup.2 (fun j hj => hin j (List.mem_cons_of_mem _ hj))
        fun j hj => haddr j (List.mem_cons_of_mem _ hj)).imp ?_
      rintro _ s2 ⟨hfiles, hinodes, hout, hf⟩
      refine ⟨hfiles, ?_, hout, hf.congr rfl rfl fun k c hc => ?_⟩
      · have : (s.inodes x).dinode.clear (i :: l) = (s.inodes x).dinode.clear l := by
          refine DiskINode.ext rfl rfl rfl rfl rfl (funext fun j => ?_)
          simp only [DiskINode.clear, List.mem_cons]
          by_cases hji : j.val = i
          · have hz : (s.inodes x).dinode.addrs j = 0 := by
              have := hzero
              rwa [← hji, DiskINode.addr_fin] at this
            simp [hji, hz]
          · simp [hji]
        rw [this]
        exact hinodes
      · simp only [List.mem_cons, not_or]
        refine and_congr_right fun _ => ⟨fun hk => hk.2, fun hk => ⟨?_, hk⟩⟩
        rintro rfl
        have hs := hc.2.2.1
        rw [slot_addr (Nat.lt_succ_of_lt hi), ← hai, hzero] at hs
        exact hc.2.2.2 hs.symm

/-- The loop over the indirect block frees the blocks in its entries `l`. -/
theorem trunc_indirect_runs (hl : Layout sb) (h0 : Owned sb dns blocks fun _ => False)
    (hx : Allocated sb dns x) {ind : Nat} (hind : ind = ((dns x).addr NDIRECT).toNat)
    (hne : ind ≠ 0) (l : List Nat) (h : Freeing sb dns blocks x R s) (hnodup : l.Nodup)
    (hin : ∀ j ∈ l, j < NINDIRECT ∧ R (NDIRECT + 1 + j)) :
    Runs (INode.trunc_indirect sb ind l) s (fun _ s' => SameMem s s' ∧
      Freeing sb dns blocks x (fun k => R k ∧ ∀ j ∈ l, k ≠ NDIRECT + 1 + j) s') TooBig := by
  induction l generalizing s R with
  | nil =>
    rw [INode.trunc_indirect, runs_pure]
    exact ⟨.refl s, h.congr rfl rfl fun _ _ _ => by simp⟩
  | cons j l ih =>
    obtain ⟨hj, hRj⟩ := hin j List.mem_cons_self
    rw [List.nodup_cons] at hnodup
    have hdata : sb.Data ind := by
      rw [hind]
      exact h0.data _ _ (holds_indirect _ hx (hind ▸ hne))
    have hslot : slot blocks (dns x) (NDIRECT + 1 + j) = ((blocks ind).get32 (4 * j)).toNat := by
      rw [slot_indirect (by omega), ← hind, if_neg hne, Nat.add_sub_cancel_left]
    rw [INode.trunc_indirect, runs_bind, runs_get]
    dsimp only
    rw [h.data ind hdata]
    split
    · next hb0 =>
      have hb : Holds sb dns blocks (x, NDIRECT + 1 + j) ((blocks ind).get32 (4 * j)).toNat :=
        ⟨hx, Nat.add_lt_add_left hj _, hslot, hb0⟩
      refine (h.free_runs hl h0 hRj hb).bind ?_
      rintro _ s1 ⟨hm, h1⟩
      refine (ih h1 hnodup.2 fun i hi => ?_).imp ?_
      · have := hin i (List.mem_cons_of_mem _ hi)
        refine ⟨this.1, this.2, fun hij => hnodup.1 ?_⟩
        have : i = j := by omega
        exact this ▸ hi
      · rintro _ s2 ⟨hm2, h2⟩
        refine ⟨hm.trans hm2, h2.congr rfl rfl fun k c _ => ?_⟩
        simp only [List.mem_cons, forall_eq_or_imp, and_assoc]
    · next hb0 =>
      refine (ih h hnodup.2 fun i hi => hin i (List.mem_cons_of_mem _ hi)).imp ?_
      rintro _ s2 ⟨hm2, h2⟩
      refine ⟨hm2, h2.congr rfl rfl fun k c hc => ?_⟩
      simp only [List.mem_cons, forall_eq_or_imp]
      refine and_congr_right fun _ => ⟨fun hk => hk.2, fun hk => ⟨?_, hk⟩⟩
      rintro rfl
      have hs := hc.2.2.1
      rw [hslot] at hs
      exact hc.2.2.2 (hs.symm.trans (by simpa using hb0))

/-- What `trunc` does with the indirect block, when it has freed the direct blocks. -/
theorem trunc_rest_runs (hl : Layout sb) (h0 : Owned sb dns blocks fun _ => False)
    (hx : Allocated sb dns x) (h : Freeing sb dns blocks x (fun k => ¬k < NDIRECT) s)
    (haddr : (s.inodes x).dinode.addr NDIRECT = (dns x).addr NDIRECT) :
    Runs (INode.trunc_rest sb x) s (fun _ s' => s'.files = s.files ∧
      s'.inodes = setAt s.inodes x
        { s.inodes x with dinode := (s.inodes x).dinode.clear [NDIRECT] } ∧
      s'.outstanding = s.outstanding ∧ Freeing sb dns blocks x (fun _ => False) s') TooBig := by
  have hnot : ∀ k c, Holds sb dns blocks (x, k) c → ¬k < NDIRECT →
      (∀ j ∈ List.range' 0 NINDIRECT, k ≠ NDIRECT + 1 + j) → k = NDIRECT := by
    intro k c hc hk hj
    have hkn := hc.2.1
    by_contra hne
    refine hj (k - (NDIRECT + 1)) ?_ (by omega)
    simp only [List.mem_range', NSLOT] at *
    exact ⟨k - (NDIRECT + 1), by omega, by omega⟩
  rw [INode.trunc_rest, runs_bind, runs_get]
  dsimp only
  rw [haddr]
  split
  · next hne =>
    refine (trunc_indirect_runs hl h0 hx rfl hne (List.range' 0 NINDIRECT) h List.nodup_range'
      fun j hj => ?_).bind ?_
    · simp only [List.mem_range', Nat.zero_add, Nat.one_mul] at hj
      obtain ⟨i, hi, rfl⟩ := hj
      exact ⟨hi, by omega⟩
    · rintro _ s1 ⟨hm, h1⟩
      have hhold := holds_indirect blocks hx hne
      refine (h1.free_runs hl h0 ⟨by decide, fun j _ => by omega⟩ hhold).bind ?_
      rintro _ s2 ⟨hm2, h2⟩
      simp only [modify_dinode, modify_inode, runs_modify]
      have hinodes := hm2.inodes.trans hm.inodes
      refine ⟨hm2.files.trans hm.files, ?_, hm2.outstanding.trans hm.outstanding,
        h2.congr rfl rfl fun k c hc => ?_⟩
      · rw [hinodes]
        congr 2
        refine DiskINode.ext rfl rfl rfl rfl rfl (funext fun j => ?_)
        simp [DiskINode.clear, DiskINode.setAddr]
      · refine ⟨False.elim, fun hk => ?_⟩
        exact hk.2 (hnot k c hc hk.1.1 hk.1.2)
  · next h00 =>
    have h00 : ((dns x).addr NDIRECT).toNat = 0 := by simpa using h00
    rw [runs_pure]
    refine ⟨rfl, ?_, rfl, h.congr rfl rfl fun k c hc => ⟨False.elim, fun hk => ?_⟩⟩
    · have hclear : (s.inodes x).dinode.clear [NDIRECT] = (s.inodes x).dinode := by
        refine DiskINode.ext rfl rfl rfl rfl rfl (funext fun j => ?_)
        simp only [DiskINode.clear, List.mem_singleton]
        split
        · next hj =>
          have := UInt32.toNat_inj.mp (haddr ▸ h00 : ((s.inodes x).dinode.addr NDIRECT).toNat =
            (0 : UInt32).toNat)
          rw [← hj, DiskINode.addr_fin] at this
          exact this.symm
        · rfl
      rw [hclear]
      funext y
      rw [setAt_apply]
      split
      · next hyx => rw [hyx]
      · rfl
    · have hs := hc.2.2.1
      by_cases hk13 : k < NDIRECT + 1
      · have : k = NDIRECT := by omega
        rw [slot_addr hk13, this, h00] at hs
        exact hc.2.2.2 hs.symm
      · rw [slot_indirect hk13, if_pos h00] at hs
        exact hc.2.2.2 hs.symm

/-- `trunc` frees the blocks of inode `x`. -/
structure Truncated (sb : SuperBlock) (x : Nat) (s s' : Fs) : Prop extends Apart sb x s s' where
  inodes : s'.inodes = setAt s.inodes x { s.inodes x with dinode := (s.inodes x).dinode.bare }
  synced : s'.dinode sb x = (s'.inodes x).dinode
  owned : Owned sb (s'.dinode sb) s'.blocks fun _ => False

theorem trunc_runs (hl : Layout sb) (hx : Allocated sb (s.view sb x) x)
    (h0 : Owned sb (s.view sb x) s.blocks fun _ => False) (ho : s.outstanding ≥ 1) :
    Runs (INode.trunc sb x) s (fun _ s' => Truncated sb x s s') TooBig := by
  have hdata : ∀ y, y ≠ x → Allocated sb (s.dinode sb) y → ∀ k < NSLOT,
      slot s.blocks (s.dinode sb y) k ≠ 0 → sb.Data (slot s.blocks (s.dinode sb y) k) :=
    fun y hyx hy k hk hne => h0.data _ _ (Growing.holds_other hyx hy hk hne)
  have hself : s.view sb x x = (s.inodes x).dinode := Fs.view_self
  simp only [INode.trunc, record, runs_bind, runs_modify]
  refine (trunc_direct_runs hl h0 hx (List.range' 0 NDIRECT)
    (s := { s with trace := .access x :: s.trace })
    ((Freeing.start h0 ho).congr rfl rfl fun _ _ _ => Iff.rfl) List.nodup_range'
    (fun i hi => ?_) fun i hi => by rw [hself]).imp ?_
  · simp only [List.mem_range', Nat.zero_add, Nat.one_mul] at hi
    obtain ⟨j, hj, rfl⟩ := hi
    exact ⟨hj, trivial⟩
  rintro _ s1 ⟨hfiles1, hinodes1, hout1, h1⟩
  have hnot : ∀ k, (True ∧ k ∉ List.range' 0 NDIRECT) ↔ ¬k < NDIRECT := fun k => by
    simp [List.mem_range']
  refine (trunc_rest_runs hl h0 hx (h1.congr rfl rfl fun k _ _ => (hnot k).symm) ?_).imp ?_
  · rw [hinodes1, setAt_self, DiskINode.addr_clear _ (by decide), if_neg (by decide), hself]
  rintro _ s2 ⟨hfiles2, hinodes2, hout2, h2⟩
  rw [← runs_bind]
  refine (modify_update_runs (fun dip => { dip with size := 0 }) h2.outstanding).imp
    fun _ s3 h3 => ?_
  have hbare : { (s2.inodes x).dinode with size := 0 } = (s.inodes x).dinode.bare := by
    rw [hinodes2, setAt_self, hinodes1, setAt_self]
    refine DiskINode.ext rfl rfl rfl rfl rfl (funext fun j => ?_)
    have hj := j.isLt
    simp only [DiskINode.clear, DiskINode.bare, List.mem_singleton, List.mem_range', NDIRECT]
      at hj ⊢
    split
    · rfl
    · next hj12 => exact if_pos ⟨j.val, by omega, by omega⟩
  have hsync : s3.dinode sb x = (s3.inodes x).dinode := by rw [h3.disk_self, h3.mem]
  have hinodes : s3.inodes = setAt s.inodes x
      { s.inodes x with dinode := (s.inodes x).dinode.bare } := by
    rw [h3.inodes, hbare, hinodes2, hinodes1]
    funext y
    simp only [setAt_apply]
    split <;> simp
  have hdisk : ∀ y < sb.ninodes, y ≠ x → s3.dinode sb y = s.dinode sb y := fun y hy hyx => by
    rw [h3.disk_of_ne hyx]
    exact h2.disk y hy
  exact {
    files := h3.files.trans (hfiles2.trans hfiles1)
    outstanding := h3.outstanding.trans (hout2.trans hout1)
    others := fun y hyx => by rw [hinodes, setAt_of_ne hyx]
    disk := hdisk
    frame := fun y hyx hy k hk hne => by
      have hd := hdata y hyx hy k hk hne
      rw [h3.data hl hx.1 hd]
      exact h2.data _ hd
    inodes := hinodes
    synced := hsync
    owned := by
      have hown := h2.owned.congr_dns (setAt (s3.dinode sb) x (s.inodes x).dinode.bare)
        fun y hy => by
          simp only [setAt_apply]
          split
          · rw [hself]
          · next hyx => rw [Fs.view_of_ne hyx, hdisk y hy hyx]
      have hown3 : Owned sb (setAt (s3.dinode sb) x (s.inodes x).dinode.bare) s3.blocks
          fun _ => False :=
        hown.congr (fun _ => Iff.rfl) (fun _ _ _ _ => rfl) (fun p hp => h3.data hl hx.1 hp)
          (h3.bit hl hx.1) fun b => by simp
      refine hown3.congr_dns _ fun y _ => ?_
      simp only [setAt_apply]
      split
      · next hyx => rw [hyx, hsync, h3.mem, hbare]
      · rfl }

end Xv6fs
