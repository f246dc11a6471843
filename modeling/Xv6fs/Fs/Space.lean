import Xv6fs.Fs.ByteArray

/-! Free blocks, and how many of them a write needs: those of the unmapped slots that it spans.  A
write stores all its bytes exactly if there are as many. -/

namespace Xv6fs

open Program (Runs)

variable {sb : SuperBlock} {s s' s1 s2 : Fs} {x i : Nat} {buf : Bytes.Source} {off n t : Nat}

/-- The blocks that the bitmap has as free. -/
def Fs.free_blocks (sb : SuperBlock) (s : Fs) : Finset Nat :=
  (Finset.range sb.size).filter fun b => bitAt sb s.blocks b = false

/-- The slots of inode `x` that have to be mapped before `n` bytes at `off` can be stored. -/
def Fs.needed (s : Fs) (x off n : Nat) : Finset Nat :=
  (Finset.range NSLOT).filter fun l =>
    slot s.blocks (s.inodes x).dinode l = 0 ∧ Spans off (off + n) l

/-- What the slots hold while inode `x` is in memory. -/
abbrev Fs.Held (sb : SuperBlock) (x : Nat) (s : Fs) (i : Nat × Nat) (b : Nat) : Prop :=
  Holds sb (s.view sb x) s.blocks i b

/-- `t` bytes of `buf` have been stored in inode `x` from `off` on.  New blocks are in slots of these
bytes, or on the way to the next one. -/
structure Stored (sb : SuperBlock) (x : Nat) (buf : Bytes.Source) (off t : Nat) (s s' : Fs) :
    Prop where
  size : (s'.inodes x).dinode.size.toNat = max (s.inodes x).dinode.size.toNat (off + t)
  bytes : ∀ o, s'.byte x o = if off ≤ o ∧ o < off + t then buf (o - off) else s.byte x o
  mapped : ∀ o, off ≤ o → o < off + t →
    slot s'.blocks (s'.inodes x).dinode (fslot (o / BSIZE)) ≠ 0
  keeps : ∀ i b, s.Held sb x i b → s'.Held sb x i b
  fresh : ∀ i b, s'.Held sb x i b → ¬s.Held sb x i b → i.1 = x ∧ Spans off (off + t + 1) i.2

theorem Fs.held_slot {l : Nat} (halloc : Allocated sb (s.view sb x) x)
    (hne : slot s.blocks (s.inodes x).dinode l ≠ 0) :
    s.Held sb x (x, l) (slot s.blocks (s.inodes x).dinode l) := by
  refine ⟨halloc, Nat.lt_of_not_le fun hl => hne (slot_of_le hl), ?_, hne⟩
  rw [Fs.view_self]

theorem Fs.Held.slot_eq {l b : Nat} (h : s.Held sb x (x, l) b) :
    slot s.blocks (s.inodes x).dinode l = b := by
  have := h.2.2.1
  rwa [Fs.view_self] at this

namespace Stored

theorem refl (s : Fs) (x : Nat) (buf : Bytes.Source) (hoff : off ≤ (s.inodes x).dinode.size.toNat) :
    Stored sb x buf off 0 s s where
  size := by omega
  bytes o := by rw [if_neg (by omega)]
  mapped o h1 h2 := by omega
  keeps _ _ := id
  fresh _ _ h hnot := absurd h hnot

/-- A mapped slot stays as it is. -/
theorem slot_eq {l : Nat} (h : Stored sb x buf off t s s')
    (halloc : Allocated sb (s.view sb x) x) (hne : slot s.blocks (s.inodes x).dinode l ≠ 0) :
    slot s'.blocks (s'.inodes x).dinode l = slot s.blocks (s.inodes x).dinode l :=
  Fs.Held.slot_eq (h.keeps _ _ (Fs.held_slot halloc hne))

theorem content_eq (h : Stored sb x buf off t s s')
    (hoff : off ≤ (s.inodes x).dinode.size.toNat) :
    content s'.blocks (s'.inodes x).dinode =
      Bytes.splice (content s.blocks (s.inodes x).dinode) off (Bytes.Source.list buf t) := by
  rw [content, h.size]
  exact Bytes.map_range_splice hoff fun o _ => h.bytes o

/-- Bytes that are stored after those that have been. -/
theorem trans {t' : Nat} (halloc : Allocated sb (s1.view sb x) x)
    (h : Stored sb x buf off t s s1) (h' : Stored sb x (fun k => buf (t + k)) (off + t) t' s1 s2) :
    Stored sb x buf off (t + t') s s2 where
  size := by
    rw [h'.size, h.size]
    omega
  bytes o := by
    rw [h'.bytes o, h.bytes o]
    by_cases h1 : off + t ≤ o ∧ o < off + t + t'
    · rw [if_pos h1, if_pos (by omega)]
      congr 1
      omega
    · rw [if_neg h1]
      by_cases h2 : off ≤ o ∧ o < off + t
      · rw [if_pos h2, if_pos (by omega)]
      · rw [if_neg h2, if_neg (by omega)]
  mapped o h1 h2 := by
    by_cases hlt : o < off + t
    · rw [h'.slot_eq halloc (h.mapped o h1 hlt)]
      exact h.mapped o h1 hlt
    · exact h'.mapped o (Nat.le_of_not_lt hlt) (by omega)
  keeps i b hi := h'.keeps i b (h.keeps i b hi)
  fresh i b hi hnot := by
    by_cases hmid : s1.Held sb x i b
    · obtain ⟨hx, hspans⟩ := h.fresh i b hmid hnot
      exact ⟨hx, hspans.mono (Nat.le_refl _) (by omega)⟩
    · obtain ⟨hx, hspans⟩ := h'.fresh i b hi hmid
      exact ⟨hx, hspans.mono (Nat.le_add_right _ _) (by omega)⟩

end Stored

/-- What a write of an inode stores. -/
theorem Written.stored (hg : Growing sb (fun _ => False) x s)
    (h : Written sb (fun _ => False) x buf n off s t s')
    (hmax : off + n ≤ MAX_SIZE) : Stored sb x buf off t s s' where
  size := h.size_eq
  bytes o := by
    have hle := h.le
    by_cases ho : o < MAX_SIZE
    · exact h.bytes o ho
    · rw [if_neg (by omega), Fs.byte, Fs.byte, fbyte_of_le (Nat.le_of_not_lt ho),
        fbyte_of_le (Nat.le_of_not_lt ho)]
  mapped := h.mapped
  keeps := by
    rintro ⟨y, l⟩ b ⟨hy, hl, hs, hne⟩
    dsimp only at hy hl hs
    by_cases hyx : y = x
    · subst hyx
      rw [Fs.view_self] at hs
      have hkept := h.kept l hl (hs ▸ hne)
      refine ⟨⟨hy.1, ?_⟩, hl, ?_, hne⟩
      · have hty := hy.2
        rw [Fs.view_self] at hty ⊢
        rwa [h.type_eq]
      · rw [Fs.view_self, hkept, hs]
    · rw [Fs.view_of_ne hyx] at hs
      have hal : Allocated sb (s.dinode sb) y := ⟨hy.1, by
        have := hy.2
        rwa [Fs.view_of_ne hyx] at this⟩
      refine ⟨⟨hy.1, ?_⟩, hl, ?_, hne⟩
      · rw [Fs.view_of_ne hyx]
        exact (h.toApart.allocated hyx hal).2
      · rw [Fs.view_of_ne hyx, h.toApart.slot_other hyx hal, hs]
  fresh := by
    rintro ⟨y, l⟩ b ⟨hy, hl, hs, hne⟩ hnot
    dsimp only at hy hl hs
    by_cases hyx : y = x
    · subst hyx
      refine ⟨rfl, (h.only l hl ?_ ?_).mono (Nat.le_refl _) (by split <;> omega)⟩
      · by_contra h0
        refine hnot ?_
        rw [Fs.view_self, h.kept l hl h0] at hs
        exact hs ▸ Fs.held_slot hg.alloc h0
      · rw [Fs.view_self] at hs
        exact hs ▸ hne
    · refine absurd ?_ hnot
      have hdisk := h.disk y hy.1 hyx
      rw [Fs.view_of_ne hyx] at hs
      have hal : Allocated sb (s.dinode sb) y := ⟨hy.1, by
        have := hy.2
        rwa [Fs.view_of_ne hyx, hdisk] at this⟩
      rw [h.toApart.slot_other hyx hal] at hs
      exact ⟨⟨hy.1, by rw [Fs.view_of_ne hyx]; exact hal.2⟩, hl, by rw [Fs.view_of_ne hyx, hs], hne⟩

/-! ### Accounting -/

/-- The slots of inode `x` that have been mapped between two states. -/
def Fs.gained (s s' : Fs) (x : Nat) : Finset Nat :=
  (Finset.range NSLOT).filter fun l =>
    slot s.blocks (s.inodes x).dinode l = 0 ∧ slot s'.blocks (s'.inodes x).dinode l ≠ 0

theorem Fs.mem_free_blocks {b : Nat} :
    b ∈ s.free_blocks sb ↔ b < sb.size ∧ bitAt sb s.blocks b = false := by
  rw [Fs.free_blocks, Finset.mem_filter, Finset.mem_range]

theorem Full.free_blocks (h : Full sb s) : s.free_blocks sb = ∅ := by
  apply Finset.eq_empty_of_forall_notMem
  intro b hb
  obtain ⟨hlt, hclear⟩ := Fs.mem_free_blocks.mp hb
  rw [h b hlt] at hclear
  cases hclear

namespace Stored

variable (h : Stored sb x buf off t s s') (halloc : Allocated sb (s.view sb x) x)
  (halloc' : Allocated sb (s'.view sb x) x) (hs : Owned sb (s.view sb x) s.blocks fun _ => False)
  (hs' : Owned sb (s'.view sb x) s'.blocks fun _ => False)

include h halloc halloc' hs hs'

/-- The blocks that have been taken are those in the slots that have been mapped. -/
theorem taken_iff {b : Nat} : b ∈ s.free_blocks sb ∧ b ∉ s'.free_blocks sb ↔
    ∃ l ∈ s.gained s' x, slot s'.blocks (s'.inodes x).dinode l = b := by
  have hnew := hs.part.newly_used_iff (b := b) hs'.part h.keeps
  have hheld : (∃ i, s'.Held sb x i b ∧ ¬s.Held sb x i b) ↔
      ∃ l ∈ s.gained s' x, slot s'.blocks (s'.inodes x).dinode l = b := by
    constructor
    · rintro ⟨⟨y, l⟩, hi, hnot⟩
      obtain rfl : y = x := (h.fresh _ _ hi hnot).1
      have hb := hi.slot_eq
      refine ⟨l, Finset.mem_filter.mpr ⟨Finset.mem_range.mpr hi.2.1, ?_, hb ▸ hi.2.2.2⟩, hb⟩
      by_contra h0
      rw [h.slot_eq halloc h0] at hb
      exact hnot (hb ▸ Fs.held_slot halloc h0)
    · rintro ⟨l, hl, rfl⟩
      obtain ⟨-, h0, hne⟩ := Finset.mem_filter.mp hl
      refine ⟨(x, l), Fs.held_slot halloc' hne, fun hold => ?_⟩
      rw [← hold.slot_eq] at hne
      exact hne h0
  rw [← hheld, ← hnew, Fs.mem_free_blocks, Fs.mem_free_blocks]
  constructor
  · rintro ⟨⟨hlt, hclear⟩, hnot⟩
    have hset : bitAt sb s'.blocks b = true := by
      cases hb : bitAt sb s'.blocks b with
      | true => rfl
      | false => exact absurd ⟨hlt, hb⟩ hnot
    have hdata : sb.Data b := by
      refine ⟨Nat.le_of_not_lt fun hlow => ?_, hlt⟩
      rw [hs.marked b hlow] at hclear
      cases hclear
    exact ⟨⟨hdata, hset⟩, fun hused => by rw [hused.2] at hclear; cases hclear⟩
  · rintro ⟨⟨hdata, hset⟩, hnot⟩
    refine ⟨⟨hdata.2, ?_⟩, fun hfree => by rw [hset] at hfree; cases hfree.2⟩
    cases hb : bitAt sb s.blocks b with
    | false => rfl
    | true => exact absurd ⟨hdata, hb⟩ hnot

/-- Each slot that has been mapped has taken one free block. -/
theorem card_free : (s.free_blocks sb).card = (s'.free_blocks sb).card + (s.gained s' x).card := by
  have htaken := fun b => h.taken_iff halloc halloc' hs hs' (b := b)
  have hsub : s'.free_blocks sb ⊆ s.free_blocks sb := by
    intro b hb
    obtain ⟨hlt, hclear⟩ := Fs.mem_free_blocks.mp hb
    refine Fs.mem_free_blocks.mpr ⟨hlt, ?_⟩
    cases hset : bitAt sb s.blocks b with
    | false => rfl
    | true =>
      have hdata : sb.Data b := by
        refine ⟨Nat.le_of_not_lt fun hlow => ?_, hlt⟩
        rw [hs'.marked b hlow] at hclear
        cases hclear
      obtain hf | ⟨i, hi⟩ := (hs.part.used_iff b).mp ⟨hdata, hset⟩
      · exact hf.elim
      · have hused := hs'.part.used_of_own (h.keeps i b hi)
        rw [hused.2] at hclear
        cases hclear
  have himage : s.free_blocks sb \ s'.free_blocks sb =
      (s.gained s' x).image (slot s'.blocks (s'.inodes x).dinode) := by
    ext b
    rw [Finset.mem_sdiff, htaken, Finset.mem_image]
  have hinj : Set.InjOn (slot s'.blocks (s'.inodes x).dinode) (s.gained s' x) := by
    intro l hl l' hl' heq
    have hne := (Finset.mem_filter.mp hl).2.2
    have hi : Fs.Held sb x s' (x, l) _ := Fs.held_slot halloc' hne
    have hj : Fs.Held sb x s' (x, l') _ := Fs.held_slot halloc' (Finset.mem_filter.mp hl').2.2
    exact congrArg Prod.snd (hs'.part.inj hi (heq ▸ hj))
  rw [← Finset.card_image_of_injOn hinj, ← himage, Finset.card_sdiff_of_subset hsub]
  have := Finset.card_le_card hsub
  omega

/-- There were enough free blocks for what has been stored. -/
theorem needed_le (hmapped : ∀ o, off ≤ o → o < off + n →
    slot s'.blocks (s'.inodes x).dinode (fslot (o / BSIZE)) ≠ 0) :
    (s.needed x off n).card ≤ (s.free_blocks sb).card := by
  have hsub : s.needed x off n ⊆ s.gained s' x := by
    intro l hl
    obtain ⟨hlt, h0, o, ho, hle, hspan⟩ := Finset.mem_filter.mp hl
    refine Finset.mem_filter.mpr ⟨hlt, h0, ?_⟩
    have hne := hmapped o hle ho
    rcases hspan with rfl | ⟨rfl, hind⟩
    · exact hne
    · intro h12
      rw [slot_addr (by decide)] at h12
      rw [slot_indirect (by omega), if_pos h12] at hne
      exact hne rfl
  rw [h.card_free halloc halloc' hs hs']
  exact Nat.le_trans (Finset.card_le_card hsub) (Nat.le_add_left _ _)

/-- There were not enough free blocks when one of them is still missing. -/
theorem free_lt (hfull : Full sb s') (ht : t < n)
    (hmax : off + n ≤ MAX_SIZE)
    (hempty : slot s'.blocks (s'.inodes x).dinode (fslot ((off + t) / BSIZE)) = 0) :
    (s.free_blocks sb).card < (s.needed x off n).card := by
  have hsub : s.gained s' x ⊆ s.needed x off n := by
    intro l hl
    obtain ⟨hlt, h0, hne⟩ := Finset.mem_filter.mp hl
    refine Finset.mem_filter.mpr ⟨hlt, h0, ?_⟩
    have hnot : ¬s.Held sb x (x, l) (slot s'.blocks (s'.inodes x).dinode l) := fun hold =>
      hne (hold.slot_eq.symm.trans h0)
    exact (h.fresh _ _ (Fs.held_slot halloc' hne) hnot).2.mono (Nat.le_refl _) (by omega)
  have hmem : fslot ((off + t) / BSIZE) ∈ s.needed x off n := by
    refine Finset.mem_filter.mpr ⟨Finset.mem_range.mpr (fslot_lt (div_lt_max (by omega))), ?_,
      off + t, by omega, by omega, .inl rfl⟩
    by_contra h0
    rw [h.slot_eq halloc h0] at hempty
    exact h0 hempty
  have hnot : fslot ((off + t) / BSIZE) ∉ s.gained s' x := fun hl =>
    (Finset.mem_filter.mp hl).2.2 hempty
  rw [h.card_free halloc halloc' hs hs', hfull.free_blocks, Finset.card_empty, Nat.zero_add]
  exact Finset.card_lt_card ⟨hsub, fun hsup => hnot (hsup hmem)⟩

end Stored

theorem Written.growing (hg : Growing sb (fun _ => False) x s)
    (hw : Written sb (fun _ => False) x buf n off s t s') : Growing sb (fun _ => False) x s' := by
  have hview : s'.view sb x = s'.dinode sb := Fs.view_synced hw.synced
  refine ⟨⟨hg.alloc.1, ?_⟩, hview ▸ hw.owned, hw.outstanding ▸ hg.outstanding⟩
  have htype := hg.alloc.2
  rw [Fs.view_self] at htype ⊢
  rwa [hw.type_eq]

theorem Written.full_iff (hg : Growing sb (fun _ => False) x s)
    (hw : Written sb (fun _ => False) x buf n off s t s') (hmax : off + n ≤ MAX_SIZE) :
    t = n ↔ (s.needed x off n).card ≤ (s.free_blocks sb).card := by
  have hst := hw.stored hg hmax
  have hg' := hw.growing hg
  refine ⟨fun htot => ?_, fun hle => ?_⟩
  · subst htot
    exact hst.needed_le hg.alloc hg'.alloc hg.owned hg'.owned hw.mapped
  · by_contra hne
    have hlt : t < n := Nat.lt_of_le_of_ne hw.le hne
    have := hst.free_lt hg.alloc hg'.alloc hg.owned hg'.owned (hw.full hlt) hlt hmax
      (hw.unmapped hlt)
    omega

/-- A write in range stores all its bytes exactly if there are enough free blocks. -/
theorem write_full_iff (hl : Layout sb) (hg : Growing sb (fun _ => False) x s)
    (hoff : off ≤ (s.inodes x).dinode.size.toNat) (hmax : off + n ≤ MAX_SIZE) :
    Runs (INode.write sb x buf off n) s (fun tot s' => Stored sb x buf off tot s s' ∧
      Growing sb (fun _ => False) x s' ∧
      (tot = n ↔ (s.needed x off n).card ≤ (s.free_blocks sb).card)) TooBig :=
  (write_runs hl hg hoff hmax).imp fun _ _ hw =>
    ⟨hw.stored hg hmax, hw.growing hg, hw.full_iff hg hmax⟩

end Xv6fs
