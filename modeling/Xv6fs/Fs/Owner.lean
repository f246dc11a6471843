import Xv6fs.Fs.Alloc
import Xv6fs.Lib.Ownership

/-! The ownership of blocks.  A slot is an entry of the `addrs` of an allocated inode or of its
indirect block; every block in use is in exactly one slot, but for those that are being allocated
or freed. -/

namespace Xv6fs

open Ownership (Partition)

/-- Number of slots of an inode: the entries of `addrs`, then those of the indirect block. -/
abbrev NSLOT : Nat := NDIRECT + 1 + NINDIRECT

/-- The block in slot `k` of an inode, and `0` when there is none. -/
def slot (blocks : Nat → BlockData) (dip : DiskINode) (k : Nat) : Nat :=
  if k < NDIRECT + 1 then (dip.addr k).toNat
  else if (dip.addr NDIRECT).toNat = 0 then 0
  else ((blocks (dip.addr NDIRECT).toNat).get32 (4 * (k - (NDIRECT + 1)))).toNat

section slot

variable {blocks blocks' : Nat → BlockData} {dip dip' : DiskINode} {k : Nat}

theorem slot_addr (hk : k < NDIRECT + 1) : slot blocks dip k = (dip.addr k).toNat := if_pos hk

theorem slot_indirect (hk : ¬k < NDIRECT + 1) : slot blocks dip k =
    if (dip.addr NDIRECT).toNat = 0 then 0
    else ((blocks (dip.addr NDIRECT).toNat).get32 (4 * (k - (NDIRECT + 1)))).toNat := if_neg hk

/-- The slots depend on `addrs` and on the indirect block only. -/
theorem slot_congr (haddr : ∀ k < NDIRECT + 1, dip'.addr k = dip.addr k)
    (hind : (dip.addr NDIRECT).toNat ≠ 0 →
      blocks' (dip.addr NDIRECT).toNat = blocks (dip.addr NDIRECT).toNat) :
    slot blocks' dip' k = slot blocks dip k := by
  have h12 := haddr NDIRECT (by decide)
  unfold slot
  rw [h12]
  split
  · next hk => rw [haddr k hk]
  · split
    · rfl
    · next hne => rw [hind hne]

end slot

/-- Inode `x` is allocated. -/
def Allocated (sb : SuperBlock) (dns : Nat → DiskINode) (x : Nat) : Prop :=
  x < sb.ninodes ∧ (dns x).type ≠ FileType.Invalid

/-- Slot `(x, k)` holds block `b`. -/
def Holds (sb : SuperBlock) (dns : Nat → DiskINode) (blocks : Nat → BlockData) (i : Nat × Nat)
    (b : Nat) : Prop :=
  Allocated sb dns i.1 ∧ i.2 < NSLOT ∧ slot blocks (dns i.1) i.2 = b ∧ b ≠ 0

/-- The blocks in use are data blocks that exactly one slot holds, and those in `extra`; every block
before them is marked in the bitmap. -/
structure Owned (sb : SuperBlock) (dns : Nat → DiskINode) (blocks : Nat → BlockData)
    (extra : Nat → Prop) : Prop where
  data : ∀ i b, Holds sb dns blocks i b → sb.Data b
  extra_data : ∀ b, extra b → sb.Data b
  marked : ∀ b < sb.datastart, bitAt sb blocks b = true
  part : Partition (Holds sb dns blocks) (fun b => sb.Data b ∧ bitAt sb blocks b = true) extra

variable {sb : SuperBlock} {dns dns' : Nat → DiskINode} {blocks blocks' : Nat → BlockData}
  {extra extra' : Nat → Prop} {x k b : Nat}

/-- An allocated inode's indirect block is in its slot. -/
theorem holds_indirect (blocks : Nat → BlockData) (hx : Allocated sb dns x) (h : ((dns x).addr NDIRECT).toNat ≠ 0) :
    Holds sb dns blocks (x, NDIRECT) ((dns x).addr NDIRECT).toNat :=
  ⟨hx, (by decide : NDIRECT < NSLOT), slot_addr (by decide : NDIRECT < NDIRECT + 1), h⟩

/-- The slots depend on the types and `addrs` of the inodes and on the indirect blocks. -/
theorem holds_congr (htype : ∀ x, Allocated sb dns' x ↔ Allocated sb dns x)
    (haddr : ∀ x, Allocated sb dns x → ∀ k < NDIRECT + 1, (dns' x).addr k = (dns x).addr k)
    (hind : ∀ x, Allocated sb dns x → ((dns x).addr NDIRECT).toNat ≠ 0 →
      blocks' ((dns x).addr NDIRECT).toNat = blocks ((dns x).addr NDIRECT).toNat)
    (i : Nat × Nat) (c : Nat) : Holds sb dns' blocks' i c ↔ Holds sb dns blocks i c := by
  constructor
  · rintro ⟨hi, hk, hs, hc⟩
    have hi := (htype _).mp hi
    rw [slot_congr (haddr _ hi) (hind _ hi)] at hs
    exact ⟨hi, hk, hs, hc⟩
  · rintro ⟨hi, hk, hs, hc⟩
    rw [← slot_congr (haddr _ hi) (hind _ hi)] at hs
    exact ⟨(htype _).mpr hi, hk, hs, hc⟩

namespace Owned

/-- Ownership depends on the types and `addrs` of the inodes, the bitmap and the data blocks. -/
theorem congr (h : Owned sb dns blocks extra)
    (htype : ∀ x, Allocated sb dns' x ↔ Allocated sb dns x)
    (haddr : ∀ x, Allocated sb dns x → ∀ k < NDIRECT + 1, (dns' x).addr k = (dns x).addr k)
    (hdata : ∀ p, sb.Data p → blocks' p = blocks p)
    (hbit : ∀ b, bitAt sb blocks' b = bitAt sb blocks b)
    (hextra : ∀ b, extra' b ↔ extra b) : Owned sb dns' blocks' extra' := by
  have hholds : ∀ i c, Holds sb dns' blocks' i c ↔ Holds sb dns blocks i c :=
    holds_congr htype haddr fun x hx hne => hdata _ (h.data _ _ (holds_indirect _ hx hne))
  exact {
    data := fun i b hi => h.data i b ((hholds i b).mp hi)
    extra_data := fun b hb => h.extra_data b ((hextra b).mp hb)
    marked := fun b hb => by rw [hbit]; exact h.marked b hb
    part := h.part.congr hholds (fun b => by rw [hbit]) hextra }

/-- A block whose bit is clear is free. -/
theorem free_block (h : Owned sb dns blocks extra) (hb : b < sb.size)
    (hclear : bitAt sb blocks b = false) :
    sb.Data b ∧ ¬extra b ∧ ∀ i, ¬Holds sb dns blocks i b := by
  have hnot : ¬(sb.Data b ∧ bitAt sb blocks b = true) := by simp [hclear]
  refine ⟨⟨Nat.le_of_not_lt fun hlt => ?_, hb⟩, fun he => hnot (h.part.used_of_extra he),
    fun i hi => hnot (h.part.used_of_own hi)⟩
  rw [h.marked b hlt] at hclear
  cases hclear

/-- `block_alloc` takes a free block. -/
theorem alloc (hl : Layout sb) (h : Owned sb dns blocks extra) (hb : b < sb.size)
    (hclear : bitAt sb blocks b = false) :
    Owned sb dns (setAt (markAt sb blocks b) b (Bytes.Buffer.zero BSIZE))
      (fun c => extra c ∨ c = b) := by
  obtain ⟨hdata, -, hfree⟩ := h.free_block hb hclear
  have hbit : ∀ c, c < sb.size → bitAt sb (setAt (markAt sb blocks b) b (Bytes.Buffer.zero BSIZE)) c
      = (bitAt sb blocks c || decide (c = b)) := fun c hc => by
    rw [bitAt_setAt_ne (hl.bit_ne_data hc hdata), bitAt_markAt]
  have hholds : ∀ i c, Holds sb dns (setAt (markAt sb blocks b) b (Bytes.Buffer.zero BSIZE)) i c ↔
      Holds sb dns blocks i c :=
    holds_congr (fun _ => Iff.rfl) (fun _ _ _ _ => rfl) fun x hx hne => by
      have hi := holds_indirect blocks hx hne
      rw [setAt_of_ne (by rintro heq; exact hfree _ (heq ▸ hi)),
        markAt_data hl hb (h.data _ _ hi)]
  exact {
    data := fun i c hi => h.data i c ((hholds i c).mp hi)
    extra_data := by
      rintro c (hc | rfl)
      · exact h.extra_data c hc
      · exact hdata
    marked := fun c hc => by
      have := hdata.1
      rw [hbit c (by omega), h.marked c hc, Bool.true_or]
    part := (h.part.take (b := b) (by simp [hclear])).congr hholds
      (fun c => by
        constructor
        · rintro ⟨hc, hset⟩
          rw [hbit c hc.2, Bool.or_eq_true, decide_eq_true_eq] at hset
          exact hset.imp_left fun h => ⟨hc, h⟩
        · rintro (⟨hc, hset⟩ | rfl)
          · exact ⟨hc, by rw [hbit c hc.2, hset, Bool.true_or]⟩
          · exact ⟨hdata, by rw [hbit c hb]; simp⟩)
      (fun _ => Iff.rfl) }

/-- `block_free` of a block that no slot holds any more. -/
theorem free (hl : Layout sb) (h : Owned sb dns blocks extra) (hb : extra b) :
    Owned sb dns (freeAt sb blocks b) (fun c => extra c ∧ c ≠ b) := by
  have hdata := h.extra_data b hb
  have hholds : ∀ i c, Holds sb dns (freeAt sb blocks b) i c ↔ Holds sb dns blocks i c :=
    holds_congr (fun _ => Iff.rfl) (fun _ _ _ _ => rfl) fun x hx hne =>
      freeAt_data hl hdata.2 (h.data _ _ (holds_indirect _ hx hne))
  exact {
    data := fun i c hi => h.data i c ((hholds i c).mp hi)
    extra_data := fun c hc => h.extra_data c hc.1
    marked := fun c hc => by
      have hne : c ≠ b := by have := hdata.1; omega
      rw [bitAt_freeAt, h.marked c hc]
      simp [hne]
    part := (h.part.free hb).congr hholds
      (fun c => by simp only [bitAt_freeAt, Bool.and_eq_true, decide_eq_true_eq, and_assoc])
      (fun _ => Iff.rfl) }

/-- A block in `extra` is marked. -/
theorem bit_of_extra (h : Owned sb dns blocks extra) (hb : extra b) : bitAt sb blocks b = true :=
  (h.part.used_of_extra hb).2

end Owned

/-! ### Slots that come to hold a block -/

theorem get32_zero (off : Nat) : (Bytes.Buffer.zero BSIZE).get32 off = 0 := by
  simp [Bytes.Buffer.get32, Bytes.word32]

/-- The slots after a store to an empty entry of `addrs`. -/
theorem slot_setAddr {dip : DiskINode} {v : UInt32} {l : Nat} (hk : k < NDIRECT + 1)
    (hempty : dip.addr k = 0)
    (hzero : k = NDIRECT → blocks v.toNat = Bytes.Buffer.zero BSIZE) :
    slot blocks (dip.setAddr k v) l = if l = k then v.toNat else slot blocks dip l := by
  by_cases hl : l < NDIRECT + 1
  · rw [slot_addr hl, slot_addr hl, DiskINode.addr_setAddr dip v hl]
    split <;> rfl
  · have hne : l ≠ k := by omega
    rw [slot_indirect hl, slot_indirect hl, if_neg hne, DiskINode.addr_setAddr dip v (by decide)]
    by_cases h12 : NDIRECT = k
    · subst h12
      rw [if_pos rfl, hempty, hzero rfl, get32_zero]
      simp
    · rw [if_neg h12]

/-- The slots of an inode after a store to entry `j` of its indirect block. -/
theorem slot_put32 {dip : DiskINode} {v : UInt32} {j l : Nat} (hj : j < NINDIRECT)
    (hl : l < NSLOT) (hind : (dip.addr NDIRECT).toNat ≠ 0) :
    slot (setAt blocks (dip.addr NDIRECT).toNat
      ((blocks (dip.addr NDIRECT).toNat).put32 (4 * j) v)) dip l =
      if l = NDIRECT + 1 + j then v.toNat else slot blocks dip l := by
  simp only [NSLOT, NINDIRECT, NDIRECT, BSIZE] at hj hl ⊢
  by_cases hl13 : l < NDIRECT + 1
  · rw [slot_addr hl13, slot_addr hl13, if_neg (by simp only [NDIRECT] at hl13; omega)]
  · rw [slot_indirect hl13, slot_indirect hl13, if_neg hind, if_neg hind, setAt_self]
    simp only [NDIRECT] at hl13 ⊢
    by_cases hlj : l = 12 + 1 + j
    · subst hlj
      rw [if_pos rfl, Nat.add_sub_cancel_left, Bytes.Buffer.get32_put32_same _ _ (by
        simp only [BSIZE]; omega)]
    · rw [if_neg hlj, Bytes.Buffer.get32_put32_ne _ _ (by omega)]

namespace Owned

theorem toNat_ofNat (hl : Layout sb) (hb : sb.Data b) : (UInt32.ofNat b).toNat = b :=
  UInt32.toNat_ofNat_of_lt' (Nat.lt_trans hb.2 hl.words)

/-- A new block goes to an empty entry of the `addrs` of an inode. -/
theorem hold_addr (hl : Layout sb) (h : Owned sb dns blocks extra) (hx : Allocated sb dns x)
    (hk : k < NDIRECT + 1) (hempty : (dns x).addr k = 0) (hb : extra b)
    (hzero : k = NDIRECT → blocks b = Bytes.Buffer.zero BSIZE) :
    Owned sb (setAt dns x ((dns x).setAddr k (UInt32.ofNat b))) blocks
      (fun c => extra c ∧ c ≠ b) := by
  have hdata := h.extra_data b hb
  have hbv := toNat_ofNat hl hdata
  have hholds : ∀ i c, Holds sb (setAt dns x ((dns x).setAddr k (UInt32.ofNat b))) blocks i c ↔
      Holds sb dns blocks i c ∨ i = (x, k) ∧ c = b := by
    rintro ⟨y, l⟩ c
    by_cases hyx : y = x
    · subst hyx
      have hslot : slot blocks ((dns y).setAddr k (UInt32.ofNat b)) l = _ := slot_setAddr hk hempty
        (fun h12 => by rw [hbv]; exact hzero h12)
      have hslotk : slot blocks (dns y) k = 0 := by rw [slot_addr hk, hempty]; rfl
      simp only [Holds, Allocated, setAt_self, hslot, hbv, Prod.mk.injEq, true_and]
      constructor
      · rintro ⟨ha, hln, hc, hc0⟩
        split at hc
        · next hlk => exact .inr ⟨hlk, hc.symm⟩
        · exact .inl ⟨ha, hln, hc, hc0⟩
      · rintro (⟨ha, hln, hc, hc0⟩ | ⟨rfl, rfl⟩)
        · refine ⟨ha, hln, ?_, hc0⟩
          rw [if_neg]
          · exact hc
          · rintro rfl
            exact hc0 (hc.symm.trans hslotk)
        · exact ⟨hx, by simp only [NSLOT, NINDIRECT, NDIRECT, BSIZE] at hk ⊢; omega, if_pos rfl,
            hl.data_pos hdata⟩
    · simp only [Holds, Allocated, setAt_of_ne hyx, Prod.mk.injEq, hyx, false_and, or_false]
  exact {
    data := fun i c hi => by
      rcases (hholds i c).mp hi with hi | ⟨-, rfl⟩
      · exact h.data i c hi
      · exact hdata
    extra_data := fun c hc => h.extra_data c hc.1
    marked := h.marked
    part := h.part.hold hb (x, k) hholds }

/-- A new block goes to an empty entry of the indirect block of an inode. -/
theorem hold_indirect (hl : Layout sb) (h : Owned sb dns blocks extra) (hx : Allocated sb dns x)
    {j : Nat} (hj : j < NINDIRECT) (hind : ((dns x).addr NDIRECT).toNat ≠ 0)
    (hempty : slot blocks (dns x) (NDIRECT + 1 + j) = 0) (hb : extra b) :
    Owned sb dns (setAt blocks ((dns x).addr NDIRECT).toNat
      ((blocks ((dns x).addr NDIRECT).toNat).put32 (4 * j) (UInt32.ofNat b)))
      (fun c => extra c ∧ c ≠ b) := by
  have hdata := h.extra_data b hb
  have hbv := toNat_ofNat hl hdata
  have hx12 := holds_indirect blocks hx hind
  have hdata12 := h.data _ _ hx12
  have hholds : ∀ i c, Holds sb dns (setAt blocks ((dns x).addr NDIRECT).toNat
      ((blocks ((dns x).addr NDIRECT).toNat).put32 (4 * j) (UInt32.ofNat b))) i c ↔
      Holds sb dns blocks i c ∨ i = (x, NDIRECT + 1 + j) ∧ c = b := by
    rintro ⟨y, l⟩ c
    by_cases hyx : y = x
    · subst hyx
      simp only [Holds, Prod.mk.injEq, true_and]
      constructor
      · rintro ⟨ha, hln, hc, hc0⟩
        rw [slot_put32 hj hln hind, hbv] at hc
        split at hc
        · next hlk => exact .inr ⟨hlk, hc.symm⟩
        · exact .inl ⟨ha, hln, hc, hc0⟩
      · rintro (⟨ha, hln, hc, hc0⟩ | ⟨rfl, rfl⟩)
        · refine ⟨ha, hln, ?_, hc0⟩
          rw [slot_put32 hj hln hind, if_neg]
          · exact hc
          · rintro rfl
            exact hc0 (hc.symm.trans hempty)
        · have hln : NDIRECT + 1 + j < NSLOT := Nat.add_lt_add_left hj _
          exact ⟨hx, hln, by rw [slot_put32 hj hln hind, if_pos rfl, hbv], hl.data_pos hdata⟩
    · have hslot : ∀ hy : Allocated sb dns y, slot (setAt blocks ((dns x).addr NDIRECT).toNat
          ((blocks ((dns x).addr NDIRECT).toNat).put32 (4 * j) (UInt32.ofNat b))) (dns y) l =
          slot blocks (dns y) l := fun hy => slot_congr (fun _ _ => rfl) fun hne => setAt_of_ne
        fun heq => hyx (congrArg Prod.fst (h.part.inj (holds_indirect _ hy hne) (heq ▸ hx12)))
      simp only [Holds, Prod.mk.injEq, hyx, false_and, or_false]
      exact and_congr_right fun hy => by rw [hslot hy]
  have hbit : ∀ c < sb.size, bitAt sb (setAt blocks ((dns x).addr NDIRECT).toNat
      ((blocks ((dns x).addr NDIRECT).toNat).put32 (4 * j) (UInt32.ofNat b))) c =
      bitAt sb blocks c := fun c hc => bitAt_setAt_ne (hl.bit_ne_data hc hdata12)
  exact {
    data := fun i c hi => by
      rcases (hholds i c).mp hi with hi | ⟨-, rfl⟩
      · exact h.data i c hi
      · exact hdata
    extra_data := fun c hc => h.extra_data c hc.1
    marked := fun c hc => by
      have := hdata.1
      have := hdata.2
      rw [hbit c (by omega)]
      exact h.marked c hc
    part := (h.part.hold hb (x, NDIRECT + 1 + j) hholds).congr (fun _ _ => Iff.rfl)
      (fun c => and_congr_right fun hc => by rw [hbit c hc.2]) (fun _ => Iff.rfl) }

/-- A store to a block that holds data changes no slot. -/
theorem write_data (hl : Layout sb) (h : Owned sb dns blocks extra) {p : Nat}
    (hp : Holds sb dns blocks (x, k) p) (hk : k ≠ NDIRECT) (d : BlockData) :
    Owned sb dns (setAt blocks p d) extra := by
  have hdata := h.data _ _ hp
  have hbit : ∀ c < sb.size, bitAt sb (setAt blocks p d) c = bitAt sb blocks c := fun c hc =>
    bitAt_setAt_ne (hl.bit_ne_data hc hdata)
  have hholds : ∀ i c, Holds sb dns (setAt blocks p d) i c ↔ Holds sb dns blocks i c :=
    holds_congr (fun _ => Iff.rfl) (fun _ _ _ _ => rfl) fun y hy hne =>
      setAt_of_ne fun heq => hk (congrArg Prod.snd (h.part.inj hp (heq ▸ holds_indirect _ hy hne)))
  exact {
    data := fun i c hi => h.data i c ((hholds i c).mp hi)
    extra_data := h.extra_data
    marked := fun c hc => by
      have := hdata.1
      have := hdata.2
      rw [hbit c (by omega)]
      exact h.marked c hc
    part := h.part.congr hholds (fun c => and_congr_right fun hc => by rw [hbit c hc.2])
      (fun _ => Iff.rfl) }

/-- A store of an inode changes no slot: `dns` says what the slots are. -/
theorem store (hl : Layout sb) (h : Owned sb dns blocks extra) (hx : x < sb.ninodes)
    (dip : DiskINode) : Owned sb dns (storeAt sb blocks x dip) extra :=
  h.congr (fun _ => Iff.rfl) (fun _ _ _ _ => rfl) (fun _ hp => storeAt_data hl hx hp)
    (fun _ => bitAt_storeAt hl hx) (fun _ => Iff.rfl)

/-- An inode gives up all its blocks. -/
theorem drop (h : Owned sb dns blocks extra) (x : Nat) (dip : DiskINode)
    (hzero : ∀ k < NDIRECT + 1, dip.addr k = 0) :
    Owned sb (setAt dns x dip) blocks
      (fun c => extra c ∨ ∃ k, Holds sb dns blocks (x, k) c) := by
  have hholds : ∀ i c, Holds sb (setAt dns x dip) blocks i c ↔
      Holds sb dns blocks i c ∧ ¬i.1 = x := by
    rintro ⟨y, l⟩ c
    by_cases hyx : y = x
    · subst hyx
      have hslot : slot blocks dip l = 0 := by
        by_cases hl : l < NDIRECT + 1
        · rw [slot_addr hl, hzero l hl]; rfl
        · rw [slot_indirect hl, hzero NDIRECT (by decide)]; rfl
      simp only [Holds, setAt_self, hslot, not_true_eq_false, and_false, iff_false]
      rintro ⟨-, -, hc, hc0⟩
      exact hc0 hc.symm
    · simp only [Holds, Allocated, setAt_of_ne hyx, hyx, not_false_eq_true, and_true]
  exact {
    data := fun i c hi => h.data i c ((hholds i c).mp hi).1
    extra_data := by
      rintro c (hc | ⟨k, hc⟩)
      · exact h.extra_data c hc
      · exact h.data _ c hc
    marked := h.marked
    part := (h.part.drop (fun i => i.1 = x) hholds).congr (fun _ _ => Iff.rfl) (fun _ => Iff.rfl)
      fun c => or_congr_right ⟨fun ⟨k, hk⟩ => ⟨(x, k), rfl, hk⟩, fun ⟨⟨_, k⟩, rfl, hk⟩ => ⟨k, hk⟩⟩ }

/-- A free inode has no blocks, whatever it becomes. -/
theorem fresh (h : Owned sb dns blocks extra) (hx : ¬Allocated sb dns x) (dip : DiskINode)
    (hzero : ∀ k < NDIRECT + 1, dip.addr k = 0) : Owned sb (setAt dns x dip) blocks extra := by
  have := h.drop x dip hzero
  refine { this with
    extra_data := h.extra_data
    part := this.part.congr (fun _ _ => Iff.rfl) (fun _ => Iff.rfl) fun c => ?_ }
  exact ⟨.inl, fun hc => hc.elim id fun ⟨_, hk⟩ => absurd hk.1 hx⟩

end Owned

end Xv6fs
