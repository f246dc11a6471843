import Xv6fs.Fs.Map

/-! `INode::read` and `INode::write` of an inode without holes: it is an array of bytes. -/

namespace Xv6fs

open Program (Runs runs_bind runs_pure runs_get runs_modify runs_assert runs_throw runs_ite)

/-- An inode without holes: every block below its size is mapped. -/
structure Solid (blocks : Nat → BlockData) (dip : DiskINode) : Prop where
  size_le : dip.size.toNat ≤ MAX_SIZE
  mapped : ∀ n, n * BSIZE < dip.size.toNat → slot blocks dip (fslot n) ≠ 0

variable {sb : SuperBlock} {s s' s1 s2 s3 : Fs} {x y k p : Nat} {extra : Nat → Prop}
  {blocks : Nat → BlockData} {dip : DiskINode} {buf : Bytes.Source}

theorem fbyte_mapped {off : Nat} (h : slot blocks dip (fslot (off / BSIZE)) ≠ 0) :
    fbyte blocks dip off =
      (blocks (slot blocks dip (fslot (off / BSIZE)))).get (off % BSIZE) := if_neg h

theorem Solid.mapped_at (h : Solid blocks dip) (off : Nat) (hoff : off < dip.size.toNat) :
    slot blocks dip (fslot (off / BSIZE)) ≠ 0 :=
  h.mapped _ (Nat.lt_of_le_of_lt (Nat.div_mul_le_self _ _) hoff)

/-- The bytes that one iteration of `read` or `write` reaches lie in one block. -/
theorem same_block (off o : Nat) {m : Nat} (h1 : off ≤ o) (h2 : o < off + m) (h3 : m ≤ BSIZE - off % BSIZE) :
    o / BSIZE = off / BSIZE ∧ o % BSIZE = off % BSIZE + (o - off) := by
  simp only [BSIZE] at *
  omega

/-! ### Reading -/

theorem read_loop_solid {E : Fault → Prop} {n fuel tot off : Nat}
    (hs : Solid s.blocks (s.inodes x).dinode) (hfuel : n ≤ tot + fuel) (htot : tot ≤ n)
    (hoff : off + (n - tot) ≤ (s.inodes x).dinode.size.toNat) :
    Runs (INode.read_loop sb x n fuel tot off buf) s (fun r s' => s' = s ∧ r.1 = n ∧
      ∀ i, r.2 i = if tot ≤ i ∧ i < n then s.byte x (off + (i - tot)) else buf i) E := by
  induction fuel generalizing tot off buf with
  | zero =>
    have htot : tot = n := by omega
    rw [INode.read_loop, runs_pure]
    exact ⟨rfl, htot, fun i => (if_neg (by omega)).symm⟩
  | succ fuel ih =>
    rw [INode.read_loop]
    split
    · next hlt =>
      have hmap := hs.mapped_at off (by omega)
      have hmax := hs.size_le
      refine (block_map_found (div_lt_max (by omega)) hmap).bind ?_
      rintro b s1 ⟨hb, hs1⟩
      subst hb hs1
      rw [if_neg hmap, runs_bind, runs_get]
      dsimp only
      generalize hm : min (n - tot) (BSIZE - off % BSIZE) = m
      have hblock : m ≤ BSIZE - off % BSIZE := hm ▸ Nat.min_le_right _ _
      have hle : m ≤ n - tot := hm ▸ Nat.min_le_left _ _
      have hpos : 0 < m := by
        have := Nat.mod_lt off (by decide : 0 < BSIZE)
        omega
      refine (ih (by omega) (by omega) (by omega)).imp ?_
      rintro r s2 ⟨hs2, hn, hbuf⟩
      refine ⟨hs2, hn, fun i => ?_⟩
      rw [hbuf i]
      by_cases hi : tot + m ≤ i ∧ i < n
      · rw [if_pos hi, if_pos ⟨by omega, hi.2⟩]
        congr 1
        omega
      · rw [if_neg hi]
        by_cases hi' : tot ≤ i ∧ i < tot + m
        · have hin := same_block off (off + (i - tot)) (by omega) (by omega) hblock
          rw [if_pos hi', if_pos (by omega), Fs.byte, fbyte_mapped (by rw [hin.1]; exact hmap),
            hin.1, hin.2, Nat.add_sub_cancel_left]
        · rw [if_neg hi', if_neg (by omega)]
    · next hge =>
      rw [runs_pure]
      exact ⟨rfl, by omega, fun i => (if_neg (by omega)).symm⟩

/-- `read` of an inode without holes delivers its bytes up to its size, and changes nothing. -/
theorem read_solid {E : Fault → Prop} (hs : Solid s.blocks (s.inodes x).dinode) (off n : Nat) :
    Runs (INode.read sb x buf off n) s (fun r s' => s' = { s with trace := .access x :: s.trace } ∧
      r.1 = (if off > (s.inodes x).dinode.size.toNat then 0
        else min n ((s.inodes x).dinode.size.toNat - off)) ∧
      ∀ i, r.2 i = if i < r.1 then s.byte x (off + i) else buf i) E := by
  simp only [INode.read, record, runs_bind, runs_modify, runs_get]
  split
  · next h =>
    have hgt : off > (s.inodes x).dinode.size.toNat := h.resolve_right (by omega)
    rw [runs_pure, if_pos hgt]
    exact ⟨rfl, rfl, fun i => (if_neg (Nat.not_lt_zero i)).symm⟩
  · next h =>
    have hle : ¬off > (s.inodes x).dinode.size.toNat := fun hgt => h (.inl hgt)
    generalize hn : (if off + n > (s.inodes x).dinode.size.toNat then
      (s.inodes x).dinode.size.toNat - off else n) = n'
    have hmin : n' = min n ((s.inodes x).dinode.size.toNat - off) := by
      rw [← hn]
      split <;> omega
    rw [if_neg hle, ← hmin]
    refine (read_loop_solid (s := { s with trace := .access x :: s.trace }) hs (by omega)
      (Nat.zero_le _) (by dsimp only; omega)).imp ?_
    rintro r s' ⟨hs', hr, hbuf⟩
    refine ⟨hs', hr, fun i => ?_⟩
    rw [hbuf i, hr]
    simp only [Nat.zero_le, true_and, Nat.sub_zero]
    rfl

/-! ### Writing -/

/-- The block `p` of inode `x` gets new data. -/
theorem store_block_runs (hl : Layout sb) (hg : Growing sb extra x s) {n : Nat}
    (hn : n < MAX_FILE) (hne : slot s.blocks (s.inodes x).dinode (fslot n) ≠ 0)
    (f : BlockData → BlockData) :
    Runs (do
        modify_block (slot s.blocks (s.inodes x).dinode (fslot n)) f
        Fs.log_write sb (slot s.blocks (s.inodes x).dinode (fslot n))) s
      (fun _ s' => Evolves sb x s s' ∧ Growing sb extra x s' ∧
        (∀ l < NSLOT, slot s'.blocks (s'.inodes x).dinode l =
          slot s.blocks (s.inodes x).dinode l) ∧
        ∀ o < MAX_SIZE, s'.byte x o = if o / BSIZE = n then
          (f (s.blocks (slot s.blocks (s.inodes x).dinode (fslot n)))).get (o % BSIZE)
          else s.byte x o) TooBig := by
  have hkn := fslot_lt hn
  have hp := hg.holds hkn hne
  have hdata := hg.owned.data _ _ hp
  refine (modify_log_write_runs f hg.outstanding).imp ?_
  rintro _ s' ⟨hm, hblocks⟩
  have hdisk : ∀ y < sb.ninodes, s'.dinode sb y = s.dinode sb y := fun y hy => by
    rw [Fs.dinode_eq, hblocks, dinodeAt_setAt_ne (hl.inode_ne_data hy hdata)]
    rfl
  have hslot : ∀ l, slot s'.blocks (s'.inodes x).dinode l =
      slot s.blocks (s.inodes x).dinode l := fun l => by
    rw [hm.inodes, hblocks]
    refine slot_congr (fun _ _ => rfl) fun h12 => setAt_of_ne fun heq => fslot_ne n ?_
    exact congrArg Prod.snd (hg.owned.part.inj hp (heq ▸ hg.indirect h12))
  have hev : Evolves sb x s s' := {
    files := hm.files
    outstanding := hm.outstanding
    others := fun y _ => by rw [hm.inodes]
    cache := by rw [hm.inodes]
    mem := ⟨_, by rw [hm.inodes]⟩
    disk := fun y hy _ => hdisk y hy
    disk_self := hdisk x
    kept := fun l _ _ => hslot l
    frame := fun y hyx hy l hl hne' => by
      rw [hblocks]
      refine setAt_of_ne fun heq => hyx ?_
      have hq := Growing.holds_other (x := x) hyx hy hl hne'
      exact congrArg Prod.fst (hg.owned.part.inj (heq ▸ hq) hp) }
  refine ⟨hev, ⟨hev.allocated_view hg.alloc, ?_, hm.outstanding ▸ hg.outstanding⟩,
    fun l _ => hslot l, fun o ho => ?_⟩
  · rw [hblocks]
    refine (hg.owned.write_data hl hp (fslot_ne n) _).congr_dns _ fun y hy => ?_
    rw [Fs.view, Fs.view, hm.inodes, setAt_apply, setAt_apply, hdisk y hy]
  · rw [Fs.byte, Fs.byte, fbyte, fbyte, hslot]
    by_cases hon : o / BSIZE = n
    · rw [if_pos hon, hon, if_neg hne, hblocks, setAt_self]
    · rw [if_neg hon]
      split
      · rfl
      · next h0 =>
        rw [hblocks, setAt_of_ne]
        intro heq
        have hq := hg.holds (fslot_lt (div_lt_max ho)) h0
        exact hon (fslot_inj (congrArg Prod.snd (hg.owned.part.inj (heq ▸ hq) hp)))

/-- Slot `l` is that of a block with a byte from `off` on and before `limit`, or that of the indirect
block on the way to one. -/
def Spans (off limit l : Nat) : Prop :=
  ∃ o < limit, off ≤ o ∧ (l = fslot (o / BSIZE) ∨ l = NDIRECT ∧ NDIRECT < fslot (o / BSIZE))

instance (off limit l : Nat) : Decidable (Spans off limit l) := by
  unfold Spans
  infer_instance

theorem Spans.mono {off off' limit limit' l : Nat} (h : Spans off limit l) (hoff : off' ≤ off)
    (hlimit : limit ≤ limit') : Spans off' limit' l := by
  obtain ⟨o, ho, hle, hl⟩ := h
  exact ⟨o, Nat.lt_of_lt_of_le ho hlimit, Nat.le_trans hoff hle, hl⟩

/-- What the loop of `write` does from `tot` and `off` on. -/
structure Wrote (sb : SuperBlock) (extra : Nat → Prop) (x : Nat) (buf : Bytes.Source)
    (n tot off : Nat) (s : Fs) (r : Nat × Nat) (s' : Fs) : Prop where
  evolves : Evolves sb x s s'
  growing : Growing sb extra x s'
  le : tot ≤ r.1
  tot_le : r.1 ≤ n
  off_eq : r.2 = off + (r.1 - tot)
  full : r.1 < n → Full sb s'
  unmapped : r.1 < n → slot s'.blocks (s'.inodes x).dinode (fslot (r.2 / BSIZE)) = 0
  edge : r.1 < n → r.1 = tot ∨ r.2 % BSIZE = 0
  only : ∀ l < NSLOT, slot s.blocks (s.inodes x).dinode l = 0 →
    slot s'.blocks (s'.inodes x).dinode l ≠ 0 → Spans off (r.2 + if r.1 < n then 1 else 0) l
  bytes : ∀ o < MAX_SIZE, s'.byte x o =
    if off ≤ o ∧ o < r.2 then buf (tot + (o - off)) else s.byte x o
  mapped : ∀ o, off ≤ o → o < r.2 → slot s'.blocks (s'.inodes x).dinode (fslot (o / BSIZE)) ≠ 0

theorem write_loop_runs (hl : Layout sb) (hg : Growing sb extra x s) {n fuel tot off : Nat}
    (hfuel : n ≤ tot + fuel) (htot : tot ≤ n) (hoff : off + (n - tot) ≤ MAX_SIZE) :
    Runs (INode.write_loop sb x buf n fuel tot off) s (Wrote sb extra x buf n tot off s)
      TooBig := by
  have stop : ∀ {s s' : Fs} {tot off : Nat}, Evolves sb x s s' → Growing sb extra x s' →
      tot ≤ n →
      (tot < n → Full sb s' ∧ slot s'.blocks (s'.inodes x).dinode (fslot (off / BSIZE)) = 0) →
      (∀ o < MAX_SIZE, s'.byte x o = s.byte x o) →
      (∀ l < NSLOT, slot s.blocks (s.inodes x).dinode l = 0 →
        slot s'.blocks (s'.inodes x).dinode l ≠ 0 → Spans off (off + if tot < n then 1 else 0) l) →
      Wrote sb extra x buf n tot off s (tot, off) s' :=
    fun hev hg htot hfull hbytes honly => ⟨hev, hg, Nat.le_refl _, htot, by omega,
      fun hlt => (hfull hlt).1, fun hlt => (hfull hlt).2, fun _ => .inl rfl, honly,
      fun o ho => by rw [hbytes o ho, if_neg (by omega)], fun o h1 h2 => by omega⟩
  induction fuel generalizing s tot off with
  | zero =>
    rw [INode.write_loop, runs_pure]
    exact stop (.refl s) hg htot (by omega) (fun _ _ => rfl) fun _ _ h0 hne => absurd h0 hne
  | succ fuel ih =>
    rw [INode.write_loop]
    split
    · next hlt =>
      have hblk : off / BSIZE < MAX_FILE := div_lt_max (by omega)
      refine (block_map_runs hl hg hblk).bind fun b s1 h1 => ?_
      rcases h1.result with ⟨rfl, hfull⟩ | ⟨hb, hslot⟩
      · rw [if_pos rfl, runs_pure]
        refine stop h1.evolves h1.growing htot (fun _ => ⟨hfull, h1.unmapped rfl⟩) h1.bytes
          fun l hl h0 hne => ?_
        exact ⟨off, by rw [if_pos hlt]; omega, Nat.le_refl _, h1.only l hl h0 hne⟩
      · rw [if_neg hb]
        dsimp only
        generalize hm : min (n - tot) (BSIZE - off % BSIZE) = m
        have hblock : m ≤ BSIZE - off % BSIZE := hm ▸ Nat.min_le_right _ _
        have hle : m ≤ n - tot := hm ▸ Nat.min_le_left _ _
        have hpos : 0 < m := by
          have := Nat.mod_lt off (by decide : 0 < BSIZE)
          omega
        rw [← hslot] at hb ⊢
        rw [← Program.runs_bind_assoc]
        refine (store_block_runs hl h1.growing hblk hb _).bind ?_
        rintro _ s2 ⟨hev, hg2, hsl, hby⟩
        refine (ih hg2 (by omega) (by omega) (by omega)).imp fun r s3 h3 => ?_
        have hle3 := h3.le
        have hoff3 := h3.off_eq
        have hfits : off % BSIZE + m ≤ BSIZE := by
          have := Nat.mod_lt off (by decide : 0 < BSIZE)
          omega
        exact {
          evolves := (h1.evolves.trans hev).trans h3.evolves
          growing := h3.growing
          le := by omega
          tot_le := h3.tot_le
          off_eq := by omega
          full := h3.full
          unmapped := h3.unmapped
          only := fun l hl h0 hne => by
            by_cases h1l : slot s1.blocks (s1.inodes x).dinode l = 0
            · rw [← hsl l hl] at h1l
              exact (h3.only l hl h1l hne).mono (by omega) (Nat.le_refl _)
            · exact ⟨off, by omega, Nat.le_refl _, h1.only l hl h0 h1l⟩
          edge := fun hlt => by
            rcases h3.edge hlt with h0 | h0
            · simp only [BSIZE] at *
              omega
            · exact .inr h0
          bytes := fun o ho => by
            rw [h3.bytes o ho]
            by_cases h : off + m ≤ o ∧ o < r.2
            · rw [if_pos h, if_pos (by omega)]
              congr 1
              omega
            · rw [if_neg h, hby o ho]
              by_cases hin : off ≤ o ∧ o < off + m
              · obtain ⟨hdiv, hmod⟩ := same_block _ _ hin.1 hin.2 hblock
                rw [if_pos hdiv, if_pos (by omega), hmod,
                  Bytes.Buffer.get_put_of_mem _ _ hfits (by omega)]
              · rw [if_neg (by omega : ¬(off ≤ o ∧ o < r.2)), ← h1.bytes o ho]
                split
                · next hdiv =>
                  rw [Bytes.Buffer.get_put_of_not_mem _ _ (by
                    simp only [BSIZE] at *
                    omega), Fs.byte, fbyte, hdiv, if_neg hb]
                · rfl
          mapped := fun o h1' h2' => by
            by_cases h : off + m ≤ o
            · exact h3.mapped o h h2'
            · obtain ⟨hdiv, -⟩ := same_block _ _ h1' (by omega) hblock
              rw [hdiv]
              have hsl2 := hsl _ (fslot_lt hblk)
              rw [← hsl2] at hb
              rw [h3.evolves.kept _ (fslot_lt hblk) hb]
              exact hb }
    · next hge =>
      rw [runs_pure]
      exact stop (.refl s) hg htot (by omega) (fun _ _ => rfl) fun _ _ h0 hne => absurd h0 hne

/-- What `write` does when it gets as far as the loop: `tot` bytes are written. -/
structure Written (sb : SuperBlock) (extra : Nat → Prop) (x : Nat) (buf : Bytes.Source)
    (n off : Nat) (s : Fs) (tot : Nat) (s' : Fs) : Prop extends Apart sb x s s' where
  cache : s'.inodes x = { s.inodes x with dinode := (s'.inodes x).dinode }
  le : tot ≤ n
  full : tot < n → Full sb s'
  unmapped : tot < n → slot s'.blocks (s'.inodes x).dinode (fslot ((off + tot) / BSIZE)) = 0
  only : ∀ l < NSLOT, slot s.blocks (s.inodes x).dinode l = 0 →
    slot s'.blocks (s'.inodes x).dinode l ≠ 0 →
      Spans off (off + tot + if tot < n then 1 else 0) l
  edge : tot < n → tot = 0 ∨ (off + tot) % BSIZE = 0
  type_eq : (s'.inodes x).dinode.type = (s.inodes x).dinode.type
  nlink_eq : (s'.inodes x).dinode.nlink = (s.inodes x).dinode.nlink
  size_eq : (s'.inodes x).dinode.size.toNat = max (s.inodes x).dinode.size.toNat (off + tot)
  bytes : ∀ o < MAX_SIZE, s'.byte x o =
    if off ≤ o ∧ o < off + tot then buf (o - off) else s.byte x o
  kept : ∀ k < NSLOT, slot s.blocks (s.inodes x).dinode k ≠ 0 →
    slot s'.blocks (s'.inodes x).dinode k = slot s.blocks (s.inodes x).dinode k
  mapped : ∀ o, off ≤ o → o < off + tot →
    slot s'.blocks (s'.inodes x).dinode (fslot (o / BSIZE)) ≠ 0
  synced : s'.dinode sb x = (s'.inodes x).dinode
  owned : Owned sb (s'.dinode sb) s'.blocks extra

/-- The inode with the size that `write` gives it when it has come to `off`. -/
def DiskINode.grow (dip : DiskINode) (off : Nat) : DiskINode :=
  if off > dip.size.toNat then { dip with size := UInt32.ofNat off } else dip

theorem DiskINode.grow_size {off : Nat} (hoff : off ≤ MAX_SIZE) :
    (dip.grow off).size.toNat = max dip.size.toNat off := by
  unfold grow
  split
  · next h =>
    have : off < 2 ^ 32 := Nat.lt_of_le_of_lt hoff (by decide)
    simp only [UInt32.toNat_ofNat_of_lt' this]
    omega
  · next h => omega

theorem DiskINode.grow_keeps (dip : DiskINode) (off : Nat) :
    (dip.grow off).type = dip.type ∧ (dip.grow off).nlink = dip.nlink ∧
      (dip.grow off).addrs = dip.addrs := by
  unfold grow
  split <;> exact ⟨rfl, rfl, rfl⟩

theorem write_runs (hl : Layout sb) (hg : Growing sb extra x s) {off n : Nat}
    (hoff : off ≤ (s.inodes x).dinode.size.toNat) (hmax : off + n ≤ MAX_SIZE) :
    Runs (INode.write sb x buf off n) s (Written sb extra x buf n off s) TooBig := by
  have hx := hg.alloc.1
  have hg0 : Growing sb extra x { s with trace := .access x :: s.trace } :=
    ⟨hg.alloc, hg.owned, hg.outstanding⟩
  have ha0 : Apart sb x s { s with trace := .access x :: s.trace } :=
    ⟨rfl, rfl, fun _ _ => rfl, fun _ _ _ => rfl, fun _ _ _ _ _ _ => rfl⟩
  simp only [INode.write, record]
  rw [runs_bind, runs_modify, runs_bind, runs_get,
    if_neg (not_or.mpr ⟨Nat.not_lt.mpr hoff, Nat.not_lt.mpr (Nat.le_add_right _ _)⟩),
    if_neg (Nat.not_lt.mpr hmax)]
  refine (write_loop_runs hl hg0 (by omega) (Nat.zero_le _) (by omega)).bind fun r s1 h1 => ?_
  rw [← Program.runs_bind_assoc]
  refine (modify_update_runs (fun dip => dip.grow r.2) h1.growing.outstanding).bind
    fun _ s2 h2 => ?_
  obtain ⟨htype, hnlink, haddrs⟩ := (s1.inodes x).dinode.grow_keeps r.2
  have hslot := h2.slot_eq hl hx h1.growing.owned h1.growing.alloc haddrs
  have hoff1 := h1.off_eq
  have hlet := h1.tot_le
  rw [Nat.sub_zero] at hoff1
  have hsync : s2.dinode sb x = (s2.inodes x).dinode := by rw [h2.disk_self, h2.mem]
  obtain ⟨addrs, hmem⟩ := h1.evolves.mem
  rw [runs_pure]
  exact {
    toApart := (ha0.trans h1.evolves.toApart).trans (h2.apart hl hx h1.growing.owned)
    cache := by rw [h2.cache, h1.evolves.cache]
    le := hlet
    unmapped := fun hlt => by
      have := h1.unmapped hlt
      rw [hslot]
      rwa [hoff1] at this
    only := fun l hl h0 hne => by
      rw [hslot] at hne
      have := h1.only l hl h0 hne
      rwa [hoff1] at this
    edge := fun hlt => by
      have := h1.edge hlt
      rwa [hoff1] at this
    full := fun hlt c hc => by rw [h2.bit hl hx]; exact h1.full hlt c hc
    type_eq := by rw [h2.mem, htype, hmem]
    nlink_eq := by rw [h2.mem, hnlink, hmem]
    size_eq := by rw [h2.mem, DiskINode.grow_size (by omega), hmem, hoff1]
    bytes := fun o ho => by
      have hb := h1.bytes o ho
      rw [Nat.zero_add, hoff1] at hb
      refine Eq.trans ?_ hb
      rw [Fs.byte, Fs.byte, fbyte, fbyte, hslot]
      split
      · rfl
      · next hne =>
        rw [h2.data hl hx (h1.growing.owned.data _ _
          (h1.growing.holds (fslot_lt (div_lt_max ho)) hne))]
    kept := fun k hk hne => (hslot k).trans (h1.evolves.kept k hk hne)
    mapped := fun o ho1 ho2 => by rw [hslot]; exact h1.mapped o ho1 (by omega)
    synced := hsync
    owned := by
      rw [← Fs.view_synced hsync]
      exact h2.owned hl hx h1.growing.owned htype haddrs }

/-- `write` that is out of range changes nothing. -/
theorem write_out_of_range {E : Fault → Prop} {off n : Nat}
    (h : off > (s.inodes x).dinode.size.toNat ∨ off + n > MAX_SIZE) :
    Runs (INode.write sb x buf off n) s
      (fun tot s' => tot = UINT32_ERR ∧ s' = { s with trace := .access x :: s.trace }) E := by
  simp only [INode.write, record, runs_bind, runs_modify, runs_get]
  split
  · exact ⟨rfl, rfl⟩
  · next hno =>
    rw [if_pos (h.resolve_left fun hgt => hno (.inl hgt))]
    exact ⟨rfl, rfl⟩

end Xv6fs
