import Xv6fs.Fs.Layout

/-! What the operations on single blocks do: `log_write`, `block_alloc`, `block_free` and
`INode::update` inside a transaction.  The only fault of a run is that the transaction gets too
big. -/

namespace Xv6fs

open Program (Runs runs_bind runs_pure runs_get runs_modify runs_assert runs_throw)

/-- The fault of a transaction that does not fit in the log. -/
def TooBig (e : Fault) : Prop := e = .log_write_too_big

/-- The inode cache, the file table and the transaction count are as they were. -/
structure SameMem (s s' : Fs) : Prop where
  inodes : s'.inodes = s.inodes
  files : s'.files = s.files
  outstanding : s'.outstanding = s.outstanding

theorem SameMem.refl (s : Fs) : SameMem s s := ⟨rfl, rfl, rfl⟩

theorem SameMem.trans {s1 s2 s3 : Fs} (h1 : SameMem s1 s2) (h2 : SameMem s2 s3) : SameMem s1 s3 :=
  ⟨h2.inodes.trans h1.inodes, h2.files.trans h1.files, h2.outstanding.trans h1.outstanding⟩

variable {sb : SuperBlock} {s : Fs} {b : Nat}

theorem record_runs (e : Event) :
    Runs (record e) s (fun _ s' => SameMem s s' ∧ s'.blocks = s.blocks) TooBig :=
  ⟨⟨rfl, rfl, rfl⟩, rfl⟩

theorem log_write_runs (sb : SuperBlock) (b : Nat) (ho : s.outstanding ≥ 1) :
    Runs (Fs.log_write sb b) s (fun _ s' => SameMem s s' ∧ s'.blocks = s.blocks) TooBig := by
  simp only [Fs.log_write, record, runs_bind, runs_get, runs_assert, runs_modify]
  exact ⟨fun _ => ⟨fun _ => ⟨⟨rfl, rfl, rfl⟩, trivial⟩, fun h => absurd ho h⟩, fun _ => rfl⟩

/-- A modification of a block and its `log_write`. -/
theorem modify_log_write_runs (f : BlockData → BlockData) (ho : s.outstanding ≥ 1) :
    Runs (do modify_block b f; Fs.log_write sb b) s
      (fun _ s' => SameMem s s' ∧ s'.blocks = setAt s.blocks b (f (s.blocks b))) TooBig := by
  simp only [modify_block, runs_bind, runs_modify]
  refine (log_write_runs sb b ?_).imp fun _ s' h => ?_
  · exact ho
  · exact ⟨⟨h.1.inodes, h.1.files, h.1.outstanding⟩, h.2⟩

theorem block_zeroed_runs (ho : s.outstanding ≥ 1) :
    Runs (block_zeroed sb b) s
      (fun _ s' => SameMem s s' ∧ s'.blocks = setAt s.blocks b (Bytes.Buffer.zero BSIZE)) TooBig :=
  modify_log_write_runs _ ho

/-! ### Allocation -/

section first_clear

variable {d : BlockData} {limit fuel bi c : Nat}

theorem first_clear_some (h : first_clear d limit fuel bi = some c) :
    bi ≤ c ∧ c < limit ∧ c < bi + fuel ∧ bit_set d c = false := by
  induction fuel generalizing bi with
  | zero => cases h
  | succ fuel ih =>
    rw [first_clear] at h
    split at h
    · next hlt =>
      split at h
      · obtain ⟨h1, h2, h3, h4⟩ := ih h
        exact ⟨by omega, h2, by omega, h4⟩
      · next hbit =>
        cases h
        exact ⟨Nat.le_refl _, hlt, by omega, by simpa using hbit⟩
    · cases h

theorem first_clear_none (h : first_clear d limit fuel bi = none) (hc : bi ≤ c) (hlt : c < limit)
    (hfuel : c < bi + fuel) : bit_set d c = true := by
  induction fuel generalizing bi with
  | zero => omega
  | succ fuel ih =>
    rw [first_clear] at h
    split at h
    · split at h
      · next hbit =>
        by_cases hcb : c = bi
        · rw [hcb]; exact hbit
        · exact ih h (by omega) (by omega)
      · cases h
    · next hle => omega

end first_clear

/-- What `block_alloc` does: it takes a free block, marks it and zeroes it, or returns `0` when
every block is in use. -/
structure Allocates (sb : SuperBlock) (s : Fs) (b : Nat) (s' : Fs) : Prop where
  mem : SameMem s s'
  blocks : (b = 0 ∧ s'.blocks = s.blocks ∧ ∀ c < sb.size, bitAt sb s.blocks c = true) ∨
    (b < sb.size ∧ bitAt sb s.blocks b = false ∧
      s'.blocks = setAt (markAt sb s.blocks b) b (Bytes.Buffer.zero BSIZE))

theorem bitAt_base (sb : SuperBlock) (blocks : Nat → BlockData) {base bi : Nat} (hb : base % BIT_PER_BLOCK = 0)
    (hbi : bi < BIT_PER_BLOCK) :
    BIT_BLOCK sb (base + bi) = BIT_BLOCK sb base ∧ (base + bi) % BIT_PER_BLOCK = bi ∧
      bitAt sb blocks (base + bi) = bit_set (blocks (BIT_BLOCK sb base)) bi := by
  have hblock : BIT_BLOCK sb (base + bi) = BIT_BLOCK sb base := by
    simp only [BIT_BLOCK, BIT_PER_BLOCK, BSIZE] at *
    omega
  have hmod : (base + bi) % BIT_PER_BLOCK = bi := by
    simp only [BIT_PER_BLOCK, BSIZE] at *
    omega
  exact ⟨hblock, hmod, by rw [bitAt, hblock, hmod]⟩

theorem block_alloc_from_runs (ho : s.outstanding ≥ 1) (fuel : Nat) {base : Nat}
    (hbase : base % BIT_PER_BLOCK = 0) (hset : ∀ c < base, c < sb.size → bitAt sb s.blocks c = true)
    (hfuel : sb.size ≤ base + fuel * BIT_PER_BLOCK) :
    Runs (block_alloc_from sb fuel base) s (Allocates sb s) TooBig := by
  induction fuel generalizing base with
  | zero =>
    rw [block_alloc_from, runs_pure]
    exact ⟨.refl s, .inl ⟨rfl, rfl, fun c hc => hset c (by omega) hc⟩⟩
  | succ fuel ih =>
    rw [block_alloc_from]
    split
    · next hlt =>
      rw [runs_bind, runs_get]
      split
      · next bi hbi =>
        obtain ⟨-, hlim, hper, hclear⟩ := first_clear_some hbi
        rw [Nat.zero_add] at hper
        obtain ⟨hblock, hmod, hbit⟩ := bitAt_base sb s.blocks hbase hper
        rw [← Program.runs_bind_assoc]
        refine (modify_log_write_runs _ ho).bind fun _ s1 h1 => ?_
        refine (block_zeroed_runs (h1.1.outstanding ▸ ho)).bind fun _ s2 h2 => ?_
        rw [runs_pure]
        refine ⟨h1.1.trans h2.1, .inr ⟨by omega, hbit.trans hclear, ?_⟩⟩
        rw [h2.2, h1.2, markAt, hblock, hmod]
      · next hnone =>
        refine ih ?_ (fun c hc hsize => ?_) ?_
        · rw [Nat.add_mod_right]; exact hbase
        · by_cases hcb : c < base
          · exact hset c hcb hsize
          · obtain ⟨bi, rfl⟩ := Nat.exists_eq_add_of_le (Nat.le_of_not_lt hcb)
            rw [(bitAt_base sb _ hbase (by omega)).2.2]
            exact first_clear_none hnone (Nat.zero_le _) (by omega) (by omega)
        · rw [Nat.succ_mul] at hfuel
          omega
    · next hge =>
      rw [runs_pure]
      exact ⟨.refl s, .inl ⟨rfl, rfl, fun c hc => hset c (by omega) hc⟩⟩

theorem block_alloc_runs (ho : s.outstanding ≥ 1) :
    Runs (block_alloc sb) s (Allocates sb s) TooBig := by
  refine block_alloc_from_runs ho sb.size (by decide) (fun c hc => absurd hc (Nat.not_lt_zero c)) ?_
  rw [Nat.zero_add]
  exact Nat.le_mul_of_pos_right _ (by decide)

/-- `block_free` of a block that is in use clears its bit. -/
theorem block_free_runs (ho : s.outstanding ≥ 1) (hb : bitAt sb s.blocks b = true) :
    Runs (block_free sb b) s (fun _ s' => SameMem s s' ∧ s'.blocks = freeAt sb s.blocks b)
      TooBig := by
  simp only [block_free]
  rw [runs_bind, runs_get, runs_bind, runs_assert]
  exact ⟨fun _ => modify_log_write_runs _ ho, fun h => absurd hb h⟩

/-! ### Inodes -/

/-- `update` stores the copy in memory. -/
theorem update_runs (sb : SuperBlock) {x : Nat} (ho : s.outstanding ≥ 1) :
    Runs (INode.update sb x) s (fun _ s' => SameMem s s' ∧
      s'.blocks = storeAt sb s.blocks x (s.inodes x).dinode) TooBig := by
  simp only [INode.update, store_dinode]
  refine (record_runs (.access x)).bind fun _ s1 h1 => ?_
  rw [runs_bind, runs_get]
  refine (modify_log_write_runs _ (h1.1.outstanding ▸ ho)).imp fun _ s2 h2 => ?_
  refine ⟨h1.1.trans h2.1, ?_⟩
  rw [h2.2, h1.2, h1.1.inodes]
  rfl

end Xv6fs
