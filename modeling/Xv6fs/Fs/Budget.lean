import Xv6fs.Fs.Lookup
import Xv6fs.Fs.Ops
import Xv6fs.Fs.Room

/-! The blocks that a transaction passes to `log_write`, counted over the events of a run. -/

namespace Xv6fs

open Program (Runs runs_bind runs_pure runs_get runs_modify runs_assert runs_throw runs_ite)

/-- The blocks passed to `log_write` since the last `begin_op`.  The last event comes first. -/
def logged : List Event → Finset Nat
  | [] => ∅
  | .begin_op :: _ => ∅
  | .log_write b :: rest => insert b (logged rest)
  | .end_op :: rest | .lock _ :: rest | .unlock _ :: rest | .access _ :: rest => logged rest

/-- No transaction has passed more than `MAX_OP_BLOCKS` blocks to `log_write`. -/
def FitsBudget : List Event → Prop
  | [] => True
  | e :: rest => (logged (e :: rest)).card ≤ MAX_OP_BLOCKS ∧ FitsBudget rest

theorem FitsBudget.card_le {events : List Event} (h : FitsBudget events) :
    (logged events).card ≤ MAX_OP_BLOCKS := by
  cases events with
  | nil => exact Nat.zero_le _
  | cons e rest => exact h.1

/-- Between `s` and `s'` no transaction begins, and what is logged are blocks of `K` and at most `n`
others. -/
def Adds (K : Finset Nat) (n : Nat) (s s' : Fs) : Prop :=
  ∃ (events : List Event) (others : Finset Nat), s'.trace = events ++ s.trace ∧
    .begin_op ∉ events ∧ others.card ≤ n ∧ ∀ b, .log_write b ∈ events → b ∈ K ∪ others

namespace Adds

variable {K K' : Finset Nat} {n n' b : Nat} {s s1 s2 s' : Fs}

theorem of_trace (h : s'.trace = s.trace) : Adds K n s s' :=
  ⟨[], ∅, h, by simp, by simp, by simp⟩

theorem refl (s : Fs) : Adds K n s s := of_trace rfl

theorem event {e : Event} (h : s'.trace = e :: s.trace) (hbegin : e ≠ .begin_op)
    (hlog : ∀ b, e = .log_write b → b ∈ K) : Adds K n s s' :=
  ⟨[e], ∅, h, by simpa using hbegin.symm, by simp, fun b hb =>
    Finset.mem_union_left _ (hlog b (List.mem_singleton.mp hb).symm)⟩

theorem trans (h1 : Adds K n s s1) (h2 : Adds K n' s1 s2) : Adds K (n + n') s s2 := by
  obtain ⟨events, others, ht, hb, hn, hk⟩ := h1
  obtain ⟨events', others', ht', hb', hn', hk'⟩ := h2
  refine ⟨events' ++ events, others ∪ others', by rw [ht', ht, List.append_assoc], ?_, ?_, ?_⟩
  · simp [hb, hb']
  · have := Finset.card_union_le others others'
    omega
  · intro b hin
    rcases List.mem_append.mp hin with hin | hin
    · have := hk' b hin
      simp only [Finset.mem_union] at this ⊢
      tauto
    · have := hk b hin
      simp only [Finset.mem_union] at this ⊢
      tauto

theorem mono (h : Adds K n s s') (hK : K ⊆ K') (hn : n ≤ n') : Adds K' n' s s' := by
  obtain ⟨events, others, ht, hb, hcard, hk⟩ := h
  exact ⟨events, others, ht, hb, hcard.trans hn, fun b hin =>
    Finset.union_subset_union_left hK (hk b hin)⟩

/-- A block of `K` may be counted among the others. -/
theorem absorb (h : Adds (insert b K) n s s') : Adds K (n + 1) s s' := by
  obtain ⟨events, others, ht, hb, hcard, hk⟩ := h
  refine ⟨events, insert b others, ht, hb, ?_, fun c hin => ?_⟩
  · have := Finset.card_insert_le b others
    omega
  · have := hk c hin
    simp only [Finset.mem_union, Finset.mem_insert] at this ⊢
    tauto

/-- Nothing more is added where nothing is. -/
theorem then_same (h : Adds K n s s1) (h' : Adds K 0 s1 s2) : Adds K n s s2 := h.trans h'

end Adds

theorem logged_append {events rest : List Event} (h : .begin_op ∉ events) (b : Nat) :
    b ∈ logged (events ++ rest) ↔ .log_write b ∈ events ∨ b ∈ logged rest := by
  induction events with
  | nil => simp
  | cons e events ih =>
    have ih := ih fun hin => h (List.mem_cons_of_mem _ hin)
    cases e with
    | begin_op => exact absurd List.mem_cons_self h
    | log_write c =>
      simp only [List.cons_append, logged, Finset.mem_insert, ih, List.mem_cons,
        Event.log_write.injEq]
      tauto
    | _ => simpa only [List.cons_append, logged, List.mem_cons, reduceCtorEq, false_or] using ih

/-- A transaction within its budget. -/
theorem Adds.fits {K : Finset Nat} {n : Nat} {s s' : Fs} (h : Adds K n s s')
    (hempty : logged s.trace = ∅) (hfits : FitsBudget s.trace) (hn : K.card + n ≤ MAX_OP_BLOCKS) :
    FitsBudget s'.trace := by
  obtain ⟨events, others, ht, hb, hcard, hk⟩ := h
  rw [ht]
  clear ht
  induction events with
  | nil => exact hfits
  | cons e events ih =>
    have hb' : .begin_op ∉ events := fun hin => hb (List.mem_cons_of_mem _ hin)
    refine ⟨?_, ih hb' fun b hin => hk b (List.mem_cons_of_mem _ hin)⟩
    have hsub : logged (e :: events ++ s.trace) ⊆ K ∪ others := by
      intro b hin
      rcases (logged_append hb b).mp hin with hin | hin
      · exact hk b hin
      · rw [hempty] at hin
        cases hin
    have := Finset.card_le_card hsub
    have := Finset.card_union_le K others
    exact (by omega : (logged (e :: events ++ s.trace)).card ≤ MAX_OP_BLOCKS)

/-! ### Programs -/

/-- Whatever the state is, a run of `m` logs blocks of `K` and at most `n` others. -/
def Costs {α : Type} (m : Prog α) (K : Finset Nat) (n : Nat) : Prop :=
  ∀ s, Runs m s (fun _ s' => Adds K n s s') fun _ => True

namespace Costs

variable {α β : Type} {m : Prog α} {f : α → Prog β} {K K' : Finset Nat} {n n' : Nat}

theorem mono (h : Costs m K n) (hK : K ⊆ K') (hn : n ≤ n') : Costs m K' n' :=
  fun s => (h s).imp fun _ _ hs => hs.mono hK hn

theorem pure {a : α} : Costs (Pure.pure a : Prog α) K n := fun s => Adds.refl s

theorem bind (h : Costs m K n) (hf : ∀ a, Costs (f a) K n') : Costs (m >>= f) K (n + n') :=
  fun s => (h s).bind fun a s1 h1 => (hf a s1).imp fun _ _ h2 => h1.trans h2

/-- A program that logs nothing but blocks of `K` goes first. -/
theorem bind_free (h : Costs m K 0) (hf : ∀ a, Costs (f a) K n) : Costs (m >>= f) K n :=
  (h.bind hf).mono (Finset.Subset.refl K) (by omega)

/-- A program that logs nothing but blocks of `K` goes last. -/
theorem bind_rest (h : Costs m K n) (hf : ∀ a, Costs (f a) K 0) : Costs (m >>= f) K n :=
  h.bind hf

theorem get_bind {f : Fs → Prog β} (hf : ∀ s, Costs (f s) K n) : Costs (get >>= f) K n :=
  fun s => runs_bind.mpr (hf s s)

theorem modify {g : Fs → Fs} (hg : ∀ s, (g s).trace = s.trace) :
    Costs (modifyThe Fs g : Prog PUnit) K n := fun s => Adds.of_trace (hg s)

theorem assert {p : Prop} [Decidable p] {e : Fault} :
    Costs (Program.assert p e : Prog PUnit) K n :=
  fun s => runs_assert.mpr ⟨fun _ => Adds.refl s, fun _ => trivial⟩

theorem ite {p : Prop} [Decidable p] {m' : Prog α} (h : p → Costs m K n) (h' : ¬p → Costs m' K n) :
    Costs (if p then m else m') K n := by
  split
  · exact h ‹_›
  · exact h' ‹_›

theorem record {e : Event} (hbegin : e ≠ .begin_op) (hlog : ∀ b, e = .log_write b → b ∈ K) :
    Costs (record e) K n := fun _ => Adds.event rfl hbegin hlog

theorem modify_block (b : Nat) (f : BlockData → BlockData) : Costs (modify_block b f) K n :=
  .modify fun _ => rfl

theorem modify_inode (x : Nat) (f : INode → INode) : Costs (modify_inode x f) K n :=
  .modify fun _ => rfl

variable {sb : SuperBlock} {b x k : Nat}

theorem log_write (hb : b ∈ K) : Costs (Fs.log_write sb b) K n := by
  refine .get_bind fun s => ?_
  have hrecord : Costs (Xv6fs.record (.log_write b)) K 0 :=
    .record (by simp) fun c hc => by cases hc; exact hb
  exact (assert (n := 0)).bind_free fun _ => (assert (n := 0)).bind_free fun _ =>
    hrecord.bind_free fun _ => .modify fun _ => rfl

theorem modify_log_write (f : BlockData → BlockData) (hb : b ∈ K) :
    Costs (do Xv6fs.modify_block b f; Fs.log_write sb b) K n :=
  (modify_block (n := 0) b f).bind_free fun _ => log_write hb

theorem update (hx : INODE_BLOCK sb x ∈ K) : Costs (INode.update sb x) K n :=
  (record (n := 0) (by simp) (by simp)).bind_free fun _ => .get_bind fun _ =>
    modify_log_write _ hx

end Costs

/-! ### Blocks -/

variable {sb : SuperBlock} {s s' : Fs} {b x k : Nat} {K : Finset Nat} {n : Nat}

/-- On an image with one bitmap block. -/
theorem bit_block_eq (hone : sb.size ≤ BIT_PER_BLOCK) (hb : b < sb.size) :
    BIT_BLOCK sb b = sb.bmapstart := by
  rw [BIT_BLOCK, Nat.div_eq_of_lt (by omega), Nat.zero_add]

theorem block_alloc_adds (hone : sb.size ≤ BIT_PER_BLOCK) :
    Runs (block_alloc sb) s (fun b s' => Adds {sb.bmapstart, b} 0 s s') fun _ => True := by
  have hloop : ∀ fuel c, Runs (block_alloc_from sb fuel c) s
      (fun b s' => Adds {sb.bmapstart, b} 0 s s') fun _ => True := by
    intro fuel
    induction fuel with
    | zero => exact fun _ => Adds.refl s
    | succ fuel ih =>
      intro c
      rw [block_alloc_from]
      refine runs_ite.mpr ⟨fun hc => runs_bind.mpr ?_, fun _ => Adds.refl s⟩
      rw [runs_get]
      split
      · next bi hbi =>
        rw [bit_block_eq hone hc]
        refine (Costs.modify_block (K := {sb.bmapstart, c + bi}) (n := 0) _ _ s).bind
          fun _ s1 h1 => ?_
        refine (Costs.log_write (K := {sb.bmapstart, c + bi}) (n := 0) (by simp) s1).bind
          fun _ s2 h2 => ?_
        refine Runs.bind (Costs.modify_log_write (K := {sb.bmapstart, c + bi}) (n := 0) _ (by simp)
          s2) fun _ s3 h3 => ?_
        exact (h1.then_same h2).then_same h3
      · exact ih _
  exact hloop _ _

theorem block_map_addr_adds (hone : sb.size ≤ BIT_PER_BLOCK) :
    Runs (block_map_addr sb x k) s (fun b s' => Adds {sb.bmapstart, b} 0 s s') fun _ => True := by
  rw [block_map_addr, runs_bind, runs_get]
  refine runs_ite.mpr ⟨fun _ => (block_alloc_adds hone).bind fun b s1 h1 => ?_, fun _ => Adds.refl s⟩
  refine runs_ite.mpr ⟨fun h0 => ?_, fun _ => h1.then_same (Adds.of_trace rfl)⟩
  subst h0
  exact h1

theorem block_map_indirect_adds (hone : sb.size ≤ BIT_PER_BLOCK) (ind j : Nat) :
    Runs (block_map_indirect sb ind j) s (fun b s' => Adds {ind, sb.bmapstart, b} 0 s s')
      fun _ => True := by
  rw [block_map_indirect, runs_bind, runs_get]
  refine runs_ite.mpr ⟨fun _ => (block_alloc_adds hone).bind fun b s1 h1 => ?_, fun _ => Adds.refl s⟩
  have h1 : Adds {ind, sb.bmapstart, b} 0 s s1 := h1.mono (Finset.subset_insert _ _) (Nat.le_refl 0)
  refine runs_ite.mpr ⟨fun _ => ?_, fun _ => h1⟩
  rw [← Program.runs_bind_assoc]
  refine Runs.bind (Costs.modify_log_write (K := {ind, sb.bmapstart, b}) (n := 0) _ (by simp) s1)
    fun _ s2 h2 => ?_
  exact h1.then_same h2

/-- `block_map` logs the bitmap, its result, and at most one block more: the indirect block. -/
theorem block_map_adds (hone : sb.size ≤ BIT_PER_BLOCK) :
    Runs (block_map sb x k) s (fun b s' => Adds {sb.bmapstart, b} 1 s s') fun _ => True := by
  rw [block_map]
  refine runs_ite.mpr ⟨fun _ => (block_map_addr_adds hone).imp fun _ _ h =>
    h.mono (Finset.Subset.refl _) (by omega), fun _ => runs_ite.mpr ⟨fun _ => ?_, fun _ => trivial⟩⟩
  refine (block_map_addr_adds hone).bind fun ind s1 h1 => ?_
  refine runs_ite.mpr ⟨fun h0 => ?_, fun _ => ?_⟩
  · rw [h0] at h1
    exact h1.mono (Finset.Subset.refl _) (by omega)
  · refine (block_map_indirect_adds hone ind _).imp fun b s2 h2 => Adds.absorb (b := ind) ?_
    exact (h1.mono (by grind) (Nat.le_refl 0)).then_same h2

theorem write_loop_costs (hone : sb.size ≤ BIT_PER_BLOCK) (x : Nat) (buf : Bytes.Source)
    (n fuel tot off : Nat) : Costs (INode.write_loop sb x buf n fuel tot off) {sb.bmapstart}
      (2 * touched off (n - tot)) := by
  induction fuel generalizing tot off with
  | zero => exact .pure
  | succ fuel ih =>
    rw [INode.write_loop]
    refine .ite (fun hlt => fun s => ?_) fun _ => .pure
    have hstep := touched_step off (n := n - tot) (by omega) rfl
    rw [Nat.sub_sub] at hstep
    refine (block_map_adds hone).bind fun b s1 h1 => ?_
    refine runs_ite.mpr ⟨fun h0 => ?_, fun _ => ?_⟩
    · rw [h0, Finset.pair_comm] at h1
      exact h1.absorb.mono (Finset.Subset.refl _) (by omega)
    · dsimp only
      rw [← Program.runs_bind_assoc]
      refine Runs.bind (Costs.modify_log_write (K := {sb.bmapstart, b}) (n := 0) _ (by simp) s1)
        fun _ s2 h2 => ?_
      have h12 := h1.then_same h2
      rw [Finset.pair_comm] at h12
      exact (ih _ _ s2).imp fun _ s3 h3 =>
        (h12.absorb.trans h3).mono (Finset.Subset.refl _) (by omega)

/-- `write` logs the bitmap, the inode, and two blocks for each block that it touches. -/
theorem write_costs (hone : sb.size ≤ BIT_PER_BLOCK) (x : Nat) (buf : Bytes.Source) (off n : Nat) :
    Costs (INode.write sb x buf off n) {sb.bmapstart, INODE_BLOCK sb x} (2 * touched off n) := by
  refine (Costs.record (by simp) (by simp)).bind_free fun _ => .get_bind fun s =>
    .ite (fun _ => .pure) fun _ => .ite (fun _ => .pure) fun _ => ?_
  refine ((write_loop_costs hone x buf n n 0 off).mono (by simp) (Nat.le_refl _)).bind_rest
    fun r => ?_
  refine (Costs.modify_inode x _).bind_free fun _ => ?_
  exact (Costs.update (by simp)).bind_free fun _ => .pure

/-- An entry of a directory lies in one block. -/
theorem touched_entry (i : Nat) : touched (i * DIRENT_SIZE) DIRENT_SIZE = 1 := by
  rw [touched, if_neg (by decide)]
  simp only [DIRENT_SIZE, BSIZE]
  omega

/-! ### Freeing -/

/-- The blocks of inode `x` are in the first block of the bitmap. -/
structure Low (sb : SuperBlock) (s : Fs) (x : Nat) : Prop where
  addr : ∀ k < NDIRECT + 1, ((s.inodes x).dinode.addr k).toNat < BIT_PER_BLOCK
  ind : ((s.inodes x).dinode.addr NDIRECT).toNat ≠ 0 →
    ((s.inodes x).dinode.addr NDIRECT).toNat ≠ sb.bmapstart ∧ ∀ j < NINDIRECT,
      ((s.blocks ((s.inodes x).dinode.addr NDIRECT).toNat).get32 (4 * j)).toNat < BIT_PER_BLOCK

/-- `block_free` changes the bitmap only, and logs it. -/
theorem block_free_adds (hb : b < BIT_PER_BLOCK) :
    Runs (block_free sb b) s (fun _ s' => Adds {sb.bmapstart} 0 s s' ∧ s'.inodes = s.inodes ∧
      ∀ p, p ≠ sb.bmapstart → s'.blocks p = s.blocks p) fun _ => True := by
  have hbit : BIT_BLOCK sb b = sb.bmapstart := by
    rw [BIT_BLOCK, Nat.div_eq_of_lt hb, Nat.zero_add]
  simp only [block_free, hbit, modify_block, Fs.log_write, record, runs_bind, runs_get, runs_assert,
    runs_modify]
  refine ⟨fun _ => ⟨fun _ => ⟨fun _ => ⟨?_, trivial, fun p hp => setAt_of_ne hp⟩, fun _ => trivial⟩,
    fun _ => trivial⟩, fun _ => trivial⟩
  exact Adds.event rfl (by simp) fun c hc => by cases hc; simp

theorem trunc_direct_adds (l : List Nat) (hl : ∀ i ∈ l, i < NDIRECT) (h : Low sb s x) :
    Runs (INode.trunc_direct sb x l) s (fun _ s' => Adds {sb.bmapstart} 0 s s' ∧ Low sb s' x)
      fun _ => True := by
  induction l generalizing s with
  | nil => exact ⟨Adds.refl s, h⟩
  | cons i rest ih =>
    have hi := hl i List.mem_cons_self
    have hrest := fun j hj => hl j (List.mem_cons_of_mem _ hj)
    rw [INode.trunc_direct, runs_bind, runs_get]
    refine runs_ite.mpr ⟨fun hne => ?_, fun _ => ih hrest h⟩
    refine (block_free_adds (h.addr i (by omega))).bind ?_
    rintro _ s1 ⟨h1, hinodes, hblocks⟩
    simp only [modify_dinode, modify_inode, runs_bind, runs_modify, hinodes]
    have hlow : Low sb { s1 with inodes := setAt s.inodes x { s.inodes x with
        dinode := (s.inodes x).dinode.setAddr i 0 } } x := by
      constructor
      · intro k hk
        simp only [setAt_self]
        rw [DiskINode.addr_setAddr _ _ hk]
        split
        · decide
        · exact h.addr k hk
      · simp only [setAt_self]
        rw [DiskINode.addr_setAddr _ _ (by decide), if_neg (by omega)]
        intro h12
        obtain ⟨hne, hentries⟩ := h.ind h12
        refine ⟨hne, fun j hj => ?_⟩
        rw [hblocks _ hne]
        exact hentries j hj
    refine (ih hrest hlow).imp ?_
    rintro _ s2 ⟨h2, hlow2⟩
    refine ⟨h1.then_same ?_, hlow2⟩
    exact (Adds.of_trace (s := s1) rfl).then_same h2

theorem trunc_indirect_adds {ind : Nat} (l : List Nat) (hind : ind ≠ sb.bmapstart)
    (hl : ∀ j ∈ l, ((s.blocks ind).get32 (4 * j)).toNat < BIT_PER_BLOCK) :
    Runs (INode.trunc_indirect sb ind l) s (fun _ s' => Adds {sb.bmapstart} 0 s s' ∧
      s'.inodes = s.inodes) fun _ => True := by
  induction l generalizing s with
  | nil => exact ⟨Adds.refl s, rfl⟩
  | cons j rest ih =>
    have hrest := fun i hi => hl i (List.mem_cons_of_mem _ hi)
    rw [INode.trunc_indirect, runs_bind, runs_get]
    refine runs_ite.mpr ⟨fun _ => ?_, fun _ => ih hrest⟩
    refine (block_free_adds (hl j List.mem_cons_self)).bind ?_
    rintro _ s1 ⟨h1, hinodes, hblocks⟩
    refine (ih fun i hi => by rw [hblocks _ hind]; exact hrest i hi).imp ?_
    rintro _ s2 ⟨h2, hi2⟩
    exact ⟨h1.then_same h2, hi2.trans hinodes⟩

/-- `trunc` logs the bitmap and the inode. -/
theorem trunc_adds (h : Low sb s x) :
    Runs (INode.trunc sb x) s (fun _ s' => Adds {sb.bmapstart, INODE_BLOCK sb x} 0 s s')
      fun _ => True := by
  have hK : ({sb.bmapstart} : Finset Nat) ⊆ {sb.bmapstart, INODE_BLOCK sb x} := by simp
  have hend : Costs (do
      modify_dinode x fun dip => { dip with size := 0 }
      INode.update sb x) {sb.bmapstart, INODE_BLOCK sb x} 0 :=
    (Costs.modify_inode x _).bind_free fun _ => .update (by simp)
  rw [INode.trunc, record, runs_bind, runs_modify]
  have h0 : Adds {sb.bmapstart, INODE_BLOCK sb x} 0 s { s with trace := .access x :: s.trace } :=
    .event rfl (by simp) (by simp)
  refine (trunc_direct_adds (s := { s with trace := .access x :: s.trace }) _
    (fun i hi => by simpa [List.mem_range'] using hi) ⟨h.addr, h.ind⟩).bind ?_
  rintro _ s1 ⟨h1, hlow⟩
  have h01 := h0.then_same (h1.mono hK (Nat.le_refl 0))
  have hrest : Runs (INode.trunc_rest sb x) s1 (fun _ s2 => Adds {sb.bmapstart} 0 s1 s2)
      fun _ => True := by
    rw [INode.trunc_rest, runs_bind, runs_get]
    refine runs_ite.mpr ⟨fun hne => ?_, fun _ => Adds.refl s1⟩
    obtain ⟨hind, hentries⟩ := hlow.ind hne
    refine (trunc_indirect_adds _ hind fun j hj => hentries j ?_).bind ?_
    · simpa [List.mem_range'] using hj
    · rintro _ s2 ⟨h2, hi2⟩
      refine (block_free_adds (hlow.addr NDIRECT (by decide))).bind ?_
      rintro _ s3 ⟨h3, _, _⟩
      exact (h2.then_same h3).then_same (Adds.of_trace rfl)
  refine hrest.bind fun _ s2 h2 => (hend s2).imp fun _ s3 h3 => ?_
  exact (h01.then_same (h2.mono hK (Nat.le_refl 0))).then_same h3

/-- The blocks of an inode that has been read. -/
theorem Wf.low (hl : Layout sb) (hone : sb.size ≤ BIT_PER_BLOCK) (h : Wf sb s)
    (hv : (s.inodes x).valid = true) : Low sb s x := by
  have hal : Allocated sb (dinodeAt sb s.blocks) x := ⟨h.valid_lt hv, (h.cached x).alloc hv⟩
  have haddr : ∀ k, (s.inodes x).dinode.addr k = (dinodeAt sb s.blocks x).addr k := fun k => by
    rw [(h.cached x).synced hv]
    rfl
  have hslot : ∀ k < NSLOT, slot s.blocks (dinodeAt sb s.blocks x) k ≠ 0 →
      sb.Data (slot s.blocks (dinodeAt sb s.blocks x) k) := fun k hk hne =>
    h.tidy.owned.data (x, k) _ ⟨hal, hk, rfl, hne⟩
  have hsmall : ∀ k < NSLOT, slot s.blocks (dinodeAt sb s.blocks x) k < BIT_PER_BLOCK := by
    intro k hk
    by_cases h0 : slot s.blocks (dinodeAt sb s.blocks x) k = 0
    · rw [h0]
      decide
    · exact Nat.lt_of_lt_of_le (hslot k hk h0).2 hone
  constructor
  · intro k hk
    have := hsmall k (Nat.lt_of_lt_of_le hk (by decide))
    rwa [slot_addr hk, ← haddr] at this
  · intro hne
    rw [haddr] at hne ⊢
    have hdata := h.tidy.owned.data _ _ (holds_indirect _ hal hne)
    refine ⟨fun heq => ?_, fun j hj => ?_⟩
    · have := hl.bmap_lt
      have := hdata.1
      omega
    · have := hsmall (NDIRECT + 1 + j) (Nat.add_lt_add_left hj _)
      rwa [slot_indirect (by omega), if_neg hne, Nat.add_sub_cancel_left] at this

theorem inode_drop_costs (x : Nat) : Costs (inode_drop x) K n := .modify_inode x _

theorem inode_free_adds (h : Low sb s x) :
    Runs (inode_free sb x) s (fun _ s' => Adds {sb.bmapstart, INODE_BLOCK sb x} 0 s s')
      fun _ => True := by
  have hend : Costs (do
      modify_dinode x fun dip => { dip with type := FileType.Invalid }
      INode.update sb x
      modify_inode x fun ip => { ip with valid := false }
      mtx_unlock x) {sb.bmapstart, INODE_BLOCK sb x} 0 :=
    (Costs.modify_inode x _).bind_free fun _ => (Costs.update (by simp)).bind_free fun _ =>
      (Costs.modify_inode x _).bind_free fun _ =>
        (Costs.record (by simp) (by simp)).bind_free fun _ => .modify_inode x _
  have hlock : Runs (mtx_lock x) s (fun _ s1 => Adds {sb.bmapstart, INODE_BLOCK sb x} 0 s s1 ∧
      Low sb s1 x) fun _ => True := by
    simp only [mtx_lock, record, modify_inode, runs_bind, runs_get, runs_assert, runs_modify]
    refine ⟨fun _ => ⟨.event (e := .lock x) rfl (by simp) (by simp), ?_, ?_⟩, fun _ => trivial⟩
    · simp only [setAt_self]
      exact h.addr
    · simp only [setAt_self]
      exact h.ind
  refine hlock.bind ?_
  rintro _ s1 ⟨h1, hlow⟩
  refine (trunc_adds hlow).bind fun _ s2 h2 => ?_
  exact (hend s2).imp fun _ s3 h3 => (h1.then_same h2).then_same h3

/-- `inode_put` logs the bitmap and the inode, and nothing unless it frees the inode. -/
theorem Wf.inode_put_adds (hl : Layout sb) (hone : sb.size ≤ BIT_PER_BLOCK) (h : Wf sb s)
    (x : Nat) : Runs (Xv6fs.inode_put sb x) s
      (fun _ s' => Adds {sb.bmapstart, INODE_BLOCK sb x} 0 s s' ∧
        (¬((s.abs sb).ref x = 1 ∧ (s.abs sb).mem x = some 0) → Adds ∅ 0 s s')) fun _ => True := by
  rw [Xv6fs.inode_put, runs_bind, runs_get]
  refine runs_ite.mpr ⟨fun hfree => ?_, fun _ => ?_⟩
  · obtain ⟨href, hv, hn⟩ := hfree
    refine (inode_free_adds (h.low hl hone hv)).bind fun _ s1 h1 => ?_
    refine (inode_drop_costs (n := 0) x s1).imp fun _ s2 h2 => ⟨h1.then_same h2, fun hno => ?_⟩
    exact absurd ⟨href, by rw [abs_mem_valid sb hv, hn]⟩ hno
  · exact (inode_drop_costs (K := ∅) (n := 0) x s).imp fun _ s2 h2 =>
      ⟨h2.mono (Finset.empty_subset _) (Nat.le_refl 0), fun _ => h2⟩

theorem lock_costs (x : Nat) : Costs (INode.lock sb x) K n := by
  refine .get_bind fun s => (Costs.assert (n := 0)).bind_free fun _ => ?_
  have hlock : Costs (mtx_lock x) K 0 := .get_bind fun s => Costs.assert.bind_free fun _ =>
    (Costs.record (by simp) (by simp)).bind_free fun _ => .modify_inode x _
  exact hlock.bind_free fun _ => .ite (fun _ => (Costs.modify_inode x _).bind_free fun _ => .assert)
    fun _ => .pure

theorem unlock_costs (x : Nat) : Costs (INode.unlock x) K n :=
  .get_bind fun _ => (Costs.assert (n := 0)).bind_free fun _ =>
    (Costs.record (by simp) (by simp)).bind_free fun _ => .modify_inode x _

/-- `inode_unlock_put` is as `inode_put`. -/
theorem Wf.unlock_put_adds (hl : Layout sb) (hone : sb.size ≤ BIT_PER_BLOCK) (h : Wf sb s)
    (x : Nat) : Runs (inode_unlock_put sb x) s
      (fun _ s' => Adds {sb.bmapstart, INODE_BLOCK sb x} 0 s s' ∧
        (¬((s.abs sb).ref x = 1 ∧ (s.abs sb).mem x = some 0) → Adds ∅ 0 s s')) fun _ => True := by
  refine ((h.unlock x).also (unlock_costs (K := ∅) (n := 0) x s)).any.bind ?_
  rintro _ s1 ⟨⟨h1, hr⟩, hu⟩
  refine (h1.inode_put_adds hl hone x).imp ?_
  rintro _ s2 ⟨h2, hquiet⟩
  rw [hr.abs] at hquiet
  exact ⟨(hu.mono (Finset.empty_subset _) (Nat.le_refl 0)).then_same h2,
    fun hno => hu.then_same (hquiet hno)⟩

/-! ### Directories -/

/-- A read of an inode without holes logs nothing. -/
theorem read_adds (hs : Solid s.blocks (s.inodes x).dinode) (buf : Bytes.Source) (off m : Nat) :
    Runs (INode.read sb x buf off m) s (fun _ s' => Adds K n s s' ∧
      Solid s'.blocks (s'.inodes x).dinode) fun _ => True := by
  refine (read_solid hs off m).imp ?_
  rintro r s' ⟨hs', _, _⟩
  subst hs'
  exact ⟨.event rfl (by simp) (by simp), hs⟩

theorem dirlookup_loop_adds (hs : Solid s.blocks (s.inodes x).dinode) (name : List UInt8)
    (fuel off : Nat) : Runs (INode.dirlookup_loop sb x name fuel off) s
      (fun _ s' => Adds K 0 s s') fun _ => True := by
  induction fuel generalizing s off with
  | zero => exact Adds.refl s
  | succ fuel ih =>
    rw [INode.dirlookup_loop, runs_bind, runs_get]
    refine runs_ite.mpr ⟨fun _ => ?_, fun _ => Adds.refl s⟩
    refine (read_adds (K := K) (n := 0) hs _ _ _).bind ?_
    rintro r s1 ⟨h1, hs1⟩
    refine runs_bind.mpr (runs_assert.mpr ⟨fun _ => ?_, fun _ => trivial⟩)
    have hnext : ∀ off, Runs (INode.dirlookup_loop sb x name fuel off) s1
        (fun _ s' => Adds K 0 s s') fun _ => True :=
      fun off => (ih hs1 off).imp fun _ _ h2 => h1.then_same h2
    refine runs_ite.mpr ⟨fun _ => hnext _, fun _ => ?_⟩
    split
    · trivial
    · exact h1.then_same (Adds.of_trace rfl)
    · exact hnext _

/-- A lookup in a directory logs nothing. -/
theorem Wf.dirlookup_adds (h : Wf sb s) (x : Nat) (name : List UInt8) :
    Runs (INode.dirlookup sb x name) s (fun _ s' => Adds K 0 s s') fun _ => True := by
  rw [INode.dirlookup, Xv6fs.record, runs_bind, runs_modify, runs_bind, runs_get, runs_bind,
    runs_assert]
  refine ⟨fun ht => ?_, fun _ => trivial⟩
  have h0 : Adds K 0 s { s with trace := .access x :: s.trace } :=
    .event rfl (by simp) (by simp)
  exact (dirlookup_loop_adds (s := { s with trace := .access x :: s.trace }) (h.dir ht).solid
    name _ _).imp fun _ _ h1 => h0.then_same h1

theorem dirlink_slot_adds (hs : Solid s.blocks (s.inodes x).dinode) (fuel off : Nat) :
    Runs (INode.dirlink_slot sb x fuel off) s (fun _ s' => Adds K 0 s s') fun _ => True := by
  induction fuel generalizing s off with
  | zero => exact Adds.refl s
  | succ fuel ih =>
    rw [INode.dirlink_slot, runs_bind, runs_get]
    refine runs_ite.mpr ⟨fun _ => ?_, fun _ => Adds.refl s⟩
    refine (read_adds (K := K) (n := 0) hs _ _ _).bind ?_
    rintro r s1 ⟨h1, hs1⟩
    refine runs_bind.mpr (runs_assert.mpr ⟨fun _ => ?_, fun _ => trivial⟩)
    exact runs_ite.mpr ⟨fun _ => h1, fun _ => (ih hs1 _).imp fun _ _ h2 => h1.then_same h2⟩

theorem is_dir_empty_adds (hs : Solid s.blocks (s.inodes x).dinode) :
    Runs (is_dir_empty sb x) s (fun _ s' => Adds K 0 s s') fun _ => True := by
  have hloop : ∀ fuel off (s : Fs), Solid s.blocks (s.inodes x).dinode →
      Runs (is_dir_empty_loop sb x fuel off) s (fun _ s' => Adds K 0 s s') fun _ => True := by
    intro fuel
    induction fuel with
    | zero => exact fun _ s _ => Adds.refl s
    | succ fuel ih =>
      intro off s hs
      rw [is_dir_empty_loop, runs_bind, runs_get]
      refine runs_ite.mpr ⟨fun _ => ?_, fun _ => Adds.refl s⟩
      refine (read_adds (K := K) (n := 0) hs _ _ _).bind ?_
      rintro r s1 ⟨h1, hs1⟩
      refine runs_bind.mpr (runs_assert.mpr ⟨fun _ => ?_, fun _ => trivial⟩)
      exact runs_ite.mpr ⟨fun _ => h1, fun _ => (ih _ _ hs1).imp fun _ _ h2 => h1.then_same h2⟩
  rw [is_dir_empty, runs_bind, runs_get]
  exact hloop _ _ s hs

/-- `write` of an entry of a directory. -/
theorem write_entry_costs (hone : sb.size ≤ BIT_PER_BLOCK) (x i : Nat) (buf : Bytes.Source) :
    Costs (INode.write sb x buf (i * DIRENT_SIZE) DIRENT_SIZE)
      {sb.bmapstart, INODE_BLOCK sb x} 2 :=
  (write_costs hone x buf _ _).mono (Finset.Subset.refl _) (by rw [touched_entry])

/-- `dirlink` logs the bitmap, the directory, and at most two other blocks. -/
theorem Wf.dirlink_adds (hl : Layout sb) (hone : sb.size ≤ BIT_PER_BLOCK) (h : Wf sb s) (x : Nat)
    (name : List UInt8) (inum : Nat) : Runs (INode.dirlink sb x name inum) s
      (fun _ s' => Adds {sb.bmapstart, INODE_BLOCK sb x} 2 s s') fun _ => True := by
  have hrecord : Costs (Xv6fs.record (.access x)) {sb.bmapstart, INODE_BLOCK sb x} 0 :=
    .record (by simp) (by simp)
  refine ((h.record (.access x)).also (hrecord s)).any.bind ?_
  rintro _ s1 ⟨⟨h1, hr⟩, hadds1⟩
  refine ((h1.dirlookup x name).also
    (h1.dirlookup_adds (K := {sb.bmapstart, INODE_BLOCK sb x}) x name)).any.bind ?_
  rintro r s2 ⟨⟨h2, hopen, hlook⟩, hadds2⟩
  have h02 := hadds1.then_same hadds2
  cases r with
  | some p =>
    refine (h2.inode_put_adds hl hone p.1).bind ?_
    rintro _ s3 ⟨hput, _⟩
    have h3 : Adds (insert (INODE_BLOCK sb p.1) {sb.bmapstart, INODE_BLOCK sb x}) 0 s s3 :=
      (h02.mono (by grind) (Nat.le_refl 0)).then_same (hput.mono (by grind) (Nat.le_refl 0))
    exact h3.absorb.mono (Finset.Subset.refl _) (by omega)
  | none =>
    have hopen2 : (s2.abs sb).OpenDir x := by
      rw [hlook.2.abs]
      exact hopen
    have hx2 := h2.open_dir.mp hopen2
    refine runs_bind.mpr ?_
    rw [runs_get]
    refine ((h2.dirlink_slot hx2).also (dirlink_slot_adds (K := {sb.bmapstart, INODE_BLOCK sb x})
      (h2.dir hx2).solid _ _)).any.bind ?_
    rintro off s3 ⟨⟨_, hoff, _⟩, hadds3⟩
    rw [hoff]
    refine Runs.bind (write_entry_costs hone x _ _ s3) fun n s4 hadds4 => ?_
    exact ((h02.then_same hadds3).trans hadds4).mono (Finset.Subset.refl _) (by omega)

/-! ### Paths -/

/-- Every directory has links. -/
def AbsFs.Linked (a : AbsFs) : Prop := ∀ x, (a.node x).type = FileType.T_DIR → (a.node x).nlink ≠ 0

/-- A directory that has links is not freed with its last reference. -/
theorem AbsFs.Linked.kept {a : AbsFs} (ha : a.Linked) (h : Wf sb s) (hs : s.abs sb = a)
    (hx : (s.inodes x).dinode.type = FileType.T_DIR) : ¬(a.ref x = 1 ∧ a.mem x = some 0) := by
  subst hs
  rintro ⟨-, hmem⟩
  have hd := h.dir hx
  obtain ⟨hv, hn⟩ := valid_of_mem hmem
  refine ha x (by rw [abs_type hd.lt, hd.type]) ?_
  rw [abs_nlink hd.lt]
  exact ((h.cached x).links hv hd.type).symm.trans hn

theorem AbsFs.Linked.of_node {a a' : AbsFs} (ha : a.Linked) (h : a'.node = a.node) :
    a'.Linked := by
  intro x hx
  rw [h] at hx ⊢
  exact ha x hx

/-- A walk along a path logs the bitmap and at most one inode, at its end. -/
theorem Wf.inode_name_loop_adds (hl : Layout sb) (hone : sb.size ≤ BIT_PER_BLOCK) (h : Wf sb s)
    (ho : s.outstanding ≥ 1) (hlinked : (s.abs sb).Linked) (nameiparent : Bool) (fuel : Nat)
    (path name : List UInt8) (ip : Nat) :
    Runs (Xv6fs.inode_name_loop sb nameiparent fuel path name ip) s
      (fun _ s' => Adds {sb.bmapstart} 1 s s') fun _ => True := by
  have hend : ∀ {ip : Nat} {s s1 : Fs}, Adds {sb.bmapstart, INODE_BLOCK sb ip} 0 s s1 →
      Adds {sb.bmapstart} 1 s s1 := fun h => by
    rw [Finset.pair_comm] at h
    exact h.absorb
  induction fuel generalizing s path name ip with
  | zero => exact Adds.refl s
  | succ fuel ih =>
    rw [Xv6fs.inode_name_loop.eq_def]
    dsimp only
    cases skipelem path with
    | none =>
      refine runs_ite.mpr ⟨fun _ => ?_, fun _ => Adds.refl s⟩
      refine (h.inode_put_adds hl hone ip).bind ?_
      rintro _ s1 ⟨h1, _⟩
      exact hend h1
    | some e =>
      obtain ⟨name', path'⟩ := e
      refine ((h.lock ip).also (lock_costs (K := {sb.bmapstart}) (n := 0) ip s)).any.bind ?_
      rintro _ s1 ⟨⟨h1, hr1, _, _⟩, hadds1⟩
      have ho1 : s1.outstanding ≥ 1 := by
        rw [show s1.outstanding = s.outstanding from congrArg AbsFs.outstanding hr1.abs]
        exact ho
      have hlinked1 : (s1.abs sb).Linked := hlinked.of_node (by rw [hr1.abs]; rfl)
      have hput : ∀ {s2 : Fs}, Wf sb s2 → Adds {sb.bmapstart} 0 s s2 →
          Runs (do Xv6fs.inode_unlock_put sb ip; pure (none : Option (Nat × List UInt8))) s2
            (fun _ s' => Adds {sb.bmapstart} 1 s s') fun _ => True := by
        intro s2 h2 hadds2
        refine (h2.unlock_put_adds hl hone ip).bind ?_
        rintro _ s3 ⟨h3, _⟩
        exact (hadds2.trans (hend h3)).mono (Finset.Subset.refl _) (by omega)
      refine runs_bind.mpr (runs_ite.mpr ⟨fun _ => hput h1 hadds1, fun _ => ?_⟩)
      refine runs_ite.mpr ⟨fun _ => ?_, fun _ => ?_⟩
      · exact Runs.bind (unlock_costs (K := {sb.bmapstart}) (n := 0) ip s1) fun _ s2 h2 =>
          (hadds1.then_same h2).mono (Finset.Subset.refl _) (by omega)
      refine ((h1.dirlookup ip name').also
        (h1.dirlookup_adds (K := {sb.bmapstart}) ip name')).any.bind ?_
      rintro r s2 ⟨⟨h2, hopen, hlook⟩, hadds2⟩
      have hadds02 := hadds1.then_same hadds2
      cases r with
      | none => exact hput h2 hadds02
      | some p =>
        obtain ⟨next, off⟩ := p
        obtain ⟨i, -, -, -, -, hr2⟩ := hlook
        have ho2 : s2.outstanding ≥ 1 := by
          rw [show s2.outstanding = s1.outstanding from congrArg AbsFs.outstanding hr2.abs]
          exact ho1
        have hlinked2 : (s2.abs sb).Linked := hlinked1.of_node (by rw [hr2.abs]; rfl)
        have hopen2 : (s2.abs sb).OpenDir ip := by
          rw [hr2.abs]
          exact hopen
        have hkept := hlinked2.kept h2 rfl (h2.open_dir.mp hopen2)
        refine ((h2.unlock_put hl ho2 ip).also (h2.unlock_put_adds hl hone ip)).any.bind ?_
        rintro _ s3 ⟨⟨h3, habs3, _⟩, _, hquiet⟩
        rw [AbsFs.put, if_neg hkept] at habs3
        have ho3 : s3.outstanding ≥ 1 := by
          rw [show s3.outstanding = s2.outstanding from congrArg AbsFs.outstanding habs3]
          exact ho2
        have hadds3 := hadds02.then_same ((hquiet hkept).mono (Finset.empty_subset _) (Nat.le_refl 0))
        refine (ih h3 ho3 (hlinked2.of_node (by rw [habs3]; rfl)) _ _ _).imp fun _ s4 hadds4 => ?_
        exact (hadds3.trans hadds4).mono (Finset.Subset.refl _) (by omega)

/-- A lookup of a path logs the bitmap and at most one inode. -/
theorem Wf.inode_name_x_adds (hl : Layout sb) (hone : sb.size ≤ BIT_PER_BLOCK) (h : Wf sb s)
    (hroot : ROOTINO < sb.ninodes) (ho : s.outstanding ≥ 1) (hlinked : (s.abs sb).Linked)
    (path : List UInt8) (nameiparent : Bool) :
    Runs (Xv6fs.inode_name_x sb path nameiparent) s
      (fun _ s' => Adds {sb.bmapstart} 1 s s') fun _ => True := by
  refine runs_bind.mpr (runs_assert.mpr ⟨fun _ => ?_, fun _ => trivial⟩)
  have hget : Costs (Xv6fs.inode_get ROOTINO) {sb.bmapstart} 0 := .modify_inode _ _
  refine ((h.inode_get hroot).also (hget s)).any.bind ?_
  rintro _ s1 ⟨⟨h1, hr⟩, hadds1⟩
  refine (h1.inode_name_loop_adds hl hone ?_ (hlinked.of_node (by rw [hr.abs]; rfl)) _ _ _ _
    _).imp fun _ s2 hadds2 => ?_
  · rw [show s1.outstanding = s.outstanding from congrArg AbsFs.outstanding hr.abs]
    exact ho
  · exact (hadds1.trans hadds2).mono (Finset.Subset.refl _) (by omega)

end Xv6fs
