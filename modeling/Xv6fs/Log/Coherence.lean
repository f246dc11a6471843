import Xv6fs.Log.Cache
import Xv6fs.Log.Group

/-! The cache stays coherent with the log over every run: what holds of the pins, the log copies and
the header at each step of `commit`, and what follows for readers, evictions and commits. -/

namespace Xv6fs.Log.Coherence

variable {start size : Nat} {s s' : State} {c : Cache} {u : User} {b t : Nat} {pc : Pc}

namespace State

/-- The number of entries of the header whose pins are gone. -/
def unpinned (s : State) : Nat :=
  match s.pc with
  | .install t .release_log | .install t .release_dst => t + 1
  | .install t _ => t
  | .clear => s.log_hdr.n
  | _ => 0

/-- The number of entries of the header whose log blocks hold copies of their blocks. -/
def copied (s : State) : Nat :=
  match s.pc with
  | .write_log t .write | .write_log t .release_src | .write_log t .release_dst => t + 1
  | .write_log t _ => t
  | .write_head _ | .install _ _ => s.log_hdr.n
  | _ => 0

/-- The block that `commit` has changed and not written yet. -/
def changed (start : Nat) (s : State) : Option Nat :=
  match s.pc with
  | .write_log t .write => some (start + t + 1)
  | .install t .write => some (s.log_hdr.block t)
  | .write_head .write | .erase .write => some start
  | _ => none

/-- The loops of `commit` are within the header. -/
def InLoop (s : State) : Prop :=
  match s.pc with
  | .write_log t _ | .install t _ => t < s.log_hdr.n
  | .write_head _ => 0 < s.log_hdr.n
  | .erase _ => s.log_hdr.n = 0
  | _ => True

/-- What holds in every reached state. -/
structure Inv (start size : Nat) (s : State) : Prop where
  ok : s.cache.Ok
  distinct : s.log_hdr.Distinct
  home : ∀ i < s.log_hdr.n, Home start size (s.log_hdr.block i)
  fits : s.log_hdr.n ≤ size - 1
  pins : ∀ b, s.cache.pinned b = true ↔
    ∃ i, s.unpinned ≤ i ∧ i < s.log_hdr.n ∧ s.log_hdr.block i = b
  copies : ∀ i < s.copied,
    s.cache.last (start + i + 1) = s.cache.last (s.log_hdr.block i)
  quiet : s.pc ≠ .idle → s.outstanding = []
  dirty : ∀ b, s.cache.dirty b = true →
    (∃ t ∈ s.outstanding, ⟨.thread t, b, true⟩ ∈ s.cache.uses) ∨ s.changed start = some b
  inLoop : s.InLoop
  written : ∀ t, s.pc = .install t .unpin →
    s.cache.disk (s.log_hdr.block t) = s.cache.last (s.log_hdr.block t)

end State

open State

/-- The block in entry `i` is not in the log. -/
theorem State.Inv.home_ne (h : s.Inv start size) {i k : Nat} (hi : i < s.log_hdr.n)
    (hk : k ≤ s.log_hdr.n) : s.log_hdr.block i ≠ start + k := by
  obtain ⟨-, hout⟩ := h.home i hi
  have := h.fits
  omega

theorem State.Inv.boot (start size : Nat) (d : Disk) : (boot d).Inv start size where
  ok b := by
    refine ⟨rfl, ?_, Nat.zero_le _, ?_, ?_, ?_, fun _ _ => rfl, ?_⟩
    · intro blk hs; cases hs
    · intro hl; exact absurd hl (Nat.lt_irrefl 0)
    · intro hp; cases hp
    · intro blk hs; cases hs
    · intro hd; cases hd
  distinct i hi := absurd hi (Nat.not_lt_zero i)
  home i hi := absurd hi (Nat.not_lt_zero i)
  fits := Nat.zero_le _
  pins b := by
    constructor
    · intro hp; cases hp
    · rintro ⟨i, -, hi, -⟩
      exact absurd hi (Nat.not_lt_zero i)
  copies i hi := absurd hi (Nat.not_lt_zero i)
  quiet h := absurd rfl h
  dirty b hd := by cases hd
  inLoop := trivial
  written t h := by cases h

/-- A step of the cache that keeps the image, what was written last, changes and pins. -/
structure Plain (c c' : Cache) : Prop where
  disk : c'.disk = c.disk
  last : c'.last = c.last
  dirty : c'.dirty = c.dirty
  pinned : c'.pinned = c.pinned

theorem plain_get (c : Cache) (u : User) (b : Nat) : Plain c (c.block_get u b) :=
  ⟨rfl, rfl, rfl, rfl⟩

theorem plain_lock {c' : Cache} (h : c.block_lock u b = some c') : Plain c c' := by
  unfold Cache.block_lock at h
  split at h
  · cases h; exact ⟨rfl, rfl, rfl, rfl⟩
  · cases h

theorem plain_release {c' : Cache} (h : c.block_release u b = some c') : Plain c c' := by
  unfold Cache.block_release at h
  split at h
  · cases h; exact ⟨rfl, rfl, rfl, rfl⟩
  · cases h

/-! ### Steps of threads -/

/-- A step of a thread that takes or releases a block. -/
theorem State.Inv.thread_plain (h : s.Inv start size) {c' : Cache} (hok : c'.Ok)
    (hp : Plain s.cache c')
    (huses : ∀ t b, s.cache.dirty b = true → ⟨.thread t, b, true⟩ ∈ s.cache.uses →
      ⟨.thread t, b, true⟩ ∈ c'.uses) : ({ s with cache := c' } : State).Inv start size where
  ok := hok
  distinct := h.distinct
  home := h.home
  fits := h.fits
  pins b := by
    dsimp only
    rw [hp.pinned]
    exact h.pins b
  copies i hi := by
    dsimp only
    rw [hp.last]
    exact h.copies i hi
  quiet := h.quiet
  dirty b hd := by
    dsimp only at hd ⊢
    rw [hp.dirty] at hd
    rcases h.dirty b hd with ⟨t, ht, hu⟩ | hc
    · exact .inl ⟨t, ht, huses t b hd hu⟩
    · exact .inr hc
  inLoop := h.inLoop
  written t ht := by
    dsimp only
    rw [hp.disk, hp.last]
    exact h.written t ht

theorem State.Inv.block_lock (h : s.Inv start size) {c' : Cache}
    (hl : s.cache.block_lock u b = some c') : ({ s with cache := c' } : State).Inv start size := by
  refine h.thread_plain (h.ok.block_lock hl) (plain_lock hl) fun t b' _ hmem => ?_
  unfold Cache.block_lock at hl
  split at hl
  · cases hl
    refine List.mem_cons_of_mem _ ((List.mem_erase_of_ne ?_).mpr hmem)
    simp
  · cases hl

theorem State.Inv.block_release (h : s.Inv start size) {c' : Cache} (hd : s.cache.dirty b = false)
    (hl : s.cache.block_release u b = some c') :
    ({ s with cache := c' } : State).Inv start size := by
  refine h.thread_plain (h.ok.block_release hd hl).1 (plain_release hl) fun t b' hd' hmem => ?_
  unfold Cache.block_release at hl
  split at hl
  · cases hl
    refine (List.mem_erase_of_ne ?_).mpr hmem
    rintro heq
    cases heq
    exact absurd (hd.symm.trans hd') (by decide)
  · cases hl

/-- A change of a home block by a thread in an operation. -/
theorem State.Inv.modify (h : s.Inv start size) {c' : Cache} {v : BlockData}
    (ht : t ∈ s.outstanding) (hs : s.cache.store (.thread t) b v = some c') :
    ({ s with cache := c'.wrote b v } : State).Inv start size := by
  have hidle : s.pc = .idle := by
    refine Classical.byContradiction fun hpc => ?_
    rw [h.quiet hpc] at ht
    cases ht
  have hok := h.ok.store hs (setAt s.cache.last b v) rfl
  unfold Cache.store at hs
  split at hs
  · next hmem =>
    cases hs
    refine ⟨hok, h.distinct, h.home, h.fits, h.pins, fun i hi => ?_, h.quiet, fun x hx => ?_, h.inLoop,
      fun t' ht' => ?_⟩
    · simp [copied, hidle] at hi
    · by_cases hxb : x = b
      · subst hxb
        exact .inl ⟨t, ht, hmem⟩
      · refine h.dirty x ?_
        simpa [Cache.wrote, setAt_of_ne hxb] using hx
    · rw [hidle] at ht'
      cases ht'
  · cases hs

theorem State.Inv.log_write (h : s.Inv start size) (hmem : ⟨.thread t, b, true⟩ ∈ s.cache.uses)
    (hb : Home start size b) (hroom : s.log_hdr.n < size - 1) (ht : t ∈ s.outstanding) :
    (s.log_write b).Inv start size := by
  have hidle : s.pc = .idle := by
    refine Classical.byContradiction fun hpc => ?_
    rw [h.quiet hpc] at ht
    cases ht
  have hunpinned : s.unpinned = 0 := by simp [unpinned, hidle]
  have hdirty : ∀ x, setAt s.cache.dirty b false x = true → s.cache.dirty x = true := by
    intro x hx
    by_cases hxb : x = b
    · subst hxb
      rw [setAt_self] at hx
      cases hx
    · rwa [setAt_of_ne hxb] at hx
  by_cases hhas : s.log_hdr.Has b
  · obtain ⟨hlt, hblock⟩ := LogHeader.index_of_has hhas
    have hsame : setAt s.log_hdr.block (s.log_hdr.index b) b = s.log_hdr.block := by
      conv_lhs => rw [← hblock]
      rw [hblock]
      exact (congrArg (setAt _ _) hblock.symm).trans (setAt_same _)
    have hpinned : s.cache.pinned b = true := by
      obtain ⟨i, hi, hib⟩ := hhas
      exact (h.pins b).mpr ⟨i, by omega, hi, hib⟩
    rw [State.log_write, if_neg (Nat.ne_of_lt hlt), hsame]
    exact ⟨h.ok.logged hpinned, h.distinct, h.home, h.fits, h.pins, h.copies, h.quiet,
      fun x hx => h.dirty x (hdirty x hx), h.inLoop, h.written⟩
  · have hindex := LogHeader.index_of_not_has hhas
    have hpinned : s.cache.pinned b = false := by
      cases hp : s.cache.pinned b with
      | false => rfl
      | true =>
        obtain ⟨i, -, hi, hib⟩ := (h.pins b).mp hp
        exact absurd ⟨i, hi, hib⟩ hhas
    have hold : ∀ i, i < s.log_hdr.n → setAt s.log_hdr.block s.log_hdr.n b i = s.log_hdr.block i :=
      fun i hi => setAt_of_ne (Nat.ne_of_lt hi)
    have hcases : ∀ i, i < s.log_hdr.n + 1 → i < s.log_hdr.n ∨ i = s.log_hdr.n := by omega
    rw [State.log_write, if_pos hindex, hindex]
    refine ⟨h.ok.block_pin hmem hpinned, ?_, ?_, ?_, fun x => ?_, fun i hi => ?_, h.quiet,
      fun x hx => ?_, ?_, fun t' ht' => ?_⟩
    · intro i hi j hj hij
      dsimp only at hi hj hij
      rcases hcases i hi with hi' | rfl
      · rcases hcases j hj with hj' | rfl
        · rw [hold i hi', hold j hj'] at hij
          exact h.distinct i hi' j hj' hij
        · rw [hold i hi', setAt_self] at hij
          exact absurd ⟨i, hi', hij⟩ hhas
      · rcases hcases j hj with hj' | rfl
        · rw [hold j hj', setAt_self] at hij
          exact absurd ⟨j, hj', hij.symm⟩ hhas
        · rfl
    · intro i hi
      dsimp only at hi ⊢
      rcases hcases i hi with hi' | rfl
      · rw [hold i hi']
        exact h.home i hi'
      · rw [setAt_self]
        exact hb
    · dsimp only
      omega
    · have hx := h.pins x
      rw [hunpinned] at hx
      have hun : unpinned ⟨Cache.block_pin { s.cache with dirty := setAt s.cache.dirty b false } b,
          ⟨s.log_hdr.n + 1, setAt s.log_hdr.block s.log_hdr.n b⟩, s.outstanding, s.pc⟩ = 0 := by
        simp [unpinned, hidle]
      rw [hun]
      show setAt s.cache.pinned b true x = true ↔ _
      constructor
      · intro hp
        by_cases hxb : x = b
        · exact ⟨s.log_hdr.n, Nat.zero_le _, Nat.lt_succ_self _, by rw [hxb]; exact setAt_self⟩
        · rw [setAt_of_ne hxb] at hp
          obtain ⟨i, h0, hi, hib⟩ := hx.mp hp
          exact ⟨i, h0, Nat.lt_succ_of_lt hi, (hold i hi).trans hib⟩
      · rintro ⟨i, -, hi, hib⟩
        by_cases hxb : x = b
        · rw [hxb, setAt_self]
        · rw [setAt_of_ne hxb]
          dsimp only at hi hib
          rcases hcases i hi with hi' | rfl
          · exact hx.mpr ⟨i, Nat.zero_le _, hi', (hold i hi').symm.trans hib⟩
          · rw [setAt_self] at hib
            exact absurd hib.symm hxb
    · simp [copied, hidle] at hi
    · rcases h.dirty x (hdirty x hx) with hx | hx
      · exact .inl hx
      · simp [changed, hidle] at hx
    · simp only [InLoop, hidle]
    · rw [hidle] at ht'
      cases ht'

theorem State.Inv.begin_op (h : s.Inv start size) (hidle : s.pc = .idle) :
    ({ s with outstanding := t :: s.outstanding } : State).Inv start size where
  ok := h.ok
  distinct := h.distinct
  home := h.home
  fits := h.fits
  pins := h.pins
  copies := h.copies
  quiet hpc := absurd hidle hpc
  dirty x hx := by
    rcases h.dirty x hx with ⟨t', ht', hu⟩ | hc
    · exact .inl ⟨t', List.mem_cons_of_mem _ ht', hu⟩
    · exact .inr hc
  inLoop := h.inLoop
  written := h.written

/-- An operation ends when the blocks that its thread holds have no changes. -/
theorem State.Inv.end_op (h : s.Inv start size) (hclean : ∀ x ∈ s.cache.uses,
    x.user = .thread t → x.locked → s.cache.dirty x.block = false) :
    ({ s with outstanding := s.outstanding.erase t } : State).Inv start size where
  ok := h.ok
  distinct := h.distinct
  home := h.home
  fits := h.fits
  pins := h.pins
  copies := h.copies
  quiet hpc := by
    dsimp only
    rw [h.quiet hpc]
    rfl
  dirty x hx := by
    rcases h.dirty x hx with ⟨t', ht', hu⟩ | hc
    · refine .inl ⟨t', (List.mem_erase_of_ne ?_).mpr ht', hu⟩
      rintro rfl
      exact absurd (hx.symm.trans (hclean _ hu rfl rfl)) (by decide)
    · exact .inr hc
  inLoop := h.inLoop
  written := h.written

/-! ### Steps of `commit` -/

theorem State.Inv.no_thread_changes (h : s.Inv start size) (hpc : s.pc ≠ .idle) (x : Nat)
    (hx : s.cache.dirty x = true) : s.changed start = some x := by
  rcases h.dirty x hx with ⟨t, ht, -⟩ | hc
  · rw [h.quiet hpc] at ht
    cases ht
  · exact hc

/-- A block that `commit` has not changed has no changes while it runs. -/
theorem State.Inv.not_dirty (h : s.Inv start size) (hpc : s.pc ≠ .idle)
    (hc : s.changed start ≠ some b) : s.cache.dirty b = false := by
  cases hd : s.cache.dirty b with
  | false => rfl
  | true => exact absurd (h.no_thread_changes hpc b hd) hc

/-- A step of `commit` that takes or releases a block. -/
theorem State.Inv.commit_plain (h : s.Inv start size) {c' : Cache} (hpc : s.pc ≠ .idle)
    (hok : c'.Ok) (hp : Plain s.cache c') (s' : State)
    (hs' : s' = { s with cache := c', pc := s'.pc })
    (hunpinned : s'.unpinned = s.unpinned) (hcopied : s'.copied ≤ s.copied)
    (hchanged : s.changed start = none) (hloop : s'.InLoop)
    (hwritten : ∀ t, s'.pc ≠ .install t .unpin) : s'.Inv start size := by
  have hcache : s'.cache = c' := by rw [hs']
  have hhdr : s'.log_hdr = s.log_hdr := by rw [hs']
  have hout : s'.outstanding = s.outstanding := by rw [hs']
  refine ⟨hcache ▸ hok, hhdr ▸ h.distinct, ?_, ?_, fun x => ?_, fun i hi => ?_, fun _ => ?_,
    fun x hx => ?_, hloop, fun t ht => absurd ht (hwritten t)⟩
  · rw [hhdr]
    exact h.home
  · rw [hhdr]
    exact h.fits
  · rw [hcache, hp.pinned, hunpinned, hhdr]
    exact h.pins x
  · rw [hcache, hp.last, hhdr]
    exact h.copies i (Nat.lt_of_lt_of_le hi hcopied)
  · rw [hout]
    exact h.quiet hpc
  · rw [hcache, hp.dirty] at hx
    have := h.no_thread_changes hpc x hx
    rw [hchanged] at this
    cases this

/-- The block of the log that holds the copy of entry `k` is not the block in entry `i`. -/
theorem State.Inv.home_ne_log (h : s.Inv start size) {i k : Nat} (hi : i < s.log_hdr.n)
    (hk : k < s.log_hdr.n) : s.log_hdr.block i ≠ start + k + 1 := by
  have := h.home_ne hi (k := k + 1) hk
  rwa [← Nat.add_assoc] at this

/-- A store of `commit` to a block of the log, which leaves it with changes. -/
theorem State.Inv.commit_store (h : s.Inv start size) {c' : Cache} {v : BlockData}
    (hpc : s.pc ≠ .idle) (hs : s.cache.store .commit b v = some c') (s' : State)
    (hs' : s' = { s with cache := c'.wrote b v, pc := s'.pc })
    (hlog : ∀ i < s.log_hdr.n, s.log_hdr.block i ≠ b)
    (hunpinned : s'.unpinned = s.unpinned) (hchanged : s.changed start = none)
    (hchanged' : s'.changed start = some b) (hloop : s'.InLoop)
    (hcopies : ∀ i < s'.copied, i < s.log_hdr.n ∧
      setAt s.cache.last b v (start + i + 1) = s.cache.last (s.log_hdr.block i))
    (hwritten : ∀ t, s'.pc ≠ .install t .unpin) : s'.Inv start size := by
  have hok := h.ok.store hs (setAt s.cache.last b v) rfl
  unfold Cache.store at hs
  split at hs
  · cases hs
    have hcache := congrArg State.cache hs'
    have hhdr : s'.log_hdr = s.log_hdr := by rw [hs']
    have hout : s'.outstanding = s.outstanding := by rw [hs']
    dsimp only at hcache
    refine ⟨hcache ▸ hok, hhdr ▸ h.distinct, ?_, ?_, fun x => ?_, fun i hi => ?_, fun _ => ?_,
      fun x hx => ?_, hloop, fun t ht => absurd ht (hwritten t)⟩
    · rw [hhdr]
      exact h.home
    · rw [hhdr]
      exact h.fits
    · rw [hcache, hunpinned, hhdr]
      exact h.pins x
    · obtain ⟨hin, heq⟩ := hcopies i hi
      rw [hcache, hhdr]
      exact heq.trans (setAt_of_ne (hlog i hin)).symm
    · rw [hout]
      exact h.quiet hpc
    · refine .inr (hchanged'.trans (congrArg some ?_))
      refine Classical.byContradiction fun hxb => ?_
      rw [hcache] at hx
      have := h.no_thread_changes hpc x (by
        simpa [Cache.wrote, setAt_of_ne (Ne.symm hxb)] using hx)
      rw [hchanged] at this
      cases this
  · cases hs

/-- A `block_write` of `commit`. -/
theorem State.Inv.commit_write (h : s.Inv start size) {c' : Cache} (hpc : s.pc ≠ .idle)
    (hs : s.cache.block_write .commit b = some c') (s' : State)
    (hs' : s' = { s with cache := c', pc := s'.pc })
    (hunpinned : s'.unpinned = s.unpinned) (hcopied : s'.copied ≤ s.copied)
    (hchanged : s.changed start = some b) (hloop : s'.InLoop)
    (hwritten : ∀ t, s'.pc = .install t .unpin → s.log_hdr.block t = b) : s'.Inv start size := by
  obtain ⟨hok, hdisk⟩ := h.ok.block_write hs
  unfold Cache.block_write at hs
  split at hs
  · cases hs
    have hcache := congrArg State.cache hs'
    have hhdr : s'.log_hdr = s.log_hdr := by rw [hs']
    have hout : s'.outstanding = s.outstanding := by rw [hs']
    dsimp only at hcache
    refine ⟨hcache ▸ hok, hhdr ▸ h.distinct, ?_, ?_, fun x => ?_, fun i hi => ?_, fun _ => ?_,
      fun x hx => ?_, hloop, fun t ht => ?_⟩
    · rw [hhdr]
      exact h.home
    · rw [hhdr]
      exact h.fits
    · rw [hcache, hunpinned, hhdr]
      exact h.pins x
    · rw [hcache, hhdr]
      exact h.copies i (Nat.lt_of_lt_of_le hi hcopied)
    · rw [hout]
      exact h.quiet hpc
    · rw [hcache] at hx
      by_cases hxb : x = b
      · subst hxb
        simp at hx
      · have := h.no_thread_changes hpc x (by simpa [setAt_of_ne hxb] using hx)
        rw [hchanged] at this
        exact absurd (Option.some.inj this).symm hxb
    · rw [hcache, hhdr, hwritten t ht]
      exact hdisk
  · cases hs

theorem memmove_eq {dst src : Nat} {c' : Cache} (hs : c.memmove u dst src = some c') :
    ⟨u, src, true⟩ ∈ c.uses ∧ c.store u dst (c.data src) = some c' := by
  unfold Cache.memmove at hs
  split at hs
  · exact ⟨‹_›, hs⟩
  · cases hs

/-- A step of `write_log`. -/
theorem State.Inv.write_log_at (h : s.Inv start size) {tail : Nat} {pc : CopyPc}
    (hpc : s.pc = .write_log tail pc) (hs : s.write_log_at start tail pc = some s') :
    s'.Inv start size := by
  have hne : s.pc ≠ .idle := by rw [hpc]; nofun
  have hlt : tail < s.log_hdr.n := by simpa [InLoop, hpc] using h.inLoop
  cases pc with
  | read_dst =>
    cases hs
    exact h.commit_plain hne (h.ok.block_get _ _) (plain_get _ _ _) _ rfl (by simp [unpinned, hpc])
      (by simp [copied, hpc]) (by simp [changed, hpc]) hlt nofun
  | lock_dst =>
    obtain ⟨c, hc, rfl⟩ := Option.map_eq_some_iff.mp hs
    exact h.commit_plain hne (h.ok.block_lock hc) (plain_lock hc) _ rfl (by simp [unpinned, hpc])
      (by simp [copied, hpc]) (by simp [changed, hpc]) hlt nofun
  | read_src =>
    cases hs
    exact h.commit_plain hne (h.ok.block_get _ _) (plain_get _ _ _) _ rfl (by simp [unpinned, hpc])
      (by simp [copied, hpc]) (by simp [changed, hpc]) hlt nofun
  | lock_src =>
    obtain ⟨c, hc, rfl⟩ := Option.map_eq_some_iff.mp hs
    exact h.commit_plain hne (h.ok.block_lock hc) (plain_lock hc) _ rfl (by simp [unpinned, hpc])
      (by simp [copied, hpc]) (by simp [changed, hpc]) hlt nofun
  | memmove =>
    obtain ⟨c, hc, rfl⟩ := Option.map_eq_some_iff.mp hs
    obtain ⟨hsrc, hc⟩ := memmove_eq hc
    have hdata := (h.ok.valid hsrc).data_eq h.ok
    refine h.commit_store hne hc _ rfl (fun i hi => h.home_ne_log hi hlt) (by simp [unpinned, hpc])
      (by simp [changed, hpc]) rfl hlt (fun i hi => ?_) nofun
    have hi : i < tail + 1 := hi
    refine ⟨by omega, ?_⟩
    by_cases hit : i = tail
    · subst hit
      rw [setAt_self, hdata]
    · rw [setAt_of_ne (by omega)]
      exact h.copies i (by simp only [copied, hpc]; omega)
  | write =>
    obtain ⟨c, hc, rfl⟩ := Option.map_eq_some_iff.mp hs
    exact h.commit_write hne hc _ rfl (by simp [unpinned, hpc]) (by simp [copied, hpc])
      (by simp [changed, hpc]) hlt nofun
  | release_src =>
    obtain ⟨c, hc, rfl⟩ := Option.map_eq_some_iff.mp hs
    have hd := h.not_dirty hne (b := s.log_hdr.block tail) (by simp [changed, hpc])
    exact h.commit_plain hne (h.ok.block_release hd hc).1 (plain_release hc) _ rfl
      (by simp [unpinned, hpc]) (by simp [copied, hpc]) (by simp [changed, hpc]) hlt nofun
  | release_dst =>
    obtain ⟨c, hc, rfl⟩ := Option.map_eq_some_iff.mp hs
    have hd := h.not_dirty hne (b := start + tail + 1) (by simp [changed, hpc])
    by_cases hnext : tail + 1 < s.log_hdr.n
    · simp only [if_pos hnext]
      exact h.commit_plain hne (h.ok.block_release hd hc).1 (plain_release hc) _ rfl
        (by simp [unpinned, hpc]) (by simp [copied, hpc]) (by simp [changed, hpc]) hnext nofun
    · simp only [if_neg hnext]
      refine h.commit_plain hne (h.ok.block_release hd hc).1 (plain_release hc) _ rfl
        (by simp [unpinned, hpc]) ?_ (by simp [changed, hpc]) (Nat.zero_lt_of_lt hlt) nofun
      simp only [copied, hpc]
      omega

/-- A step of `write_head` at either of its calls, which differ in what the rest of `commit` is. -/
theorem State.Inv.write_head (h : s.Inv start size) {here : HeadPc → Pc} {next : Pc} {pc : HeadPc}
    (hpc : s.pc = here pc) (hs : s.write_head start here next pc = some s')
    (hne : s.pc ≠ .idle) (hn : s.copied ≤ s.log_hdr.n)
    (hview : ∀ c p, (p = next ∨ ∃ q, p = here q) →
      unpinned ⟨c, s.log_hdr, s.outstanding, p⟩ = s.unpinned ∧
      copied ⟨c, s.log_hdr, s.outstanding, p⟩ ≤ s.copied ∧
      InLoop ⟨c, s.log_hdr, s.outstanding, p⟩ ∧ ∀ t, p ≠ .install t .unpin)
    (hchanged : ∀ c q, changed start ⟨c, s.log_hdr, s.outstanding, here q⟩ =
      if q = .write then some start else none) : s'.Inv start size := by
  have hat : s.changed start = if pc = .write then some start else none := by
    have := hchanged s.cache pc
    rwa [← hpc] at this
  cases pc with
  | read =>
    cases hs
    obtain ⟨h1, h2, h3, h4⟩ := hview (s.cache.block_get .commit start) _ (.inr ⟨.lock, rfl⟩)
    exact h.commit_plain hne (h.ok.block_get _ _) (plain_get _ _ _) _ rfl h1 h2 hat h3 h4
  | lock =>
    obtain ⟨c, hc, rfl⟩ := Option.map_eq_some_iff.mp hs
    obtain ⟨h1, h2, h3, h4⟩ := hview c _ (.inr ⟨.store, rfl⟩)
    exact h.commit_plain hne (h.ok.block_lock hc) (plain_lock hc) _ rfl h1 h2 hat h3 h4
  | store =>
    obtain ⟨c, hc, rfl⟩ := Option.map_eq_some_iff.mp hs
    obtain ⟨h1, h2, h3, h4⟩ := hview (c.wrote start (s.log_hdr.store (s.cache.data start))) _
      (.inr ⟨.write, rfl⟩)
    refine h.commit_store hne hc _ rfl (fun i hi => h.home_ne hi (k := 0) (Nat.zero_le _)) h1 hat
      (hchanged _ _) h3 (fun i hi => ?_) h4
    have hi : i < s.copied := Nat.lt_of_lt_of_le hi h2
    refine ⟨Nat.lt_of_lt_of_le hi hn, ?_⟩
    rw [setAt_of_ne (by omega)]
    exact h.copies i hi
  | write =>
    obtain ⟨c, hc, rfl⟩ := Option.map_eq_some_iff.mp hs
    obtain ⟨h1, h2, h3, h4⟩ := hview c _ (.inr ⟨.release, rfl⟩)
    exact h.commit_write hne hc _ rfl h1 h2 hat h3 fun t ht => absurd ht (h4 t)
  | release =>
    obtain ⟨c, hc, rfl⟩ := Option.map_eq_some_iff.mp hs
    obtain ⟨h1, h2, h3, h4⟩ := hview c _ (.inl rfl)
    have hd := h.not_dirty hne (b := start) (by rw [hat]; simp)
    exact h.commit_plain hne (h.ok.block_release hd hc).1 (plain_release hc) _ rfl h1 h2 hat h3 h4

/-- A step of the loop of `commit`. -/
theorem State.Inv.install_at (h : s.Inv start size) {tail : Nat} {pc : InstallPc}
    (hpc : s.pc = .install tail pc) (hs : s.install_at start tail pc = some s') :
    s'.Inv start size := by
  have hne : s.pc ≠ .idle := by simp [hpc]
  have hlt : tail < s.log_hdr.n := by simpa [InLoop, hpc] using h.inLoop
  cases pc with
  | read_log =>
    cases hs
    exact h.commit_plain hne (h.ok.block_get _ _) (plain_get _ _ _) _ rfl (by simp [unpinned, hpc])
      (by simp [copied, hpc]) (by simp [changed, hpc]) hlt (by simp)
  | lock_log =>
    obtain ⟨c, hc, rfl⟩ := Option.map_eq_some_iff.mp hs
    exact h.commit_plain hne (h.ok.block_lock hc) (plain_lock hc) _ rfl (by simp [unpinned, hpc])
      (by simp [copied, hpc]) (by simp [changed, hpc]) hlt (by simp)
  | read_dst =>
    cases hs
    exact h.commit_plain hne (h.ok.block_get _ _) (plain_get _ _ _) _ rfl (by simp [unpinned, hpc])
      (by simp [copied, hpc]) (by simp [changed, hpc]) hlt (by simp)
  | lock_dst =>
    obtain ⟨c, hc, rfl⟩ := Option.map_eq_some_iff.mp hs
    exact h.commit_plain hne (h.ok.block_lock hc) (plain_lock hc) _ rfl (by simp [unpinned, hpc])
      (by simp [copied, hpc]) (by simp [changed, hpc]) hlt (by simp)
  | memmove =>
    obtain ⟨c, hc, rfl⟩ := Option.map_eq_some_iff.mp hs
    obtain ⟨hsrc, hc⟩ := memmove_eq hc
    -- the log block holds the content of its home block, so nothing new is written
    have hdata : s.cache.data (start + tail + 1) = s.cache.last (s.log_hdr.block tail) :=
      ((h.ok.valid hsrc).data_eq h.ok).trans (h.copies tail (by simpa [copied, hpc] using hlt))
    have hok := h.ok.store hc s.cache.last (by rw [hdata, setAt_same])
    unfold Cache.store at hc
    split at hc
    · cases hc
      refine ⟨hok, h.distinct, h.home, h.fits, ?_, ?_, fun _ => h.quiet hne, fun x hx => .inr ?_, hlt,
        by simp⟩
      · have := h.pins
        simpa [unpinned, hpc, Cache.change] using this
      · have := h.copies
        simpa [copied, hpc, Cache.change] using this
      · by_cases hxb : x = s.log_hdr.block tail
        · rw [hxb]
          rfl
        · have := h.no_thread_changes hne x (by simpa [setAt_of_ne hxb] using hx)
          simp [changed, hpc] at this
    · cases hc
  | write =>
    obtain ⟨c, hc, rfl⟩ := Option.map_eq_some_iff.mp hs
    refine h.commit_write hne hc _ rfl (by simp [unpinned, hpc]) (by simp [copied, hpc])
      (by simp [changed, hpc]) hlt fun t ht => ?_
    cases ht
    rfl
  | unpin =>
    obtain ⟨c, hc, rfl⟩ := Option.map_eq_some_iff.mp hs
    have hpins := h.pins
    simp only [unpinned, hpc] at hpins
    have hp := (hpins (s.log_hdr.block tail)).mpr ⟨tail, Nat.le_refl _, hlt, rfl⟩
    have hok := h.ok.block_unpin hp (h.written tail hpc) hc
    unfold Cache.block_unpin at hc
    split at hc
    · cases hc
      refine ⟨hok, h.distinct, h.home, h.fits, fun x => ?_, ?_, fun _ => h.quiet hne, fun x hx => ?_,
        hlt, by simp⟩
      · show setAt s.cache.pinned (s.log_hdr.block tail) false x = true ↔
          ∃ i, tail + 1 ≤ i ∧ i < s.log_hdr.n ∧ s.log_hdr.block i = x
        by_cases hxb : x = s.log_hdr.block tail
        · rw [hxb, setAt_self]
          refine ⟨by simp, ?_⟩
          rintro ⟨i, hi, hin, hib⟩
          have := h.distinct i hin tail hlt hib
          omega
        · rw [setAt_of_ne hxb, hpins x]
          constructor
          · rintro ⟨i, hi, hin, hib⟩
            refine ⟨i, Nat.lt_of_le_of_ne hi ?_, hin, hib⟩
            rintro rfl
            exact hxb hib.symm
          · rintro ⟨i, hi, hin, hib⟩
            exact ⟨i, by omega, hin, hib⟩
      · have := h.copies
        simpa [copied, hpc, Cache.change] using this
      · have := h.no_thread_changes hne x hx
        simp [changed, hpc] at this
    · cases hc
  | release_log =>
    obtain ⟨c, hc, rfl⟩ := Option.map_eq_some_iff.mp hs
    have hd := h.not_dirty hne (b := start + tail + 1) (by simp [changed, hpc])
    exact h.commit_plain hne (h.ok.block_release hd hc).1 (plain_release hc) _ rfl
      (by simp [unpinned, hpc]) (by simp [copied, hpc]) (by simp [changed, hpc]) hlt (by simp)
  | release_dst =>
    obtain ⟨c, hc, rfl⟩ := Option.map_eq_some_iff.mp hs
    have hd := h.not_dirty hne (b := s.log_hdr.block tail) (by simp [changed, hpc])
    by_cases hnext : tail + 1 < s.log_hdr.n
    · simp only [if_pos hnext]
      exact h.commit_plain hne (h.ok.block_release hd hc).1 (plain_release hc) _ rfl
        (by simp [unpinned, hpc]) (by simp [copied, hpc]) (by simp [changed, hpc]) hnext (by simp)
    · simp only [if_neg hnext]
      refine h.commit_plain hne (h.ok.block_release hd hc).1 (plain_release hc) _ rfl ?_
        (by simp [copied]) (by simp [changed, hpc]) trivial (by simp)
      simp only [unpinned, hpc]
      omega

theorem State.Inv.commit (h : s.Inv start size) (hs : s.commit start = some s') :
    s'.Inv start size := by
  unfold State.commit at hs
  split at hs
  · next hpc =>
    split at hs
    · next hcond =>
      cases hs
      have hnot : ∀ x, s.cache.dirty x ≠ true := by
        intro x hx
        rcases h.dirty x hx with ⟨t, ht, -⟩ | hc
        · rw [hcond.1] at ht
          cases ht
        · simp [changed, hpc] at hc
      refine ⟨h.ok, h.distinct, h.home, h.fits, ?_, fun i hi => absurd hi (Nat.not_lt_zero i),
        fun _ => hcond.1, fun x hx => absurd hx (hnot x), hcond.2, nofun⟩
      have := h.pins
      simpa [unpinned, hpc] using this
    · cases hs
  · next hpc => exact h.write_log_at hpc hs
  · next hpc =>
    have hn : 0 < s.log_hdr.n := by simpa [InLoop, hpc] using h.inLoop
    refine h.write_head hpc hs (by rw [hpc]; nofun) (by simp [copied, hpc]) ?_ ?_
    · rintro c p (rfl | ⟨q, rfl⟩)
      · exact ⟨by simp [unpinned, hpc], by simp [copied, hpc], hn, nofun⟩
      · exact ⟨by simp [unpinned, hpc], by simp [copied, hpc], hn, nofun⟩
    · intro c q
      cases q <;> rfl
  · next hpc => exact h.install_at hpc hs
  · next hpc =>
    cases hs
    have hne : s.pc ≠ .idle := by rw [hpc]; nofun
    refine ⟨h.ok, fun i hi => absurd hi (Nat.not_lt_zero i), fun i hi => absurd hi (Nat.not_lt_zero i),
      Nat.zero_le _, fun x => ?_, fun i hi => absurd hi (Nat.not_lt_zero i), fun _ => h.quiet hne,
      fun x hx => ?_, rfl, nofun⟩
    · have := h.pins x
      simp only [unpinned, hpc] at this
      rw [this]
      constructor
      · rintro ⟨i, hi, hin, -⟩
        omega
      · rintro ⟨i, -, hin, -⟩
        exact absurd hin (Nat.not_lt_zero i)
    · have := h.no_thread_changes hne x hx
      simp [changed, hpc] at this
  · next hpc =>
    have hn : s.log_hdr.n = 0 := by simpa [InLoop, hpc] using h.inLoop
    refine h.write_head hpc hs (by rw [hpc]; nofun) (by simp [copied, hpc]) ?_ ?_
    · rintro c p (rfl | ⟨q, rfl⟩)
      · exact ⟨by simp [unpinned, hpc], by simp [copied], trivial, nofun⟩
      · exact ⟨by simp [unpinned, hpc], by simp [copied], hn, nofun⟩
    · intro c q
      cases q <;> rfl

theorem State.Inv.step (h : s.Inv start size) {a : Action} (hs : s.step start size a = some s') :
    s'.Inv start size := by
  cases a with
  | begin_op t =>
    obtain ⟨hcond, hs⟩ := Option.ite_none_right_eq_some.mp hs
    cases hs
    exact h.begin_op hcond.1
  | end_op t =>
    obtain ⟨hcond, hs⟩ := Option.ite_none_right_eq_some.mp hs
    cases hs
    exact h.end_op hcond.2
  | block_get t b =>
    cases hs
    exact h.thread_plain (h.ok.block_get _ _) (plain_get _ _ _) fun _ _ _ hu =>
      List.mem_cons_of_mem _ hu
  | block_lock t b =>
    obtain ⟨c, hc, rfl⟩ := Option.map_eq_some_iff.mp hs
    exact h.block_lock hc
  | modify t b f =>
    obtain ⟨hcond, hs⟩ := Option.ite_none_right_eq_some.mp hs
    obtain ⟨c, hc, rfl⟩ := Option.map_eq_some_iff.mp hs
    exact h.modify hcond.1 hc
  | log_write t b =>
    obtain ⟨⟨hmem, hb, hroom, ht⟩, hs⟩ := Option.ite_none_right_eq_some.mp hs
    cases hs
    exact h.log_write hmem hb hroom.2 ht
  | block_release t b =>
    obtain ⟨hd, hs⟩ := Option.ite_none_right_eq_some.mp hs
    obtain ⟨c, hc, rfl⟩ := Option.map_eq_some_iff.mp hs
    exact h.block_release hd hc
  | commit => exact h.commit hs

/-! ### What is evicted -/

/-- A step of the cache that deletes no block but one that `u` releases without changes. -/
def Evicts (c c' : Cache) : Prop :=
  (∀ b, c'.blocks b = none → c.blocks b = none) ∨
    ∃ u b, c.dirty b = false ∧ c.block_release u b = some c'

theorem change_evicts {c' : Cache} (f : Block → Block) (h : c'.blocks = (c.change b f).blocks) :
    Evicts c c' := by
  refine .inl fun x hx => ?_
  rw [h] at hx
  simp only [Cache.change, setAt_apply] at hx
  split at hx
  · next hxb =>
    rw [hxb]
    exact Option.map_eq_none_iff.mp hx
  · exact hx

theorem get_evicts (c : Cache) (u : User) (b : Nat) : Evicts c (c.block_get u b) := by
  refine .inl fun x hx => ?_
  by_cases hxb : x = b
  · subst hxb
    simp [Cache.block_get] at hx
  · simpa [Cache.block_get, setAt_of_ne hxb] using hx

theorem lock_evicts {c' : Cache} (h : c.block_lock u b = some c') : Evicts c c' := by
  unfold Cache.block_lock at h
  split at h
  · cases h; exact change_evicts _ rfl
  · cases h

theorem store_evicts {c' : Cache} {v : BlockData} (last : Disk) (h : c.store u b v = some c') :
    Evicts c { c' with last } := by
  unfold Cache.store at h
  split at h
  · cases h; exact change_evicts _ rfl
  · cases h

theorem write_evicts {c' : Cache} (h : c.block_write u b = some c') : Evicts c c' := by
  unfold Cache.block_write at h
  split at h
  · cases h; exact .inl fun _ hx => hx
  · cases h

theorem unpin_evicts {c' : Cache} (h : c.block_unpin u b = some c') : Evicts c c' := by
  unfold Cache.block_unpin at h
  split at h
  · cases h; exact change_evicts _ rfl
  · cases h

theorem write_head_evicts {here : HeadPc → Pc} {next : Pc} {pc : HeadPc}
    (hs : s.write_head start here next pc = some s')
    (hd : pc = .release → s.cache.dirty start = false) : Evicts s.cache s'.cache := by
  cases pc with
  | read => cases hs; exact get_evicts _ _ _
  | lock => obtain ⟨c, hc, rfl⟩ := Option.map_eq_some_iff.mp hs; exact lock_evicts hc
  | store => obtain ⟨c, hc, rfl⟩ := Option.map_eq_some_iff.mp hs; exact store_evicts _ hc
  | write => obtain ⟨c, hc, rfl⟩ := Option.map_eq_some_iff.mp hs; exact write_evicts hc
  | release => obtain ⟨c, hc, rfl⟩ := Option.map_eq_some_iff.mp hs; exact .inr ⟨_, _, hd rfl, hc⟩

theorem State.Inv.commit_evicts (h : s.Inv start size) (hs : s.commit start = some s') :
    Evicts s.cache s'.cache := by
  have clean : ∀ {b : Nat}, s.pc ≠ .idle → s.changed start = none → s.cache.dirty b = false :=
    fun hne hc => h.not_dirty hne (by rw [hc]; nofun)
  unfold State.commit at hs
  split at hs
  · split at hs
    · cases hs
      exact .inl fun _ hx => hx
    · cases hs
  · next tail pc hpc =>
    have hne : s.pc ≠ .idle := by rw [hpc]; nofun
    cases pc with
    | read_dst => cases hs; exact get_evicts _ _ _
    | lock_dst => obtain ⟨c, hc, rfl⟩ := Option.map_eq_some_iff.mp hs; exact lock_evicts hc
    | read_src => cases hs; exact get_evicts _ _ _
    | lock_src => obtain ⟨c, hc, rfl⟩ := Option.map_eq_some_iff.mp hs; exact lock_evicts hc
    | memmove =>
      obtain ⟨c, hc, rfl⟩ := Option.map_eq_some_iff.mp hs
      exact store_evicts _ (memmove_eq hc).2
    | write => obtain ⟨c, hc, rfl⟩ := Option.map_eq_some_iff.mp hs; exact write_evicts hc
    | release_src =>
      obtain ⟨c, hc, rfl⟩ := Option.map_eq_some_iff.mp hs
      exact .inr ⟨_, _, clean hne (by simp [changed, hpc]), hc⟩
    | release_dst =>
      obtain ⟨c, hc, rfl⟩ := Option.map_eq_some_iff.mp hs
      exact .inr ⟨_, _, clean hne (by simp [changed, hpc]), hc⟩
  · next pc hpc =>
    refine write_head_evicts hs fun hr => ?_
    exact clean (by rw [hpc]; nofun) (by simp [changed, hpc, hr])
  · next tail pc hpc =>
    have hne : s.pc ≠ .idle := by rw [hpc]; nofun
    cases pc with
    | read_log => cases hs; exact get_evicts _ _ _
    | lock_log => obtain ⟨c, hc, rfl⟩ := Option.map_eq_some_iff.mp hs; exact lock_evicts hc
    | read_dst => cases hs; exact get_evicts _ _ _
    | lock_dst => obtain ⟨c, hc, rfl⟩ := Option.map_eq_some_iff.mp hs; exact lock_evicts hc
    | memmove =>
      obtain ⟨c, hc, rfl⟩ := Option.map_eq_some_iff.mp hs
      exact store_evicts c.last (memmove_eq hc).2
    | write => obtain ⟨c, hc, rfl⟩ := Option.map_eq_some_iff.mp hs; exact write_evicts hc
    | unpin => obtain ⟨c, hc, rfl⟩ := Option.map_eq_some_iff.mp hs; exact unpin_evicts hc
    | release_log =>
      obtain ⟨c, hc, rfl⟩ := Option.map_eq_some_iff.mp hs
      exact .inr ⟨_, _, clean hne (by simp [changed, hpc]), hc⟩
    | release_dst =>
      obtain ⟨c, hc, rfl⟩ := Option.map_eq_some_iff.mp hs
      exact .inr ⟨_, _, clean hne (by simp [changed, hpc]), hc⟩
  · cases hs
    exact .inl fun _ hx => hx
  · next pc hpc =>
    refine write_head_evicts hs fun hr => ?_
    exact clean (by rw [hpc]; nofun) (by simp [changed, hpc, hr])

theorem State.Inv.evicts (h : s.Inv start size) {a : Action} (hs : s.step start size a = some s') :
    Evicts s.cache s'.cache := by
  cases a with
  | begin_op t =>
    obtain ⟨-, hs⟩ := Option.ite_none_right_eq_some.mp hs
    cases hs
    exact .inl fun _ hx => hx
  | end_op t =>
    obtain ⟨-, hs⟩ := Option.ite_none_right_eq_some.mp hs
    cases hs
    exact .inl fun _ hx => hx
  | block_get t b => cases hs; exact get_evicts _ _ _
  | block_lock t b => obtain ⟨c, hc, rfl⟩ := Option.map_eq_some_iff.mp hs; exact lock_evicts hc
  | modify t b f =>
    obtain ⟨-, hs⟩ := Option.ite_none_right_eq_some.mp hs
    obtain ⟨c, hc, rfl⟩ := Option.map_eq_some_iff.mp hs
    exact store_evicts _ hc
  | log_write t b =>
    obtain ⟨-, hs⟩ := Option.ite_none_right_eq_some.mp hs
    cases hs
    unfold State.log_write
    dsimp only
    split
    · exact change_evicts _ rfl
    · exact .inl fun _ hx => hx
  | block_release t b =>
    obtain ⟨hd, hs⟩ := Option.ite_none_right_eq_some.mp hs
    obtain ⟨c, hc, rfl⟩ := Option.map_eq_some_iff.mp hs
    exact .inr ⟨_, _, hd, hc⟩
  | commit => exact h.commit_evicts hs

/-! ### Coherence -/

/-- Entry `i` of the header names block `b`, and its pin is not gone. -/
def State.Pinned (s : State) (b : Nat) : Prop :=
  ∃ i, s.unpinned ≤ i ∧ i < s.log_hdr.n ∧ s.log_hdr.block i = b

instance (s : State) (b : Nat) : Decidable (s.Pinned b) :=
  decidable_of_iff (∃ i : Fin s.log_hdr.n, s.unpinned ≤ i.val ∧ s.log_hdr.block i = b)
    ⟨fun ⟨i, h1, h2⟩ => ⟨i, h1, i.isLt, h2⟩, fun ⟨i, h1, h2, h3⟩ => ⟨⟨i, h2⟩, h1, h3⟩⟩

/-- The cache is coherent with the log: whoever holds a block sees what was written last to it, the
references to a block are those of the readers that wait for it or hold it and that of its pin, and
the blocks in the header are distinct, and cached as long as they are pinned.  Between two commits
all of them are pinned.  A block that is deleted is as on the image, and so is every block after a
commit, which leaves no pin. -/
structure Coherent (start size : Nat) (s : State) : Prop where
  read : ∀ x ∈ s.cache.uses, x.locked = true → s.cache.data x.block = s.cache.last x.block
  mapped : ∀ x ∈ s.cache.uses, s.cache.blocks x.block ≠ none
  refs : ∀ b blk, s.cache.blocks b = some blk →
    blk.refcnt = s.cache.holders b + if s.Pinned b then 1 else 0
  distinct : s.log_hdr.Distinct
  cached : ∀ b, s.Pinned b → ∃ blk, s.cache.blocks b = some blk
  idle : s.pc = .idle → ∀ b, s.Pinned b ↔ s.log_hdr.Has b
  evicted : ∀ a s' b blk, s.step start size a = some s' → s.cache.blocks b = some blk →
    s'.cache.blocks b = none → blk.data = s.cache.disk b
  committed : ∀ s', s.pc ≠ .idle → s.step start size .commit = some s' → s'.pc = .idle →
    (∀ b, ¬s'.Pinned b) ∧ ∀ b, s'.cache.disk b = s'.cache.last b ∧
      ∀ blk, s'.cache.blocks b = some blk → blk.valid = true → blk.data = s'.cache.disk b

/-- What `commit` leaves when it returns. -/
theorem State.Inv.committed (h : s.Inv start size) (hpc : s.pc ≠ .idle)
    (hs : s.commit start = some s') (hidle : s'.pc = .idle) :
    s'.outstanding = [] ∧ s'.log_hdr.n = 0 := by
  unfold State.commit at hs
  split at hs
  · next hp => exact absurd hp hpc
  · next tail pc hp =>
    cases pc <;>
      first
      | (obtain ⟨c, hc, rfl⟩ := Option.map_eq_some_iff.mp hs
         dsimp only at hidle
         split at hidle <;> cases hidle)
      | (obtain ⟨c, hc, rfl⟩ := Option.map_eq_some_iff.mp hs; cases hidle)
      | (cases hs; cases hidle)
  · next pc hp =>
    cases pc <;>
      first
      | (obtain ⟨c, hc, rfl⟩ := Option.map_eq_some_iff.mp hs; cases hidle)
      | (cases hs; cases hidle)
  · next tail pc hp =>
    cases pc <;>
      first
      | (obtain ⟨c, hc, rfl⟩ := Option.map_eq_some_iff.mp hs
         dsimp only at hidle
         split at hidle <;> cases hidle)
      | (obtain ⟨c, hc, rfl⟩ := Option.map_eq_some_iff.mp hs; cases hidle)
      | (cases hs; cases hidle)
  · cases hs
    cases hidle
  · next pc hp =>
    have hn : s.log_hdr.n = 0 := by simpa [InLoop, hp] using h.inLoop
    cases pc with
    | release =>
      obtain ⟨c, hc, rfl⟩ := Option.map_eq_some_iff.mp hs
      exact ⟨h.quiet hpc, hn⟩
    | read => cases hs; cases hidle
    | lock => obtain ⟨c, hc, rfl⟩ := Option.map_eq_some_iff.mp hs; cases hidle
    | store => obtain ⟨c, hc, rfl⟩ := Option.map_eq_some_iff.mp hs; cases hidle
    | write => obtain ⟨c, hc, rfl⟩ := Option.map_eq_some_iff.mp hs; cases hidle

theorem State.Inv.coherent (h : s.Inv start size) : Coherent start size s := by
  refine ⟨fun x hx hl => ?_, fun x hx hnone => ?_, fun b blk hblk => ?_, h.distinct, fun b hb => ?_,
    fun hidle b => ?_, fun a s' b blk hs hblk hnone => ?_, fun s' hpc hs hidle => ?_⟩
  · refine Cache.Valid.data_eq ((h.ok x.block).locked ?_) h.ok
    exact List.countP_pos_iff.mpr ⟨x, hx, by simp [hl]⟩
  · have hr := (h.ok x.block).refs
    rw [Cache.refs_of_none hnone] at hr
    have : 0 < s.cache.holders x.block := List.countP_pos_iff.mpr ⟨x, hx, by simp⟩
    omega
  · have hr := (h.ok b).refs
    rw [Cache.refs_of_some hblk] at hr
    rw [hr]
    congr 1
    by_cases hp : s.Pinned b
    · rw [if_pos hp, (h.pins b).mpr hp]
      rfl
    · rw [if_neg hp]
      cases hpin : s.cache.pinned b with
      | false => rfl
      | true => exact absurd ((h.pins b).mp hpin) hp
  · obtain ⟨blk, hblk, -⟩ := (h.ok b).pinned ((h.pins b).mpr hb)
    exact ⟨blk, hblk⟩
  · simp [State.Pinned, unpinned, hidle, LogHeader.Has]
  · rcases h.evicts hs with hkeep | ⟨u, b', hd, hrel⟩
    · rw [hkeep b hnone] at hblk
      cases hblk
    · by_cases hbb : b = b'
      · subst hbb
        have := (h.ok.block_release hd hrel).2 hnone
        rw [Cache.data, hblk] at this
        exact this
      · have hsame : s'.cache.blocks b = s.cache.blocks b := by
          unfold Cache.block_release at hrel
          split at hrel
          · rw [← Option.some.inj hrel]
            exact setAt_of_ne hbb
          · cases hrel
        rw [hsame, hblk] at hnone
        cases hnone
  · have h' := h.step hs
    obtain ⟨hout, hn⟩ := h.committed hpc hs hidle
    have hpins : ∀ b, ¬s'.Pinned b := by
      rintro b ⟨i, -, hi, -⟩
      rw [hn] at hi
      exact absurd hi (Nat.not_lt_zero i)
    have hdisk : ∀ b, s'.cache.disk b = s'.cache.last b := by
      intro b
      refine (h'.ok b).clean ?_ ?_
      · cases hp : s'.cache.pinned b with
        | false => rfl
        | true => exact absurd ((h'.pins b).mp hp) (hpins b)
      · cases hd : s'.cache.dirty b with
        | false => rfl
        | true =>
          rcases h'.dirty b hd with ⟨t, ht, -⟩ | hc
          · rw [hout] at ht
            cases ht
          · simp [changed, hidle] at hc
    exact ⟨hpins, fun b => ⟨hdisk b, fun blk hblk hv => ((h'.ok b).data blk hblk hv).trans (hdisk b).symm⟩⟩

/-- An operation that changes a block, another thread that waits for it meanwhile, and a whole
commit. -/
def oneCommit : List Action :=
  [.begin_op 0, .block_get 0 100, .block_lock 0 100, .block_get 1 100, .modify 0 100 Machine.marked,
    .log_write 0 100, .block_release 0 100, .end_op 0, .block_lock 1 100, .block_release 1 100] ++
    List.replicate 29 .commit

end Xv6fs.Log.Coherence
