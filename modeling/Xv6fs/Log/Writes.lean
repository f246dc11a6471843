import Xv6fs.Log.Basic

/-! What each block write of the log does to the image and to the cache.  The log's own blocks are
not cached between two of its steps, so a step leaves the cache as it was, except that installing
a block drops its pin. -/

namespace Xv6fs

open Function (update update_self update_of_ne)

namespace LogHeader

/-- The header block after the first `k` entries have been stored. -/
theorem store_fold (h : LogHeader) (old : BlockData) (hn : h.n < 2 ^ 32)
    (hb : ∀ i < h.n, h.block i < 2 ^ 32) {k : Nat} (hk : k ≤ h.n) (hfit : 4 + 4 * k ≤ BSIZE) :
    let d := (List.range k).foldl (fun d i => d.put32 (4 + 4 * i) (UInt32.ofNat (h.block i)))
      (old.put32 0 (UInt32.ofNat h.n))
    (d.get32 0).toNat = h.n ∧ ∀ i < k, (d.get32 (4 + 4 * i)).toNat = h.block i := by
  induction k with
  | zero =>
    refine ⟨?_, fun i hi => absurd hi (Nat.not_lt_zero i)⟩
    simp only [List.range_zero, List.foldl_nil]
    rw [Bytes.Buffer.get32_put32_same _ _ (by decide), UInt32.toNat_ofNat_of_lt' hn]
  | succ k ih =>
    obtain ⟨h0, hi⟩ := ih (by omega) (by omega)
    simp only [List.range_succ, List.foldl_append, List.foldl_cons, List.foldl_nil]
    refine ⟨?_, fun i hik => ?_⟩
    · rw [Bytes.Buffer.get32_put32_ne _ _ (by omega)]
      exact h0
    · by_cases hlast : i = k
      · subst hlast
        rw [Bytes.Buffer.get32_put32_same _ _ (by omega),
          UInt32.toNat_ofNat_of_lt' (hb i (by omega))]
      · rw [Bytes.Buffer.get32_put32_ne _ _ (by omega)]
        exact hi i (by omega)

/-- `read_head` loads what `write_head` has stored. -/
theorem load_store (h h' : LogHeader) (old : BlockData) (hn : h.n ≤ LOG_SIZE)
    (hb : ∀ i < h.n, h.block i < 2 ^ 32) :
    (h'.load (h.store old)).n = h.n ∧
      ∀ i < h.n, (h'.load (h.store old)).block i = h.block i := by
  simp only [LOG_SIZE, MAX_OP_BLOCKS] at hn
  obtain ⟨h0, hi⟩ := store_fold h old (by omega) hb (Nat.le_refl _) (by simp only [BSIZE]; omega)
  refine ⟨h0, fun i hik => ?_⟩
  have hlt : i < ((h.store old).get32 0).toNat := by rw [store, h0]; exact hik
  simp only [load, hlt, if_true]
  exact hi i hik

/-- Storing an empty header where the header is empty changes nothing. -/
theorem store_empty {h : LogHeader} {old : BlockData} (hn : h.n = 0)
    (hold : (old.get32 0).toNat = 0) : h.store old = old := by
  have h0 : old.get32 0 = UInt32.ofNat 0 := by
    apply UInt32.toNat_inj.mp
    simpa using hold
  simp only [store, hn, List.range_zero, List.foldl_nil]
  rw [← h0, Bytes.Buffer.put32_get32]

end LogHeader

namespace Log

variable {start tail : Nat} {m : LogMem}

/-- `read_head` changes only the header in memory. -/
theorem read_head_eq (h : m.cache.blocks start = none) :
    read_head start m = ⟨m.cache, m.log_hdr.load (m.cache.disk start)⟩ := by
  rcases m with ⟨⟨disk, blocks⟩, hdr⟩
  simp only at h
  simp [read_head, BlockCache.block_read, BlockCache.block_release, BlockCache.refs,
    BlockCache.content, h]

/-- `write_head` stores the header in the header block of the image. -/
theorem write_head_eq (h : m.cache.blocks start = none) :
    write_head start m =
      { m with cache := ⟨update m.cache.disk start (m.log_hdr.store (m.cache.disk start)),
        m.cache.blocks⟩ } := by
  rcases m with ⟨⟨disk, blocks⟩, hdr⟩
  simp only at h
  simp [write_head, BlockCache.block_read, BlockCache.modify, BlockCache.block_write,
    BlockCache.block_release, BlockCache.refs, BlockCache.content, h]

/-- An iteration of `write_log` copies the block to its place in the log. -/
theorem write_log_at_eq (hlive : m.cache.Live) (h : m.cache.blocks (start + tail + 1) = none)
    (hne : m.log_hdr.block tail ≠ start + tail + 1) :
    write_log_at start m tail =
      { m with cache := ⟨update m.cache.disk (start + tail + 1)
        (m.cache.content (m.log_hdr.block tail)), m.cache.blocks⟩ } := by
  rcases m with ⟨⟨disk, blocks⟩, hdr⟩
  simp only at h hne
  generalize hdst : start + tail + 1 = dst at h hne ⊢
  generalize hsrc : hdr.block tail = src at hne ⊢
  cases hs : blocks src with
  | none =>
    simp [write_log_at, BlockCache.block_read, BlockCache.modify, BlockCache.block_write,
      BlockCache.block_release, BlockCache.refs, BlockCache.content, h, hs, hdst, hsrc, hne,
      hne.symm]
    funext x
    by_cases hx : x = dst
    · subst hx; simp [h]
    · by_cases hx' : x = src
      · subst hx'; simp [hs, hx]
      · simp [hx, hx']
  | some blk =>
    have hpos := hlive src blk hs
    simp [write_log_at, BlockCache.block_read, BlockCache.modify, BlockCache.block_write,
      BlockCache.block_release, BlockCache.refs, BlockCache.content, h, hs, hdst, hsrc, hne,
      hne.symm, Nat.ne_of_gt hpos]
    funext x
    by_cases hx : x = dst
    · subst hx; simp [h]
    · by_cases hx' : x = src
      · subst hx'; simp [hs, hx]
      · simp [hx, hx']

/-- An iteration of `commit` writes the logged copy to a pinned block's home and drops the pin. -/
theorem install_at_eq {blk : Block} (h : m.cache.blocks (start + tail + 1) = none)
    (hne : m.log_hdr.block tail ≠ start + tail + 1)
    (hs : m.cache.blocks (m.log_hdr.block tail) = some blk) :
    install_at start m tail =
      { m with cache := ⟨update m.cache.disk (m.log_hdr.block tail)
        (m.cache.disk (start + tail + 1)),
        update m.cache.blocks (m.log_hdr.block tail) (if blk.refcnt - 1 = 0 then none
          else some ⟨blk.refcnt - 1, m.cache.disk (start + tail + 1)⟩)⟩ } := by
  rcases m with ⟨⟨disk, blocks⟩, hdr⟩
  simp only at h hne hs
  generalize hdst : start + tail + 1 = dst at h hne ⊢
  generalize hsrc : hdr.block tail = src at hne hs ⊢
  simp [install_at, BlockCache.block_read, BlockCache.modify, BlockCache.block_write,
    BlockCache.block_release, BlockCache.block_unpin, BlockCache.refs, BlockCache.content, h, hs,
    hdst, hsrc, hne, hne.symm]
  funext x
  by_cases hx : x = dst
  · subst hx; simp [h, hne.symm]
  · by_cases hx' : x = src
    · subst hx'; simp
    · simp [hx, hx']

/-- An iteration of `recover_from_log` writes the logged copy to the block's home. -/
theorem recover_at_eq (h : m.cache.blocks (start + tail + 1) = none)
    (hne : m.log_hdr.block tail ≠ start + tail + 1)
    (hs : m.cache.blocks (m.log_hdr.block tail) = none) :
    recover_at start m tail =
      { m with cache := ⟨update m.cache.disk (m.log_hdr.block tail)
        (m.cache.disk (start + tail + 1)), m.cache.blocks⟩ } := by
  rcases m with ⟨⟨disk, blocks⟩, hdr⟩
  simp only at h hne hs
  generalize hdst : start + tail + 1 = dst at h hne ⊢
  generalize hsrc : hdr.block tail = src at hne hs ⊢
  simp [recover_at, BlockCache.block_read, BlockCache.modify, BlockCache.block_write,
    BlockCache.block_release, BlockCache.refs, BlockCache.content, h, hs, hdst, hsrc, hne,
    hne.symm]
  funext x
  by_cases hx : x = dst
  · subst hx; simp [h, hne.symm]
  · by_cases hx' : x = src
    · subst hx'; simp [hs]
    · simp [hx, hx']

end Log

end Xv6fs
