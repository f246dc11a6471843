import Xv6fs.Common

/-! The block cache over the mapped image: `BlockCache.cxx` and `PosixEnv.h`. -/

namespace Xv6fs

open Function (update update_self update_of_ne)

/-- A block in the cache.  `block_read` has filled it, so its `valid` flag is set. -/
structure Block where
  refcnt : Nat
  data : BlockData

/-- The image and the map of cached blocks over it. -/
structure BlockCache where
  disk : Disk
  blocks : Nat → Option Block

namespace BlockCache

/-- The content of block `b` that `block_read` finds: the cached data, or else the image's. -/
def content (c : BlockCache) (b : Nat) : BlockData :=
  match c.blocks b with
  | some blk => blk.data
  | none => c.disk b

/-- The reference count of block `b`, and `0` when it is not cached. -/
def refs (c : BlockCache) (b : Nat) : Nat :=
  match c.blocks b with
  | some blk => blk.refcnt
  | none => 0

/-- One more reference to block `b`, which is read from the image when it is not cached. -/
def block_read (c : BlockCache) (b : Nat) : BlockCache :=
  { c with blocks := update c.blocks b (some ⟨c.refs b + 1, c.content b⟩) }

/-- In-place modification of the data of a cached block. -/
def modify (c : BlockCache) (b : Nat) (f : BlockData → BlockData) : BlockCache :=
  { c with blocks := update c.blocks b ((c.blocks b).map fun blk => { blk with data := f blk.data }) }

def block_write (c : BlockCache) (b : Nat) : BlockCache :=
  { c with disk := update c.disk b (c.content b) }

/-- One reference less to block `b`, which is deleted with its last reference. -/
def block_release (c : BlockCache) (b : Nat) : BlockCache :=
  { c with blocks := update c.blocks b ((c.blocks b).bind fun blk =>
      if blk.refcnt - 1 = 0 then none else some { blk with refcnt := blk.refcnt - 1 }) }

def block_pin (c : BlockCache) (b : Nat) : BlockCache :=
  { c with blocks := update c.blocks b ((c.blocks b).map fun blk =>
      { blk with refcnt := blk.refcnt + 1 }) }

/-- One reference less to block `b`, which stays in the map even without references. -/
def block_unpin (c : BlockCache) (b : Nat) : BlockCache :=
  { c with blocks := update c.blocks b ((c.blocks b).map fun blk =>
      { blk with refcnt := blk.refcnt - 1 }) }

/-- No cached block is without references. -/
def Live (c : BlockCache) : Prop := ∀ b blk, c.blocks b = some blk → 0 < blk.refcnt

theorem content_of_none {c : BlockCache} {b : Nat} (h : c.blocks b = none) :
    c.content b = c.disk b := by
  simp [content, h]

theorem content_of_some {c : BlockCache} {b : Nat} {blk : Block} (h : c.blocks b = some blk) :
    c.content b = blk.data := by
  simp [content, h]

theorem Live.none_of_refs {c : BlockCache} (hc : c.Live) {b : Nat} (h : c.refs b = 0) :
    c.blocks b = none := by
  cases hb : c.blocks b with
  | none => rfl
  | some blk =>
    have := hc b blk hb
    simp [refs, hb] at h
    omega

/-- A cached block after an update of the map. -/
theorem content_update {d : Disk} {blocks : Nat → Option Block} {b x r : Nat} {v : BlockData} :
    content ⟨d, update blocks b (some ⟨r, v⟩)⟩ x = if x = b then v else content ⟨d, blocks⟩ x := by
  by_cases hx : x = b
  · subst hx; simp [content]
  · simp [content, hx]

theorem refs_update {d : Disk} {blocks : Nat → Option Block} {b x r : Nat} {v : BlockData} :
    refs ⟨d, update blocks b (some ⟨r, v⟩)⟩ x = if x = b then r else refs ⟨d, blocks⟩ x := by
  by_cases hx : x = b
  · subst hx; simp [refs]
  · simp [refs, hx]

theorem Live.update {c : BlockCache} (hc : c.Live) (d : Disk) {b r : Nat} {v : BlockData}
    (hr : 0 < r) : Live ⟨d, update c.blocks b (some ⟨r, v⟩)⟩ := by
  intro x blk hx
  by_cases hxb : x = b
  · subst hxb
    simp only [update_self, Option.some.injEq] at hx
    subst hx
    exact hr
  · simp only [update_of_ne hxb] at hx
    exact hc x blk hx

theorem exists_of_refs {c : BlockCache} {b : Nat} (h : 0 < c.refs b) :
    ∃ blk, c.blocks b = some blk ∧ blk.refcnt = c.refs b := by
  cases hb : c.blocks b with
  | none => simp [refs, hb] at h
  | some blk => exact ⟨blk, rfl, by simp [refs, hb]⟩

/-- Reading a block and modifying it in place. -/
theorem modify_block_read (c : BlockCache) (b : Nat) (f : BlockData → BlockData) :
    (c.block_read b).modify b f =
      ⟨c.disk, update c.blocks b (some ⟨c.refs b + 1, f (c.content b)⟩)⟩ := by
  simp [block_read, modify]

/-- A block with another reference stays cached when it is released. -/
theorem block_release_of_refs {c : BlockCache} {b : Nat} (h : 2 ≤ c.refs b) :
    c.block_release b = ⟨c.disk, update c.blocks b (some ⟨c.refs b - 1, c.content b⟩)⟩ := by
  obtain ⟨blk, hblk, hrefs⟩ := exists_of_refs (c := c) (b := b) (by omega)
  have hne : ¬blk.refcnt - 1 = 0 := by omega
  simp [block_release, hblk, hne, refs, content]

/-- A block that is pinned and then released is as it was. -/
theorem block_release_block_pin {c : BlockCache} {b : Nat} (h : 0 < c.refs b) :
    (c.block_pin b).block_release b = c := by
  obtain ⟨blk, hblk, hrefs⟩ := exists_of_refs h
  rcases c with ⟨disk, blocks⟩
  simp only at hblk
  simp [block_pin, block_release, hblk, Nat.ne_of_gt (hrefs ▸ h)]

end BlockCache

end Xv6fs
