import Xv6fs.Log.Machine

/-! The block cache under threads that read, modify, log and release blocks in any order that the
block locks allow, while `commit` runs when no operation is outstanding.  The atomic steps are those
of `BlockCache.cxx`: a `block_get` up to its wait for the lock of the block, the rest of the
`block_read`, a change of the data of a locked block, `block_write`, `block_pin`, `block_unpin` and
`block_release`. -/

namespace Xv6fs.Log.Coherence

/-- A block in the map of the cache. -/
structure Block where
  refcnt : Nat
  valid : Bool
  data : BlockData

/-- Who reads a block: a thread, or the thread that runs `commit`, in `commit`. -/
inductive User
  | thread (t : Nat)
  | commit
  deriving DecidableEq

/-- A call of `block_read` whose block is not released: it waits for the lock or holds it. -/
structure Use where
  user : User
  block : Nat
  locked : Bool
  deriving DecidableEq

/-- The image and the map of the cache over it, the reads of its blocks, what was written last to
each block, the blocks with changes that are neither logged nor written, and the pinned blocks. -/
structure Cache where
  disk : Disk
  blocks : Nat → Option Block
  uses : List Use
  last : Disk
  dirty : Nat → Bool
  pinned : Nat → Bool

namespace Cache

variable (c : Cache) (u : User) (b : Nat)

/-- The number of reads that wait for block `b` or hold it. -/
def holders : Nat := c.uses.countP fun x => x.block = b

/-- The number of reads that hold the lock of block `b`. -/
def locks : Nat := c.uses.countP fun x => x.block = b ∧ x.locked

/-- A change of block `b` in the map. -/
def change (f : Block → Block) : Cache :=
  { c with blocks := setAt c.blocks b ((c.blocks b).map f) }

/-- `block_get`, up to its wait for the lock. -/
def block_get : Cache :=
  let blk := match c.blocks b with
    | some blk => { blk with refcnt := blk.refcnt + 1 }
    | none => ⟨1, false, Bytes.Buffer.zero BSIZE⟩
  { c with blocks := setAt c.blocks b (some blk), uses := ⟨u, b, false⟩ :: c.uses }

/-- The rest of `block_read`, once nobody holds the lock. -/
def block_lock : Option Cache :=
  if ⟨u, b, false⟩ ∈ c.uses ∧ c.locks b = 0 then
    some { c.change b fun blk =>
        if blk.valid then blk else { blk with valid := true, data := c.disk b } with
      uses := ⟨u, b, true⟩ :: c.uses.erase ⟨u, b, false⟩ }
  else none

/-- The data of block `b`. -/
def data : BlockData :=
  match c.blocks b with
  | some blk => blk.data
  | none => c.disk b

/-- A store to the data of block `b`, which `u` holds. -/
def store (v : BlockData) : Option Cache :=
  if ⟨u, b, true⟩ ∈ c.uses then
    some { c.change b fun blk => { blk with data := v } with dirty := setAt c.dirty b true }
  else none

/-- A copy of the data of block `src` to block `dst`, both of which `u` holds. -/
def memmove (dst src : Nat) : Option Cache :=
  if ⟨u, src, true⟩ ∈ c.uses then c.store u dst (c.data src) else none

/-- What was written last to block `b` is now `v`. -/
def wrote (v : BlockData) : Cache := { c with last := setAt c.last b v }

/-- `block_write` of block `b`, which `u` holds. -/
def block_write : Option Cache :=
  if ⟨u, b, true⟩ ∈ c.uses then
    some { c with disk := setAt c.disk b (c.data b), dirty := setAt c.dirty b false }
  else none

def block_pin : Cache :=
  { c.change b fun blk => { blk with refcnt := blk.refcnt + 1 } with
    pinned := setAt c.pinned b true }

/-- `block_unpin` of block `b`, which `u` holds. -/
def block_unpin : Option Cache :=
  if ⟨u, b, true⟩ ∈ c.uses then
    some { c.change b fun blk => { blk with refcnt := blk.refcnt - 1 } with
      pinned := setAt c.pinned b false }
  else none

/-- `block_release`, which deletes a block without references. -/
def block_release : Option Cache :=
  if ⟨u, b, true⟩ ∈ c.uses then
    some { c with
      blocks := setAt c.blocks b ((c.blocks b).bind fun blk =>
        if blk.refcnt - 1 = 0 then none else some { blk with refcnt := blk.refcnt - 1 })
      uses := c.uses.erase ⟨u, b, true⟩ }
  else none

end Cache

/-- Where `write_log` is in an iteration. -/
inductive CopyPc
  | read_dst
  | lock_dst
  | read_src
  | lock_src
  | memmove
  | write
  | release_src
  | release_dst
  deriving DecidableEq

/-- Where `write_head` is. -/
inductive HeadPc
  | read
  | lock
  | store
  | write
  | release
  deriving DecidableEq

/-- Where the loop of `commit` is in an iteration. -/
inductive InstallPc
  | read_log
  | lock_log
  | read_dst
  | lock_dst
  | memmove
  | write
  | unpin
  | release_log
  | release_dst
  deriving DecidableEq

/-- Where `commit` is, if it runs. -/
inductive Pc
  | idle
  | write_log (tail : Nat) (pc : CopyPc)
  | write_head (pc : HeadPc)
  | install (tail : Nat) (pc : InstallPc)
  | clear
  | erase (pc : HeadPc)
  deriving DecidableEq

/-- The cache, the header in memory, the threads in an operation, and `commit`. -/
structure State where
  cache : Cache
  log_hdr : LogHeader
  outstanding : List Nat
  pc : Pc

/-- A step of thread `t` or of `commit`. -/
inductive Action
  | begin_op (t : Nat)
  | end_op (t : Nat)
  | block_get (t b : Nat)
  | block_lock (t b : Nat)
  | modify (t b : Nat) (f : BlockData → BlockData)
  | log_write (t b : Nat)
  | block_release (t b : Nat)
  | commit

variable (start size : Nat)

namespace State

variable (s : State)

/-- A step of `write_log` in the iteration for `tail`. -/
def write_log_at (tail : Nat) (pc : CopyPc) : Option State :=
  let dst := start + tail + 1
  let src := s.log_hdr.block tail
  let goto (c : Cache) (pc : CopyPc) : State := { s with cache := c, pc := .write_log tail pc }
  match pc with
  | .read_dst => some (goto (s.cache.block_get .commit dst) .lock_dst)
  | .lock_dst => (s.cache.block_lock .commit dst).map fun c => goto c .read_src
  | .read_src => some (goto (s.cache.block_get .commit src) .lock_src)
  | .lock_src => (s.cache.block_lock .commit src).map fun c => goto c .memmove
  | .memmove =>
    (s.cache.memmove .commit dst src).map fun c => goto (c.wrote dst (s.cache.data src)) .write
  | .write => (s.cache.block_write .commit dst).map fun c => goto c .release_src
  | .release_src => (s.cache.block_release .commit src).map fun c => goto c .release_dst
  | .release_dst => (s.cache.block_release .commit dst).map fun c =>
    { s with cache := c, pc :=
        if tail + 1 < s.log_hdr.n then .write_log (tail + 1) .read_dst else .write_head .read }

/-- A step of `write_head`, with `here` to stay in it and `next` after it. -/
def write_head (here : HeadPc → Pc) (next : Pc) (pc : HeadPc) : Option State :=
  let goto (c : Cache) (pc : Pc) : State := { s with cache := c, pc }
  match pc with
  | .read => some (goto (s.cache.block_get .commit start) (here .lock))
  | .lock => (s.cache.block_lock .commit start).map fun c => goto c (here .store)
  | .store =>
    let v := s.log_hdr.store (s.cache.data start)
    (s.cache.store .commit start v).map fun c => goto (c.wrote start v) (here .write)
  | .write => (s.cache.block_write .commit start).map fun c => goto c (here .release)
  | .release => (s.cache.block_release .commit start).map fun c => goto c next

/-- A step of the loop of `commit` in the iteration for `tail`. -/
def install_at (tail : Nat) (pc : InstallPc) : Option State :=
  let log := start + tail + 1
  let dst := s.log_hdr.block tail
  let goto (c : Cache) (pc : InstallPc) : State := { s with cache := c, pc := .install tail pc }
  match pc with
  | .read_log => some (goto (s.cache.block_get .commit log) .lock_log)
  | .lock_log => (s.cache.block_lock .commit log).map fun c => goto c .read_dst
  | .read_dst => some (goto (s.cache.block_get .commit dst) .lock_dst)
  | .lock_dst => (s.cache.block_lock .commit dst).map fun c => goto c .memmove
  | .memmove => (s.cache.memmove .commit dst log).map fun c => goto c .write
  | .write => (s.cache.block_write .commit dst).map fun c => goto c .unpin
  | .unpin => (s.cache.block_unpin .commit dst).map fun c => goto c .release_log
  | .release_log => (s.cache.block_release .commit log).map fun c => goto c .release_dst
  | .release_dst => (s.cache.block_release .commit dst).map fun c =>
    { s with cache := c, pc := if tail + 1 < s.log_hdr.n then .install (tail + 1) .read_log else .clear }

/-- A step of `commit`, which starts when no operation is outstanding. -/
def commit : Option State :=
  match s.pc with
  | .idle =>
    if s.outstanding = [] ∧ s.log_hdr.n > 0 then some { s with pc := .write_log 0 .read_dst }
    else none
  | .write_log tail pc => s.write_log_at start tail pc
  | .write_head pc => s.write_head start .write_head (.install 0 .read_log) pc
  | .install tail pc => s.install_at start tail pc
  | .clear => some { s with log_hdr := { s.log_hdr with n := 0 }, pc := .erase .read }
  | .erase pc => s.write_head start .erase .idle pc

/-- `log_write` of block `b`. -/
def log_write (b : Nat) : State :=
  let i := s.log_hdr.index b
  let block := setAt s.log_hdr.block i b
  let clean : Cache := { s.cache with dirty := setAt s.cache.dirty b false }
  if i = s.log_hdr.n then
    { s with cache := clean.block_pin b, log_hdr := ⟨s.log_hdr.n + 1, block⟩ }
  else { s with cache := clean, log_hdr := ⟨s.log_hdr.n, block⟩ }

/-- A step of the system.  A step that waits cannot be taken, and neither can one that fails an
assertion.  A thread modifies home blocks that it holds, in an operation, and logs them before it
releases them. -/
def step : Action → Option State
  | .begin_op t =>
    if s.pc = .idle ∧ t ∉ s.outstanding ∧
        ¬s.log_hdr.n + (s.outstanding.length + 1) * MAX_OP_BLOCKS > LOG_SIZE then
      some { s with outstanding := t :: s.outstanding }
    else none
  | .end_op t =>
    if t ∈ s.outstanding ∧
        ∀ x ∈ s.cache.uses, x.user = .thread t → x.locked → s.cache.dirty x.block = false then
      some { s with outstanding := s.outstanding.erase t }
    else none
  | .block_get t b => some { s with cache := s.cache.block_get (.thread t) b }
  | .block_lock t b => (s.cache.block_lock (.thread t) b).map fun c => { s with cache := c }
  | .modify t b f =>
    if t ∈ s.outstanding ∧ Home start size b then
      (s.cache.store (.thread t) b (f (s.cache.data b))).map fun c =>
        { s with cache := c.wrote b (f (s.cache.data b)) }
    else none
  | .log_write t b =>
    if ⟨.thread t, b, true⟩ ∈ s.cache.uses ∧ Home start size b ∧
        (s.log_hdr.n < LOG_SIZE ∧ s.log_hdr.n < size - 1) ∧ t ∈ s.outstanding then
      some (s.log_write b)
    else none
  | .block_release t b =>
    if s.cache.dirty b = false then
      (s.cache.block_release (.thread t) b).map fun c => { s with cache := c }
    else none
  | .commit => s.commit start

/-- The system over the image `d`, with nothing cached and an empty log. -/
def boot (d : Disk) : State where
  cache := ⟨d, fun _ => none, [], d, fun _ => false, fun _ => false⟩
  log_hdr := ⟨0, fun _ => 0⟩
  outstanding := []
  pc := .idle

end State

/-! ### What the steps of the cache keep -/

namespace Cache

/-- Block `b` is in the map and its data has been read. -/
def Valid (c : Cache) (b : Nat) : Prop := ∃ blk, c.blocks b = some blk ∧ blk.valid = true

/-- The reference count of block `b`, and `0` when it is not in the map. -/
def refs (c : Cache) (b : Nat) : Nat := (c.blocks b).elim 0 Block.refcnt

/-- Block `b` is coherent: its references are those of its readers and its pin, its lock is
exclusive, and its data is what was written last, in the map if it has been read there and in the
image unless it is pinned or has changes. -/
structure OkAt (c : Cache) (b : Nat) : Prop where
  refs : c.refs b = c.holders b + (c.pinned b).toNat
  live : ∀ blk, c.blocks b = some blk → 0 < blk.refcnt
  excl : c.locks b ≤ 1
  locked : 0 < c.locks b → c.Valid b
  pinned : c.pinned b = true → c.Valid b
  data : ∀ blk, c.blocks b = some blk → blk.valid = true → blk.data = c.last b
  clean : c.pinned b = false → c.dirty b = false → c.disk b = c.last b
  dirty : c.dirty b = true → 0 < c.locks b

/-- Every block is coherent. -/
def Ok (c : Cache) : Prop := ∀ b, c.OkAt b

/-- Block `x` is the same in `c'` as in `c`. -/
structure SameAt (c c' : Cache) (x : Nat) : Prop where
  blocks : c'.blocks x = c.blocks x
  disk : c'.disk x = c.disk x
  last : c'.last x = c.last x
  dirty : c'.dirty x = c.dirty x
  pinned : c'.pinned x = c.pinned x
  holders : c'.holders x = c.holders x
  locks : c'.locks x = c.locks x

variable {c c' : Cache} {u : User} {b x : Nat} {v : BlockData} {blk : Block}

theorem OkAt.same (h : c.OkAt x) (hs : SameAt c c' x) : c'.OkAt x where
  refs := by rw [Cache.refs, hs.blocks, hs.holders, hs.pinned]; exact h.refs
  live := by rw [hs.blocks]; exact h.live
  excl := by rw [hs.locks]; exact h.excl
  locked := by rw [hs.locks, Valid, hs.blocks]; exact h.locked
  pinned := by rw [hs.pinned, Valid, hs.blocks]; exact h.pinned
  data := by rw [hs.blocks, hs.last]; exact h.data
  clean := by rw [hs.pinned, hs.dirty, hs.disk, hs.last]; exact h.clean
  dirty := by rw [hs.dirty, hs.locks]; exact h.dirty

/-- A step that changes block `b` only. -/
theorem Ok.change_at (h : c.Ok) (hb : c'.OkAt b) (hs : ∀ x, x ≠ b → SameAt c c' x) : c'.Ok := by
  intro x
  by_cases hx : x = b
  · exact hx ▸ hb
  · exact (h x).same (hs x hx)

theorem holders_pos (h : ⟨u, b, true⟩ ∈ c.uses) : 0 < c.holders b :=
  List.countP_pos_iff.mpr ⟨_, h, by simp⟩

theorem locks_pos (h : ⟨u, b, true⟩ ∈ c.uses) : 0 < c.locks b :=
  List.countP_pos_iff.mpr ⟨_, h, by simp⟩

theorem Ok.valid (h : c.Ok) (hu : ⟨u, b, true⟩ ∈ c.uses) : c.Valid b :=
  (h b).locked (locks_pos hu)

theorem Valid.data_eq (hb : c.Valid b) (h : c.Ok) : c.data b = c.last b := by
  obtain ⟨blk, hblk, hv⟩ := hb
  rw [Cache.data, hblk]
  exact (h b).data blk hblk hv

theorem refs_of_some (h : c.blocks b = some blk) : c.refs b = blk.refcnt := by
  rw [refs, h]
  rfl

theorem refs_of_none (h : c.blocks b = none) : c.refs b = 0 := by
  rw [refs, h]
  rfl

/-- A block that has been read is coherent when its references and data are right. -/
theorem OkAt.of_valid {r : Nat} (hblk : c.blocks b = some ⟨r, true, v⟩)
    (hr : r = c.holders b + (c.pinned b).toNat) (hpos : 0 < r) (hexcl : c.locks b ≤ 1)
    (hv : v = c.last b) (hclean : c.pinned b = false → c.dirty b = false → c.disk b = c.last b)
    (hdirty : c.dirty b = true → 0 < c.locks b) : c.OkAt b where
  refs := by rw [refs_of_some hblk]; exact hr
  live blk hs := by rw [hblk] at hs; cases hs; exact hpos
  excl := hexcl
  locked _ := ⟨_, hblk, rfl⟩
  pinned _ := ⟨_, hblk, rfl⟩
  data blk hs _ := by rw [hblk] at hs; cases hs; exact hv
  clean := hclean
  dirty := hdirty

/-- A block that has been read, and what is coherent about it. -/
theorem Ok.elim_valid (h : c.Ok) (hb : c.Valid b) :
    ∃ r v, c.blocks b = some ⟨r, true, v⟩ ∧ r = c.holders b + (c.pinned b).toNat ∧ 0 < r ∧
      v = c.last b := by
  obtain ⟨⟨r, valid, v⟩, hblk, hv⟩ := hb
  dsimp only at hv
  subst hv
  refine ⟨r, v, hblk, ?_, (h b).live _ hblk, (h b).data _ hblk rfl⟩
  have := (h b).refs
  rwa [refs_of_some hblk] at this

theorem Ok.block_get (h : c.Ok) (u : User) (b : Nat) : (c.block_get u b).Ok := by
  have hb := h b
  have hholders : ∀ x, (c.block_get u b).holders x = c.holders x + if b = x then 1 else 0 := by
    intro x
    simp [holders, Cache.block_get, List.countP_cons]
  have hlocks : ∀ x, (c.block_get u b).locks x = c.locks x := by
    intro x
    simp [locks, Cache.block_get]
  refine h.change_at (b := b) ?_ fun x hx =>
    ⟨setAt_of_ne hx, rfl, rfl, rfl, rfl, by rw [hholders, if_neg (Ne.symm hx)]; rfl, hlocks x⟩
  cases hblk : c.blocks b with
  | none =>
    have hr := hb.refs
    rw [refs_of_none hblk] at hr
    have hnew : (c.block_get u b).blocks b = some ⟨1, false, Bytes.Buffer.zero BSIZE⟩ := by
      simp [Cache.block_get, hblk]
    have hnot : ¬c.Valid b := by
      rintro ⟨blk, hsome, -⟩
      rw [hblk] at hsome
      cases hsome
    refine ⟨?_, fun blk hs => ?_, hlocks b ▸ hb.excl, fun hl => ?_, fun hp => ?_,
      fun blk hs hv => ?_, hb.clean, fun hd => hlocks b ▸ hb.dirty hd⟩
    · rw [refs_of_some hnew, hholders, if_pos rfl]
      have : (c.block_get u b).pinned b = c.pinned b := rfl
      rw [this]
      dsimp only
      omega
    · rw [hnew] at hs
      cases hs
      exact Nat.one_pos
    · rw [hlocks] at hl
      exact absurd (hb.locked hl) hnot
    · exact absurd (hb.pinned hp) hnot
    · rw [hnew] at hs
      cases hs
      cases hv
  | some blk =>
    have hr := hb.refs
    rw [refs_of_some hblk] at hr
    have hnew : (c.block_get u b).blocks b = some { blk with refcnt := blk.refcnt + 1 } := by
      simp [Cache.block_get, hblk]
    have hvalid : c.Valid b → (c.block_get u b).Valid b := by
      rintro ⟨blk', hsome, hv⟩
      rw [hblk] at hsome
      cases hsome
      exact ⟨_, hnew, hv⟩
    refine ⟨?_, fun blk' hs => ?_, hlocks b ▸ hb.excl, fun hl => hvalid (hb.locked (hlocks b ▸ hl)),
      fun hp => hvalid (hb.pinned hp), fun blk' hs hv => ?_, hb.clean,
      fun hd => hlocks b ▸ hb.dirty hd⟩
    · rw [refs_of_some hnew, hholders, if_pos rfl]
      have : (c.block_get u b).pinned b = c.pinned b := rfl
      rw [this]
      dsimp only
      omega
    · rw [hnew] at hs
      cases hs
      exact Nat.succ_pos _
    · rw [hnew] at hs
      cases hs
      exact hb.data blk hblk hv

/-- The reads after one of them has got the lock of its block. -/
theorem countP_lock {uses : List Use} (p : Use → Bool) (h : ⟨u, b, false⟩ ∈ uses) :
    (⟨u, b, true⟩ :: uses.erase ⟨u, b, false⟩ : List Use).countP p + (p ⟨u, b, false⟩).toNat =
      uses.countP p + (p ⟨u, b, true⟩).toNat := by
  have hperm := (List.perm_cons_erase h).countP_eq p
  rw [List.countP_cons] at hperm ⊢
  cases h1 : p ⟨u, b, false⟩ <;> cases h2 : p ⟨u, b, true⟩ <;> simp_all

theorem Ok.block_lock (h : c.Ok) (hl : c.block_lock u b = some c') : c'.Ok := by
  unfold Cache.block_lock at hl
  split at hl
  swap
  · cases hl
  next hcond =>
  obtain ⟨hmem, hfree⟩ := hcond
  have hc := Option.some.inj hl
  have hb := h b
  have hholders : ∀ x, c'.holders x = c.holders x := by
    intro x
    have := countP_lock (fun y => decide (y.block = x)) hmem
    subst hc
    simpa [holders] using this
  have hlocks : ∀ x, c'.locks x = c.locks x + if b = x then 1 else 0 := by
    intro x
    have := countP_lock (fun y => decide (y.block = x ∧ y.locked = true)) hmem
    subst hc
    simp only [locks]
    split
    · next hx => simpa [hx] using this
    · next hx => simpa [hx] using this
  refine h.change_at (b := b) ?_ fun x hx => ⟨?_, ?_, ?_, ?_, ?_, hholders x, ?_⟩
  rotate_left
  · subst hc
    exact setAt_of_ne hx
  · subst hc; rfl
  · subst hc; rfl
  · subst hc; rfl
  · subst hc; rfl
  · rw [hlocks, if_neg (Ne.symm hx)]
    rfl
  have hpos : 0 < c.refs b := by
    have := hb.refs
    have : 0 < c.holders b := List.countP_pos_iff.mpr ⟨_, hmem, by simp⟩
    omega
  cases hblk : c.blocks b with
  | none =>
    rw [refs_of_none hblk] at hpos
    cases hpos
  | some blk =>
    have hclean : c.dirty b = false := by
      cases hd : c.dirty b with
      | false => rfl
      | true =>
        have := hb.dirty hd
        omega
    have hnew : ∃ v, c'.blocks b = some ⟨blk.refcnt, true, v⟩ ∧ v = c.last b := by
      cases hv : blk.valid with
      | true =>
        refine ⟨blk.data, ?_, hb.data blk hblk hv⟩
        subst hc
        rcases blk with ⟨r, valid, d⟩
        dsimp only at hv
        subst hv
        simp [change, hblk]
      | false =>
        refine ⟨c.disk b, ?_, hb.clean ?_ hclean⟩
        · subst hc
          simp [change, hblk, hv]
        · cases hp : c.pinned b with
          | false => rfl
          | true =>
            obtain ⟨blk', hsome, hv'⟩ := hb.pinned hp
            rw [hblk] at hsome
            cases hsome
            rw [hv] at hv'
            cases hv'
    obtain ⟨v, hnew, hv⟩ := hnew
    have hsame : c'.last b = c.last b ∧ c'.pinned b = c.pinned b ∧ c'.dirty b = c.dirty b ∧
        c'.disk b = c.disk b := by
      subst hc
      exact ⟨rfl, rfl, rfl, rfl⟩
    obtain ⟨hlast, hpinned, hdirty, hdisk⟩ := hsame
    refine .of_valid hnew ?_ (hb.live blk hblk) ?_ (hv.trans hlast.symm) ?_ ?_
    · rw [hholders, hpinned, ← hb.refs, refs_of_some hblk]
    · rw [hlocks, if_pos rfl, hfree]
    · rw [hpinned, hdirty, hdisk, hlast]
      exact hb.clean
    · intro _
      rw [hlocks, if_pos rfl]
      exact Nat.succ_pos _

/-- A store of `v`, after which `v` is what was written last. -/
theorem Ok.store (h : c.Ok) (hs : c.store u b v = some c') (last : Disk)
    (hlast : last = setAt c.last b v) : ({ c' with last } : Cache).Ok := by
  unfold Cache.store at hs
  split at hs
  · next hmem =>
    cases hs
    obtain ⟨r, v0, hblk, hr, hpos, -⟩ := h.elim_valid (h.valid hmem)
    refine h.change_at (b := b) ?_ fun x hx =>
      ⟨setAt_of_ne hx, rfl, ?_, setAt_of_ne hx, rfl, rfl, rfl⟩
    · refine .of_valid (r := r) (v := v) (by simp [change, hblk]) hr hpos (h b).excl ?_ ?_ ?_
      · simp [hlast]
      · intro _ hd
        simp at hd
      · exact fun _ => locks_pos hmem
    · simp [hlast, setAt_of_ne hx]
  · cases hs

theorem Ok.block_write (h : c.Ok) (hs : c.block_write u b = some c') :
    c'.Ok ∧ c'.disk b = c'.last b := by
  unfold Cache.block_write at hs
  split at hs
  · next hmem =>
    cases hs
    have hdata := (h.valid hmem).data_eq h
    obtain ⟨r, v, hblk, hr, hpos, hv⟩ := h.elim_valid (h.valid hmem)
    have hdisk : setAt c.disk b (c.data b) b = c.last b := by rw [setAt_self, hdata]
    refine ⟨h.change_at (b := b) ?_ fun x hx =>
      ⟨rfl, setAt_of_ne hx, rfl, setAt_of_ne hx, rfl, rfl, rfl⟩, hdisk⟩
    refine .of_valid hblk hr hpos (h b).excl hv (fun _ _ => hdisk) fun hd => ?_
    simp at hd
  · cases hs

/-- The pin of a block whose changes are logged. -/
theorem Ok.block_pin (h : c.Ok) (hmem : ⟨u, b, true⟩ ∈ c.uses) (hp : c.pinned b = false) :
    (Cache.block_pin { c with dirty := setAt c.dirty b false } b).Ok := by
  obtain ⟨r, v, hblk, hr, hpos, hv⟩ := h.elim_valid (h.valid hmem)
  rw [hp] at hr
  refine h.change_at (b := b) ?_ fun x hx =>
    ⟨setAt_of_ne hx, rfl, rfl, setAt_of_ne hx, setAt_of_ne hx, rfl, rfl⟩
  refine .of_valid (r := r + 1) (v := v) (by simp [Cache.block_pin, change, hblk]) ?_
    (Nat.succ_pos r) (h b).excl hv (fun hf => ?_) fun hd => ?_
  · simpa [Cache.block_pin, holders, change] using hr
  · simp [Cache.block_pin] at hf
  · simp [Cache.block_pin, change] at hd

/-- The changes of a pinned block are logged. -/
theorem Ok.logged (h : c.Ok) (hp : c.pinned b = true) :
    ({ c with dirty := setAt c.dirty b false } : Cache).Ok := by
  refine h.change_at (b := b) ?_ fun x hx => ⟨rfl, rfl, rfl, setAt_of_ne hx, rfl, rfl, rfl⟩
  have hb := h b
  refine ⟨hb.refs, hb.live, hb.excl, hb.locked, hb.pinned, hb.data, fun hf => ?_, fun hd => ?_⟩
  · exact absurd (hp.symm.trans hf) (by decide)
  · simp at hd

theorem Ok.block_unpin (h : c.Ok) (hp : c.pinned b = true) (hdisk : c.disk b = c.last b)
    (hs : c.block_unpin u b = some c') : c'.Ok := by
  unfold Cache.block_unpin at hs
  split at hs
  · next hmem =>
    cases hs
    obtain ⟨r, v, hblk, hr, hpos, hv⟩ := h.elim_valid (h.valid hmem)
    have hholders := holders_pos hmem
    rw [hp, Bool.toNat_true] at hr
    refine h.change_at (b := b) ?_ fun x hx =>
      ⟨setAt_of_ne hx, rfl, rfl, rfl, setAt_of_ne hx, rfl, rfl⟩
    refine .of_valid (r := r - 1) (v := v) (by simp [change, hblk]) ?_ (by omega) (h b).excl hv
      (fun _ _ => hdisk) (h b).dirty
    simp only [setAt_self, Bool.toNat_false, Nat.add_zero]
    show r - 1 = c.holders b
    omega
  · cases hs

/-- The release of a block without changes deletes it only when it is as on the image. -/
theorem Ok.block_release (h : c.Ok) (hd : c.dirty b = false)
    (hs : c.block_release u b = some c') :
    c'.Ok ∧ (c'.blocks b = none → c.data b = c.disk b) := by
  unfold Cache.block_release at hs
  split at hs
  swap
  · cases hs
  next hmem =>
  have hc := Option.some.inj hs
  obtain ⟨r, v, hblk, hr, hpos, hv⟩ := h.elim_valid (h.valid hmem)
  have hdata := (h.valid hmem).data_eq h
  have hb := h b
  have hlocks1 : c.locks b = 1 := by
    have := hb.excl
    have := locks_pos hmem
    omega
  have hholders : ∀ x, c'.holders x + (if b = x then 1 else 0) = c.holders x := by
    intro x
    have := (List.perm_cons_erase hmem).countP_eq fun y => decide (y.block = x)
    rw [List.countP_cons] at this
    subst hc
    simpa [holders] using this.symm
  have hlocks : ∀ x, c'.locks x + (if b = x then 1 else 0) = c.locks x := by
    intro x
    have := (List.perm_cons_erase hmem).countP_eq fun y => decide (y.block = x ∧ y.locked = true)
    rw [List.countP_cons] at this
    subst hc
    simpa [locks] using this.symm
  have hsame : c'.last = c.last ∧ c'.pinned = c.pinned ∧ c'.dirty = c.dirty ∧ c'.disk = c.disk := by
    subst hc
    exact ⟨rfl, rfl, rfl, rfl⟩
  obtain ⟨hlast, hpinned, hdirty, hdisk⟩ := hsame
  have hlocks0 : c'.locks b = 0 := by
    have := hlocks b
    rw [if_pos rfl] at this
    omega
  have hholdersb : c'.holders b + 1 = c.holders b := by
    have := hholders b
    rwa [if_pos rfl] at this
  have hnew : c'.blocks b = if r - 1 = 0 then none else some ⟨r - 1, true, v⟩ := by
    subst hc
    simp [hblk]
  have hclean : c'.pinned b = false → c'.dirty b = false → c'.disk b = c'.last b := by
    rw [hpinned, hdirty, hdisk, hlast]
    exact hb.clean
  have hdirty' : c'.dirty b = true → 0 < c'.locks b := by
    rw [hdirty, hd]
    nofun
  refine ⟨h.change_at (b := b) ?_ fun x hx => ⟨?_, ?_, ?_, ?_, ?_, ?_, ?_⟩, fun hnone => ?_⟩
  · by_cases hr1 : r - 1 = 0
    · rw [if_pos hr1] at hnew
      have hp : c'.pinned b = false := by
        rw [hpinned]
        cases hp : c.pinned b with
        | false => rfl
        | true =>
          rw [hp, Bool.toNat_true] at hr
          omega
      refine ⟨?_, fun blk hs => ?_, by omega, fun hl => ?_, fun hp' => ?_, fun blk hs _ => ?_, hclean,
        hdirty'⟩
      · rw [refs_of_none hnew, hp]
        simp only [Bool.toNat_false]
        omega
      · rw [hnew] at hs; cases hs
      · omega
      · exact absurd (hp'.symm.trans hp) (by decide)
      · rw [hnew] at hs; cases hs
    · rw [if_neg hr1] at hnew
      refine .of_valid hnew ?_ (by omega) (by omega) (hv.trans (congrFun hlast b).symm) hclean hdirty'
      rw [hpinned]
      omega
  · subst hc; exact setAt_of_ne hx
  · rw [hdisk]
  · rw [hlast]
  · rw [hdirty]
  · rw [hpinned]
  · have := hholders x
    rwa [if_neg (Ne.symm hx)] at this
  · have := hlocks x
    rwa [if_neg (Ne.symm hx)] at this
  · rw [hdata]
    refine (hb.clean ?_ hd).symm
    cases hp : c.pinned b with
    | false => rfl
    | true =>
      rw [hp, Bool.toNat_true] at hr
      rw [hnew, if_neg (by omega)] at hnone
      cases hnone

end Cache

end Xv6fs.Log.Coherence
