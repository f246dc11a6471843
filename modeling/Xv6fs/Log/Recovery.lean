import Xv6fs.Log.Writes

/-! A single commit and the recoveries after it.  `Logged` says what an image holds for recovery to
lead it to the home blocks of `new`; every cut of a recovery keeps it until the log is erased.
`CommitInv` says the same for every point of `commit`. -/

namespace Xv6fs.Log

open Function (update update_self update_of_ne iterate_succ_apply')

variable {start size : Nat} {hdr : LogHeader} {old new d : Disk} {m : LogMem}

/-- A header that `log_write` can have built: it fits in the log and names distinct home blocks. -/
structure HeaderOk (start size : Nat) (hdr : LogHeader) : Prop where
  fits : hdr.n ≤ LOG_SIZE
  room : hdr.n < size
  home : ∀ i < hdr.n, Home start size (hdr.block i)
  distinct : hdr.Distinct

/-- No block of the log is cached. -/
def LogFree (start size : Nat) (m : LogMem) : Prop :=
  ∀ b, start ≤ b → b < start + size → m.cache.blocks b = none

/-- The image `d` holds the header `hdr` and the copies of its blocks, and its other home blocks are
those of `new`. -/
structure Logged (start size : Nat) (hdr : LogHeader) (new d : Disk) : Prop where
  count : ((d start).get32 0).toNat = hdr.n
  block : ∀ i < hdr.n, ((d start).get32 (4 + 4 * i)).toNat = hdr.block i
  copy : ∀ i < hdr.n, d (start + i + 1) = new (hdr.block i)
  rest : ∀ b, Home start size b → ¬hdr.Has b → d b = new b

/-- The image `d` has an empty log, and its home blocks are those of `new`. -/
structure Clean (start size : Nat) (new d : Disk) : Prop where
  count : ((d start).get32 0).toNat = 0
  home : ∀ b, Home start size b → d b = new b

theorem HeaderOk.ne_log (h : HeaderOk start size hdr) {i j : Nat} (hi : i < hdr.n)
    (hj : j < hdr.n) : hdr.block i ≠ start + j + 1 := by
  have h1 := (h.home i hi).2
  have h2 := h.room
  omega

theorem HeaderOk.ne_start (h : HeaderOk start size hdr) {i : Nat} (hi : i < hdr.n) :
    hdr.block i ≠ start := by
  have h1 := (h.home i hi).2
  have h2 := h.room
  omega

theorem home_ne_start {b : Nat} (hsize : 0 < size) (h : Home start size b) : b ≠ start := by
  have := h.2
  omega

/-- Installing a block from its copy in the log keeps what recovery needs. -/
theorem Logged.install (hok : HeaderOk start size hdr) (h : Logged start size hdr new d) {t : Nat}
    (ht : t < hdr.n) : Logged start size hdr new (update d (hdr.block t) (d (start + t + 1))) where
  count := by rw [update_of_ne (hok.ne_start ht).symm]; exact h.count
  block i hi := by rw [update_of_ne (hok.ne_start ht).symm]; exact h.block i hi
  copy i hi := by rw [update_of_ne (hok.ne_log ht hi).symm]; exact h.copy i hi
  rest b hb hnot := by
    rw [update_of_ne fun heq => hnot ⟨t, ht, heq.symm⟩]
    exact h.rest b hb hnot

theorem Logged.home (h : Logged start size hdr new d)
    (hinst : ∀ i < hdr.n, d (hdr.block i) = new (hdr.block i)) {b : Nat} (hb : Home start size b) :
    d b = new b := by
  by_cases hhas : hdr.Has b
  · obtain ⟨i, hi, rfl⟩ := hhas
    exact hinst i hi
  · exact h.rest b hb hhas

/-- Storing an empty header over an image whose home blocks are all those of `new`. -/
theorem clean_of_erase {h : LogHeader} (hn : h.n = 0) (hsize : 0 < size)
    (hhome : ∀ b, Home start size b → d b = new b) :
    Clean start size new (update d start (h.store (d start))) where
  count := by
    rw [update_self]
    have := (LogHeader.load_store h h (d start) (by omega) (fun i hi => by omega)).1
    simpa [LogHeader.load, hn] using this
  home b hb := by rw [update_of_ne (home_ne_start hsize hb)]; exact hhome b hb

/-! ### Recovery -/

/-- What holds at each point of `recover_from_log` over an image that `Logged` describes. -/
def RecoverInv (start size : Nat) (hdr : LogHeader) (new : Disk) : LogMem × RecoverPc → Prop
  | (m, .enter) => Logged start size hdr new m.cache.disk
  | (m, .install t) => Logged start size hdr new m.cache.disk ∧ m.log_hdr.n = hdr.n ∧
      (∀ i < hdr.n, m.log_hdr.block i = hdr.block i) ∧
      ∀ i < t, i < hdr.n → m.cache.disk (hdr.block i) = new (hdr.block i)
  | (m, .erase) => Logged start size hdr new m.cache.disk ∧ m.log_hdr.n = 0 ∧
      ∀ i < hdr.n, m.cache.disk (hdr.block i) = new (hdr.block i)
  | (m, .finish) => Clean start size new m.cache.disk

theorem recoverStep_inv (hok : HeaderOk start size hdr) {s : LogMem × RecoverPc}
    (hfree : s.1.cache.blocks = fun _ => none) (h : RecoverInv start size hdr new s) :
    (recoverStep start s).1.cache.blocks = (fun _ => none) ∧
      RecoverInv start size hdr new (recoverStep start s) := by
  obtain ⟨m, pc⟩ := s
  simp only at hfree
  have hnone : ∀ b, m.cache.blocks b = none := fun b => by rw [hfree]
  cases pc with
  | enter =>
    simp only [recoverStep, read_head_eq (hnone start)]
    refine ⟨hfree, h, h.count, fun i hi => ?_, fun i hi => absurd hi (Nat.not_lt_zero i)⟩
    simp only [LogHeader.load, h.count, hi, if_true]
    exact h.block i hi
  | install t =>
    obtain ⟨hlog, hn, hblock, hinst⟩ := h
    by_cases ht : t < hdr.n
    · have hb := hblock t ht
      rw [recoverStep, if_pos (by omega),
        recover_at_eq (hnone _) (by rw [hb]; exact hok.ne_log ht ht) (hnone _), hb]
      refine ⟨hfree, hlog.install hok ht, hn, hblock, fun i hi hin => ?_⟩
      show update _ _ _ _ = _
      rcases Nat.lt_or_eq_of_le (Nat.le_of_lt_succ hi) with hlt | rfl
      · have hne : hdr.block i ≠ hdr.block t := fun heq =>
          absurd (hok.distinct i hin t ht heq) (by omega)
        rw [update_of_ne hne]
        exact hinst i hlt hin
      · rw [update_self]
        exact hlog.copy i hin
    · rw [recoverStep, if_neg (by omega)]
      exact ⟨hfree, hlog, rfl, fun i hi => hinst i (by omega) hi⟩
  | erase =>
    obtain ⟨hlog, hn, hinst⟩ := h
    simp only [recoverStep, write_head_eq (hnone start)]
    exact ⟨hfree, clean_of_erase hn (Nat.zero_lt_of_lt hok.room) fun b hb => hlog.home hinst hb⟩
  | finish => exact ⟨hfree, h⟩

theorem recover_iterate_inv (hok : HeaderOk start size hdr) (h : Logged start size hdr new d)
    (k : Nat) : ((recoverStep start)^[k] (boot d, .enter)).1.cache.blocks = (fun _ => none) ∧
      RecoverInv start size hdr new ((recoverStep start)^[k] (boot d, .enter)) := by
  induction k with
  | zero => exact ⟨rfl, h⟩
  | succ k ih =>
    rw [iterate_succ_apply']
    exact recoverStep_inv hok ih.1 ih.2

/-- The header of an erased log. -/
def noHeader : LogHeader := ⟨0, fun _ => 0⟩

theorem noHeader_ok (hsize : 0 < size) : HeaderOk start size noHeader where
  fits := Nat.zero_le _
  room := hsize
  home i hi := absurd hi (Nat.not_lt_zero i)
  distinct i hi := absurd hi (Nat.not_lt_zero i)

theorem Clean.logged (h : Clean start size new d) : Logged start size noHeader new d where
  count := h.count
  block i hi := absurd hi (Nat.not_lt_zero i)
  copy i hi := absurd hi (Nat.not_lt_zero i)
  rest b hb _ := h.home b hb

/-- The image of a process over `d` that is killed after `k` steps of `recover_from_log`. -/
def cutRecover (start : Nat) (d : Disk) (k : Nat) : Disk :=
  ((recoverStep start)^[k] (boot d, .enter)).1.cache.disk

/-- Wherever a recovery is cut, the next one still leads to the home blocks of `new`. -/
theorem cutRecover_logged (hok : HeaderOk start size hdr) (h : Logged start size hdr new d)
    (k : Nat) : Logged start size hdr new (cutRecover start d k) ∨
      Clean start size new (cutRecover start d k) := by
  have hinv := (recover_iterate_inv hok h k).2
  simp only [cutRecover]
  generalize (recoverStep start)^[k] (boot d, .enter) = s at hinv
  obtain ⟨m, pc⟩ := s
  cases pc with
  | enter => exact .inl hinv
  | install t => exact .inl hinv.1
  | erase => exact .inl hinv.1
  | finish => exact .inr hinv

theorem cuts_logged (hok : HeaderOk start size hdr) (cuts : List Nat)
    (h : Logged start size hdr new d ∨ Clean start size new d) :
    Logged start size hdr new (cuts.foldl (cutRecover start) d) ∨
      Clean start size new (cuts.foldl (cutRecover start) d) := by
  induction cuts generalizing d with
  | nil => exact h
  | cons k cuts ih =>
    refine ih ?_
    rcases h with h | h
    · exact cutRecover_logged hok h k
    · have hsize := Nat.zero_lt_of_lt hok.room
      exact .inr ((cutRecover_logged (noHeader_ok hsize) h.logged k).elim
        (fun h' => ⟨h'.count, fun b hb => h'.rest b hb fun ⟨i, hi, _⟩ => absurd hi (Nat.not_lt_zero i)⟩)
        id)

/-- `recover_from_log` is the run of its steps. -/
theorem recover_eq_iterate (start : Nat) (d : Disk) :
    ∃ k, (recoverStep start)^[k] (boot d, .enter) = (recover_from_log start (boot d), .finish) := by
  have hloop : ∀ n t m, m.log_hdr.n = t + n → (recoverStep start)^[n + 1] (m, .install t) =
      (clear ((List.range' t n).foldl (recover_at start) m), .erase) := by
    intro n
    induction n with
    | zero =>
      intro t m hm
      simp [recoverStep, hm]
    | succ n ih =>
      intro t m hm
      rw [Function.iterate_succ_apply, recoverStep, if_pos (by omega),
        ih (t + 1) _ (by simp only [recover_at]; omega), List.range'_succ, List.foldl_cons]
  refine ⟨(read_head start (boot d)).log_hdr.n + 1 + 1 + 1, ?_⟩
  rw [Function.iterate_succ_apply, iterate_succ_apply', recoverStep, hloop _ 0 _ (by omega)]
  simp only [recoverStep, recover_from_log, List.range_eq_range']

theorem recover_clean (hok : HeaderOk start size hdr)
    (h : Logged start size hdr new d ∨ Clean start size new d) :
    Clean start size new (recover start d) := by
  obtain ⟨k, hk⟩ := recover_eq_iterate start d
  rcases h with h | h
  · have := (recover_iterate_inv hok h k).2
    rw [hk] at this
    exact this
  · have := (recover_iterate_inv (noHeader_ok (Nat.zero_lt_of_lt hok.room)) h.logged k).2
    rw [hk] at this
    exact this

/-- Recovery over an erased log changes nothing. -/
theorem recover_of_clean (h : ((d start).get32 0).toNat = 0) : recover start d = d := by
  have hread : read_head start (boot d) = _ := read_head_eq rfl
  have hn : (read_head start (boot d)).log_hdr.n = 0 := by rw [hread]; exact h
  rw [recover, recover_from_log, hn, List.range_zero, List.foldl_nil, hread, clear,
    write_head_eq rfl]
  simp [boot, LogHeader.store_empty, h]

/-! ### Commit -/

/-- What holds while `commit` has not written its header: the image has an empty log and the home
blocks of `old`, every block of the header is pinned with its content in `new`, and the first `t`
copies are in the log. -/
structure Pending (start size : Nat) (hdr : LogHeader) (old new : Disk) (m : LogMem) (t : Nat) :
    Prop where
  header : m.log_hdr = hdr
  clean : Clean start size old m.cache.disk
  pinned : ∀ i < hdr.n, ∃ blk, m.cache.blocks (hdr.block i) = some blk ∧
    blk.data = new (hdr.block i)
  rest : ∀ b, Home start size b → ¬hdr.Has b → old b = new b
  copy : ∀ i < t, i < hdr.n → m.cache.disk (start + i + 1) = new (hdr.block i)

/-- What holds while `commit` installs: the log leads to `new`, and the first `t` blocks are at
home. -/
structure Installing (start size : Nat) (hdr : LogHeader) (new : Disk) (m : LogMem) (t : Nat) :
    Prop where
  header : m.log_hdr = hdr
  logged : Logged start size hdr new m.cache.disk
  pinned : ∀ i, t ≤ i → i < hdr.n → ∃ blk, m.cache.blocks (hdr.block i) = some blk ∧
    blk.data = new (hdr.block i)
  installed : ∀ i < t, i < hdr.n → m.cache.disk (hdr.block i) = new (hdr.block i)

/-- What holds at each point of `commit`. -/
def CommitInv (start size : Nat) (hdr : LogHeader) (old new : Disk) : LogMem × CommitPc → Prop
  | (m, .enter) => Pending start size hdr old new m 0
  | (m, .write_log t) => Pending start size hdr old new m t ∧ 0 < hdr.n
  | (m, .write_head) => Pending start size hdr old new m hdr.n ∧ 0 < hdr.n
  | (m, .install t) => Installing start size hdr new m t
  | (m, .erase) => (Logged start size hdr new m.cache.disk ∨ Clean start size new m.cache.disk) ∧
      m.log_hdr.n = 0 ∧ ∀ b, Home start size b → m.cache.disk b = new b
  | (m, .finish) => Clean start size new m.cache.disk ∧ m.log_hdr.n = 0

/-- `commit` has written its header. -/
def CommitPc.pastHead : CommitPc → Prop
  | .enter | .write_log _ | .write_head => False
  | .install _ | .erase | .finish => True

theorem LogFree.at (h : LogFree start size m) {t : Nat} (ht : t + 1 < size) :
    m.cache.blocks (start + t + 1) = none :=
  h _ (by omega) (by omega)

theorem Pending.write_log (hok : HeaderOk start size hdr) (hfree : LogFree start size m)
    (hlive : m.cache.Live) {t : Nat} (h : Pending start size hdr old new m t) (ht : t < hdr.n) :
    (write_log_at start m t).cache.blocks = m.cache.blocks ∧
      Pending start size hdr old new (write_log_at start m t) (t + 1) := by
  have hroom := hok.room
  have hsrc : m.log_hdr.block t = hdr.block t := by rw [h.header]
  obtain ⟨blk, hblk, hdata⟩ := h.pinned t ht
  rw [write_log_at_eq hlive (hfree.at (by omega)) (by rw [hsrc]; exact hok.ne_log ht ht), hsrc,
    BlockCache.content_of_some hblk, hdata]
  refine ⟨rfl, h.header, ⟨?_, fun b hb => ?_⟩, h.pinned, h.rest, fun i hi hin => ?_⟩
  · dsimp only
    rw [update_of_ne (by omega)]
    exact h.clean.count
  · dsimp only
    have := hb.2
    rw [update_of_ne (by omega)]
    exact h.clean.home b hb
  · dsimp only
    rcases Nat.lt_or_eq_of_le (Nat.le_of_lt_succ hi) with hlt | rfl
    · rw [update_of_ne (by omega)]
      exact h.copy i hlt hin
    · rw [update_self]

theorem Pending.write_head (hok : HeaderOk start size hdr) (hfree : LogFree start size m)
    (h : Pending start size hdr old new m hdr.n) :
    (write_head start m).cache.blocks = m.cache.blocks ∧
      Installing start size hdr new (write_head start m) 0 := by
  have hroom := hok.room
  have hload := LogHeader.load_store m.log_hdr m.log_hdr (m.cache.disk start)
    (by rw [h.header]; exact hok.fits) (fun i hi => by
      rw [h.header] at hi ⊢
      exact (hok.home i hi).1)
  rw [write_head_eq (hfree start (Nat.le_refl _) (by omega))]
  refine ⟨rfl, h.header, ⟨?_, fun i hi => ?_, fun i hi => ?_, fun b hb hnot => ?_⟩,
    fun i _ hin => h.pinned i hin, fun i hi => absurd hi (Nat.not_lt_zero i)⟩
  · dsimp only
    rw [update_self, ← h.header]
    exact hload.1
  · dsimp only
    rw [update_self, ← h.header]
    have hin : i < m.log_hdr.n := by rw [h.header]; exact hi
    have hb := hload.2 i hin
    have hlt : i < ((m.log_hdr.store (m.cache.disk start)).get32 0).toNat :=
      Nat.lt_of_lt_of_eq hin hload.1.symm
    simpa only [LogHeader.load, hlt, if_true] using hb
  · dsimp only
    rw [update_of_ne (by omega)]
    exact h.copy i hi hi
  · dsimp only
    rw [update_of_ne (home_ne_start (by omega) hb), h.clean.home b hb, h.rest b hb hnot]

theorem Installing.install (hok : HeaderOk start size hdr) (hfree : LogFree start size m)
    (hlive : m.cache.Live) {t : Nat} (h : Installing start size hdr new m t) (ht : t < hdr.n) :
    LogFree start size (install_at start m t) ∧ (install_at start m t).cache.Live ∧
      Installing start size hdr new (install_at start m t) (t + 1) := by
  have hroom := hok.room
  have hsrc : m.log_hdr.block t = hdr.block t := by rw [h.header]
  obtain ⟨blk, hblk, hdata⟩ := h.pinned t (Nat.le_refl _) ht
  have hpos := hlive _ _ hblk
  rw [install_at_eq (hfree.at (by omega)) (by rw [hsrc]; exact hok.ne_log ht ht)
    (by rw [hsrc]; exact hblk), hsrc]
  refine ⟨fun b hb hb' => ?_, fun b blk' hb => ?_, h.header, h.logged.install hok ht,
    fun i hi hin => ?_, fun i hi hin => ?_⟩
  · dsimp only
    have := (hok.home t ht).2
    rw [update_of_ne (by omega)]
    exact hfree b hb hb'
  · dsimp only at hb
    by_cases heq : b = hdr.block t
    · subst heq
      rw [update_self] at hb
      split at hb
      · cases hb
      · next hne => cases hb; exact Nat.pos_of_ne_zero hne
    · rw [update_of_ne heq] at hb
      exact hlive b blk' hb
  · dsimp only
    have hne : hdr.block i ≠ hdr.block t := fun heq =>
      absurd (hok.distinct i hin t ht heq) (by omega)
    rw [update_of_ne hne]
    exact h.pinned i (by omega) hin
  · dsimp only
    rcases Nat.lt_or_eq_of_le (Nat.le_of_lt_succ hi) with hlt | rfl
    · have hne : hdr.block i ≠ hdr.block t := fun heq =>
        absurd (hok.distinct i hin t ht heq) (by omega)
      rw [update_of_ne hne]
      exact h.installed i hlt hin
    · rw [update_self]
      exact h.logged.copy i hin

theorem commitStep_inv (hok : HeaderOk start size hdr) {s : LogMem × CommitPc}
    (hfree : LogFree start size s.1) (hlive : s.1.cache.Live)
    (h : CommitInv start size hdr old new s) :
    LogFree start size (commitStep start s).1 ∧ (commitStep start s).1.cache.Live ∧
      CommitInv start size hdr old new (commitStep start s) := by
  obtain ⟨m, pc⟩ := s
  simp only at hfree hlive
  cases pc with
  | enter =>
    have h : Pending start size hdr old new m 0 := h
    by_cases hn : hdr.n > 0
    · rw [commitStep, if_pos (by rw [h.header]; exact hn)]
      exact ⟨hfree, hlive, h, hn⟩
    · rw [commitStep, if_neg (by rw [h.header]; exact hn)]
      refine ⟨hfree, hlive, ⟨h.clean.count, fun b hb => ?_⟩, by rw [h.header]; omega⟩
      have hnone : ¬hdr.Has b := by
        rintro ⟨i, hi, -⟩
        omega
      rw [h.clean.home b hb, h.rest b hb hnone]
  | write_log t =>
    obtain ⟨h, hpos⟩ := h
    by_cases ht : t < hdr.n
    · rw [commitStep, if_pos (by rw [h.header]; exact ht)]
      obtain ⟨hblocks, hnext⟩ := h.write_log hok hfree hlive ht
      exact ⟨fun b => by rw [hblocks]; exact hfree b, fun b => by rw [hblocks]; exact hlive b,
        hnext, hpos⟩
    · rw [commitStep, if_neg (by rw [h.header]; exact ht)]
      exact ⟨hfree, hlive, ⟨h.header, h.clean, h.pinned, h.rest,
        fun i hi hin => h.copy i (by omega) hin⟩, hpos⟩
  | write_head =>
    obtain ⟨hblocks, hnext⟩ := h.1.write_head hok hfree
    exact ⟨fun b => by rw [commitStep, hblocks]; exact hfree b,
      fun b => by rw [commitStep, hblocks]; exact hlive b, hnext⟩
  | install t =>
    have h : Installing start size hdr new m t := h
    by_cases ht : t < hdr.n
    · rw [commitStep, if_pos (by rw [h.header]; exact ht)]
      exact h.install hok hfree hlive ht
    · rw [commitStep, if_neg (by rw [h.header]; exact ht)]
      exact ⟨hfree, hlive, .inl h.logged, rfl, fun b hb =>
        h.logged.home (fun i hi => h.installed i (by omega) hi) hb⟩
  | erase =>
    obtain ⟨-, hn, hhome⟩ := h
    have hstart := hfree start (Nat.le_refl _) (by have := hok.room; omega)
    rw [commitStep, write_head_eq hstart]
    exact ⟨hfree, hlive, clean_of_erase hn (Nat.zero_lt_of_lt hok.room) hhome, hn⟩
  | finish => exact ⟨hfree, hlive, h⟩

theorem commit_iterate_inv (hok : HeaderOk start size hdr) (hfree : LogFree start size m)
    (hlive : m.cache.Live) (h : Pending start size hdr old new m 0) (k : Nat) :
    CommitInv start size hdr old new ((commitStep start)^[k] (m, .enter)) := by
  suffices LogFree start size ((commitStep start)^[k] (m, .enter)).1 ∧
      ((commitStep start)^[k] (m, .enter)).1.cache.Live ∧
      CommitInv start size hdr old new ((commitStep start)^[k] (m, .enter)) from this.2.2
  induction k with
  | zero => exact ⟨hfree, hlive, h⟩
  | succ k ih =>
    rw [iterate_succ_apply']
    exact commitStep_inv hok ih.1 ih.2.1 ih.2.2

/-- Before the header is written an image of `commit` leads back to the old home blocks. -/
theorem CommitInv.before {s : LogMem × CommitPc} (h : CommitInv start size hdr old new s)
    (hpc : ¬s.2.pastHead) : Clean start size old s.1.cache.disk := by
  obtain ⟨m, pc⟩ := s
  cases pc with
  | enter => exact Pending.clean h
  | write_log t => exact h.1.clean
  | write_head => exact h.1.clean
  | install t => exact absurd trivial hpc
  | erase => exact absurd trivial hpc
  | finish => exact absurd trivial hpc

/-- From the header on an image of `commit` leads to the new home blocks. -/
theorem CommitInv.past {s : LogMem × CommitPc} (h : CommitInv start size hdr old new s)
    (hpc : s.2.pastHead) :
    Logged start size hdr new s.1.cache.disk ∨ Clean start size new s.1.cache.disk := by
  obtain ⟨m, pc⟩ := s
  cases pc with
  | enter => exact hpc.elim
  | write_log t => exact hpc.elim
  | write_head => exact hpc.elim
  | install t => exact .inl (Installing.logged h)
  | erase => exact h.1
  | finish => exact .inr h.1

/-- The home blocks of `d` with the blocks of the header replaced by their cached contents. -/
def committed (m : LogMem) : Disk :=
  fun b => if m.log_hdr.Has b then m.cache.content b else m.cache.disk b

/-- The memory before a commit of block 100, over an image of zeroes. -/
def oneBlock : LogMem where
  cache := ⟨fun _ => Bytes.Buffer.zero BSIZE,
    fun b => if b = 100 then some ⟨1, (Bytes.Buffer.zero BSIZE).put32 0 7⟩ else none⟩
  log_hdr := ⟨1, fun _ => 100⟩

end Xv6fs.Log
