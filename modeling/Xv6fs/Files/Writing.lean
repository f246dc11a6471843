import Xv6fs.Fs.Access
import Xv6fs.Fs.Space
import Xv6fs.Files.Reading

/-! `OFile::write` cuts a write into chunks, each in a transaction of its own.  The chunks store what
one write would store, but a chunk that does not fit into the file moves the offset of the handle by
the error code. -/

namespace Xv6fs

open Program (Runs runs_bind runs_pure runs_get runs_modify runs_assert runs_ite)
open SharedRead (lock_valid)

variable {sb : SuperBlock} {s s' s1 s2 : Fs} {x i : Nat} {buf : Bytes.Source} {off n t : Nat}

/-- Handle `i` is open on an inode that has been read and that nobody has locked, and no operation is
in progress. -/
structure Ready (sb : SuperBlock) (i : Nat) (s : Fs) : Prop where
  type : (s.files i).type = .FD_INODE
  ref : 0 < (s.inodes (s.files i).ip).ref
  valid : (s.inodes (s.files i).ip).valid = true
  unlocked : (s.inodes (s.files i).ip).locked = false
  alloc : Allocated sb (s.view sb (s.files i).ip) (s.files i).ip
  owned : Owned sb (s.view sb (s.files i).ip) s.blocks fun _ => False
  outstanding : s.outstanding = 0
  log : s.log = []

theorem Fs.view_congr (hblocks : s'.blocks = s.blocks)
    (hmem : (s'.inodes x).dinode = (s.inodes x).dinode) : s'.view sb x = s.view sb x := by
  have hdisk : s'.dinode sb = s.dinode sb := by
    funext y
    rw [Fs.dinode_eq, Fs.dinode_eq, hblocks]
  rw [Fs.view, Fs.view, hdisk, hmem]

/-- What is stored depends on the blocks and on the inode in memory only. -/
theorem Stored.congr (h : Stored sb x buf off t s1 s2) (hblocks : s.blocks = s1.blocks)
    (hmem : (s.inodes x).dinode = (s1.inodes x).dinode) (hblocks' : s'.blocks = s2.blocks)
    (hmem' : (s'.inodes x).dinode = (s2.inodes x).dinode) : Stored sb x buf off t s s' where
  size := by rw [hmem', hmem, h.size]
  bytes o := by
    have := h.bytes o
    rwa [Fs.byte, Fs.byte, ← hmem, ← hmem', ← hblocks, ← hblocks'] at this
  mapped := by rw [hblocks', hmem']; exact h.mapped
  keeps := by
    unfold Fs.Held
    rw [Fs.view_congr hblocks hmem, Fs.view_congr hblocks' hmem', hblocks, hblocks']
    exact h.keeps
  fresh := by
    unfold Fs.Held
    rw [Fs.view_congr hblocks hmem, Fs.view_congr hblocks' hmem', hblocks, hblocks']
    exact h.fresh

/-- What a chunk of `n` bytes at `off` does, and the number that it counts: it is refused, or stores
the bytes that there are free blocks for. -/
inductive Chunk (sb : SuperBlock) (x : Nat) (buf : Bytes.Source) (off n : Nat) (s : Fs) (r : Nat)
    (s' : Fs) : Prop
  | refused (hout : off > (s.inodes x).dinode.size.toNat ∨ off + n > MAX_SIZE)
      (hr : r = UINT32_ERR) (hblocks : s'.blocks = s.blocks)
      (hmem : (s'.inodes x).dinode = (s.inodes x).dinode)
  | stored (hoff : off ≤ (s.inodes x).dinode.size.toNat) (hmax : off + n ≤ MAX_SIZE)
      (hstored : Stored sb x buf off r s s') (hle : r ≤ n)
      (hshort : r < n → Full sb s' ∧
        slot s'.blocks (s'.inodes x).dinode (fslot ((off + r) / BSIZE)) = 0)

theorem Chunk.congr {r : Nat} (h : Chunk sb x buf off n s1 r s2) (hblocks : s.blocks = s1.blocks)
    (hmem : (s.inodes x).dinode = (s1.inodes x).dinode) (hblocks' : s'.blocks = s2.blocks)
    (hmem' : (s'.inodes x).dinode = (s2.inodes x).dinode) : Chunk sb x buf off n s r s' := by
  cases h with
  | refused hout hr hb hm =>
    exact .refused (hmem ▸ hout) hr (by rw [hblocks', hb, hblocks]) (by rw [hmem', hm, hmem])
  | stored hoff hmax hstored hle hshort =>
    refine .stored (hmem ▸ hoff) hmax (hstored.congr hblocks hmem hblocks' hmem') hle fun hlt => ?_
    obtain ⟨hfull, hslot⟩ := hshort hlt
    exact ⟨fun c hc => by rw [hblocks']; exact hfull c hc, by rw [hblocks', hmem']; exact hslot⟩

/-- A write of a few blocks in a transaction that has just begun. -/
theorem write_in_transaction (hl : Layout sb) (hlog : LOG_SIZE ≤ sb.nlog)
    (hg : Growing sb (fun _ => False) x s) (hempty : s.log = []) (hn : n ≤ 3 * BSIZE) :
    Runs (INode.write sb x buf off n) s (fun r s' =>
      Growing sb (fun _ => False) x s' ∧ s'.files = s.files ∧ s'.outstanding = s.outstanding ∧
      s'.inodes x = { s.inodes x with dinode := (s'.inodes x).dinode } ∧
      Chunk sb x buf off n s r s') fun _ => False := by
  by_cases hout : off > (s.inodes x).dinode.size.toNat ∨ off + n > MAX_SIZE
  · refine (write_out_of_range hout).imp ?_
    rintro r s' ⟨hr, hs'⟩
    subst hs'
    exact ⟨⟨hg.alloc, hg.owned, hg.outstanding⟩, rfl, rfl, rfl, .refused hout hr rfl rfl⟩
  · obtain ⟨hoff, hmax⟩ := not_or.mp hout
    have hmax : off + n ≤ MAX_SIZE := Nat.le_of_not_lt hmax
    refine ((write_runs hl hg (Nat.le_of_not_lt hoff) hmax).both (write_logs x buf off n s)).mono
      ?_ ?_
    · rintro r s' ⟨hw, _⟩
      refine ⟨⟨⟨hg.alloc.1, ?_⟩, ?_, hw.outstanding ▸ hg.outstanding⟩, hw.files, hw.outstanding,
        hw.cache, .stored (Nat.le_of_not_lt hoff) hmax (hw.stored hg hmax) hw.le
          fun hlt => ⟨hw.full hlt, hw.unmapped hlt⟩⟩
      · have htype := hg.alloc.2
        rw [Fs.view_self] at htype ⊢
        rwa [hw.type_eq]
      · rw [Fs.view_synced hw.synced]
        exact hw.owned
    · rintro e ⟨hbig, hroom⟩
      have htouched := touched_le off hn
      have := hroom hbig
      simp only [hempty, List.length_nil, Fs.log_limit, LOG_SIZE, MAX_OP_BLOCKS] at this hlog
      omega

theorem write_section_runs (hl : Layout sb) (hlog : LOG_SIZE ≤ sb.nlog) (h : Ready sb i s)
    (buf : Bytes.Source) (hn : n ≤ 3 * BSIZE) :
    Runs (write_section sb i buf n) s (fun r s' => Ready sb i s' ∧
      s'.files = setAt s.files i { s.files i with off := (s.files i).off + r } ∧
      Chunk sb (s.files i).ip buf (s.files i).off n s r s') fun _ => False := by
  have hbegin : Runs Fs.begin_op s (fun _ s' =>
      s' = { s with trace := .begin_op :: s.trace, outstanding := 1 }) fun _ => False := by
    simp only [Fs.begin_op, Xv6fs.record, runs_bind, runs_get, runs_assert, runs_modify,
      h.outstanding, h.log]
    exact ⟨fun _ => trivial, fun hno => hno (by decide)⟩
  rw [write_section]
  refine hbegin.bind ?_
  rintro - s1 rfl
  rw [runs_bind, runs_get]
  dsimp only
  generalize hf : s.files i = f at *
  refine (lock_valid (hf ▸ h.ref) (hf ▸ h.valid) (hf ▸ h.unlocked)).bind ?_
  rintro - s2 hs2
  have hblocks2 : s2.blocks = s.blocks := by rw [hs2]
  have hmem2 : (s2.inodes f.ip).dinode = (s.inodes f.ip).dinode := by rw [hs2]; simp
  have hview2 : s2.view sb f.ip = s.view sb f.ip := Fs.view_congr hblocks2 hmem2
  have hg2 : Growing sb (fun _ => False) f.ip s2 := by
    refine ⟨?_, ?_, by rw [hs2]⟩
    · rw [hview2]
      exact hf ▸ h.alloc
    · rw [hview2, hblocks2]
      exact hf ▸ h.owned
  refine (write_in_transaction hl hlog hg2 (by rw [hs2]; exact h.log) hn).bind ?_
  rintro r s3 ⟨hg3, hfiles3, hout3, hcache3, hchunk⟩
  have hfiles : s3.files = s.files := by rw [hfiles3, hs2]
  have hout : s3.outstanding = 1 := by rw [hout3, hs2]
  have hcache : s3.inodes f.ip =
      { s.inodes f.ip with locked := true, dinode := (s3.inodes f.ip).dinode } := by
    rw [hcache3, hs2]
    simp
  simp only [modify_file, INode.unlock, mtx_unlock, Xv6fs.record, modify_inode, Fs.end_op, runs_bind,
    runs_get, runs_assert, runs_modify, runs_pure]
  have href : (s3.inodes f.ip).ref ≥ 1 := by
    rw [hcache]
    exact hf ▸ h.ref
  refine ⟨fun _ => ⟨?_, ?_, hchunk.congr hblocks2.symm hmem2.symm rfl (by simp)⟩,
    fun hno => hno href⟩
  · have hfile : s3.files i = f := by rw [hfiles, hf]
    have hkept : ∀ s4 : Fs, s4.blocks = s3.blocks →
        (s4.inodes f.ip).dinode = (s3.inodes f.ip).dinode →
        Allocated sb (s4.view sb f.ip) f.ip ∧
          Owned sb (s4.view sb f.ip) s4.blocks fun _ => False := by
      intro s4 hblocks hmem
      rw [Fs.view_congr hblocks hmem, hblocks]
      exact ⟨hg3.alloc, hg3.owned⟩
    constructor
    · simp only [setAt_self, hfile]
      exact hf ▸ h.type
    · simp only [setAt_self, hfile]
      exact href
    · simp only [setAt_self, hfile]
      rw [hcache]
      exact hf ▸ h.valid
    · simp only [setAt_self, hfile]
    · simp only [setAt_self, hfile]
      refine (hkept _ ?_ ?_).1
      · rfl
      · simp
    · simp only [setAt_self, hfile]
      refine (hkept _ ?_ ?_).2
      · rfl
      · simp
    · simp only [hout]
    · simp only [hout, Nat.sub_self, if_true]
  · simp only [hfiles, hf]

/-! ### The loop -/

/-- How many of `n` bytes come before the first chunk that is refused. -/
def reach (off n : Nat) : Nat :=
  if n = 0 ∨ off + n ≤ MAX_SIZE then n else (MAX_SIZE - off) / (3 * BSIZE) * (3 * BSIZE)

theorem reach_le (off n : Nat) : reach off n ≤ n := by
  unfold reach
  simp only [MAX_SIZE, MAX_FILE, NINDIRECT, NDIRECT, BSIZE]
  split <;> omega

theorem add_reach_le (h : 0 < reach off n) : off + reach off n ≤ MAX_SIZE := by
  unfold reach at *
  simp only [MAX_SIZE, MAX_FILE, NINDIRECT, NDIRECT, BSIZE] at *
  split at h <;> split <;> omega

/-- The chunk that goes past the largest size is refused. -/
theorem reach_refused (hmax : MAX_SIZE < off + min n (3 * BSIZE)) (hn : 0 < n) :
    reach off n = 0 := by
  unfold reach
  simp only [MAX_SIZE, MAX_FILE, NINDIRECT, NDIRECT, BSIZE] at *
  split <;> omega

theorem chunk_le_reach (hmax : off + min n (3 * BSIZE) ≤ MAX_SIZE) :
    min n (3 * BSIZE) ≤ reach off n := by
  unfold reach
  simp only [MAX_SIZE, MAX_FILE, NINDIRECT, NDIRECT, BSIZE] at *
  split <;> omega

theorem reach_chunk (hmax : off + min n (3 * BSIZE) ≤ MAX_SIZE) :
    min n (3 * BSIZE) + reach (off + min n (3 * BSIZE)) (n - min n (3 * BSIZE)) = reach off n := by
  unfold reach
  simp only [MAX_SIZE, MAX_FILE, NINDIRECT, NDIRECT, BSIZE] at *
  split <;> split <;> omega

/-- What the chunks of a write of `n` bytes at `off` do, whether they store all bytes, and the offset
after them: they store all, or those that there are free blocks for, or those before a chunk that is
refused. -/
inductive Chunked (sb : SuperBlock) (x : Nat) (buf : Bytes.Source) (off n : Nat) (s : Fs) :
    (whole : Bool) → (off' : Nat) → (s' : Fs) → Prop
  | done {s' : Fs} (hreach : reach off n = n) (hstored : Stored sb x buf off n s s') :
      Chunked sb x buf off n s true (off + n) s'
  | short {t : Nat} {s' : Fs} (hlt : t < reach off n)
      (hstored : Stored sb x buf off t s s')
      (hfull : Full sb s')
      (hempty : slot s'.blocks (s'.inodes x).dinode (fslot ((off + t) / BSIZE)) = 0) :
      Chunked sb x buf off n s false (off + t) s'
  | refused {s' : Fs} (hlt : reach off n < n)
      (hstored : Stored sb x buf off (reach off n) s s') :
      Chunked sb x buf off n s false (off + reach off n + UINT32_ERR) s'

/-- The chunks of a write, after one that has been stored. -/
theorem Chunked.cons {n1 off' : Nat} {whole : Bool} (hn1 : n1 = min n (3 * BSIZE))
    (hmax : off + n1 ≤ MAX_SIZE) (halloc : Allocated sb (s1.view sb x) x)
    (hstored : Stored sb x buf off n1 s s1)
    (h : Chunked sb x (fun k => buf (n1 + k)) (off + n1) (n - n1) s1 whole off' s2) :
    Chunked sb x buf off n s whole off' s2 := by
  subst hn1
  have hreach := reach_chunk hmax
  have hsub : min n (3 * BSIZE) + (n - min n (3 * BSIZE)) = n := by omega
  cases h with
  | done hr hst =>
    have hn : off + min n (3 * BSIZE) + (n - min n (3 * BSIZE)) = off + n := by omega
    have hall := hstored.trans halloc hst
    rw [hsub] at hall
    rw [hn]
    exact .done (by omega) hall
  | @short t _ hlt hst hfull hempty =>
    have hall := hstored.trans halloc hst
    rw [Nat.add_assoc off] at hempty ⊢
    exact .short (by omega) hall hfull hempty
  | refused hlt hst =>
    have hall := hstored.trans halloc hst
    rw [hreach] at hall
    rw [Nat.add_assoc off, hreach]
    exact .refused (by omega) hall

theorem write_loop_chunks (hl : Layout sb) (hlog : LOG_SIZE ≤ sb.nlog) (h : Ready sb i s)
    (hoff : (s.files i).off ≤ (s.inodes (s.files i).ip).dinode.size.toNat) (buf : Bytes.Source)
    {n fuel done : Nat} (hfuel : n ≤ done + fuel) (hdone : done ≤ n) :
    Runs (OFile.write_loop sb i buf n fuel done) s (fun r s' => ∃ off', Ready sb i s' ∧
      s'.files = setAt s.files i { s.files i with off := off' } ∧ r ≤ n ∧
      Chunked sb (s.files i).ip (fun k => buf (done + k)) (s.files i).off (n - done) s
        (decide (r = n)) off' s') fun _ => False := by
  have stop : ∀ {s : Fs}, Ready sb i s →
      (s.files i).off ≤ (s.inodes (s.files i).ip).dinode.size.toNat → ∃ off', Ready sb i s ∧
      s.files = setAt s.files i { s.files i with off := off' } ∧ n ≤ n ∧
      Chunked sb (s.files i).ip (fun k => buf (n + k)) (s.files i).off (n - n) s
        (decide (n = n)) off' s := by
    intro s h hoff
    refine ⟨(s.files i).off, h, (setAt_same _).symm, Nat.le_refl _, ?_⟩
    rw [Nat.sub_self, decide_eq_true rfl]
    exact .done (Nat.le_zero.mp (reach_le _ _)) (.refl s _ _ hoff)
  induction fuel generalizing s done with
  | zero =>
    obtain rfl : done = n := by omega
    exact stop h hoff
  | succ fuel ih =>
    obtain rfl | hlt := Nat.eq_or_lt_of_le hdone
    · rw [OFile.write_loop, if_neg (Nat.lt_irrefl _)]
      exact stop h hoff
    · refine runs_write_chunk hlt ((write_section_runs hl hlog h _ (Nat.min_le_right _ _)).imp ?_)
      rintro r s1 ⟨h1, hfiles1, hchunk⟩
      cases hchunk with
      | refused hout hr hblocks hmem =>
        have hmin : 0 < min (n - done) (3 * BSIZE) := by
          simp only [BSIZE]
          omega
        have hreach : reach (s.files i).off (n - done) = 0 :=
          reach_refused (by omega) (by omega)
        refine ⟨fun _ => ⟨_, h1, by rw [hfiles1], Nat.le_of_lt hlt, ?_⟩, fun heq => ?_⟩
        · rw [decide_eq_false (Nat.ne_of_lt hlt), hr]
          have hnone := (@Stored.refl sb _ s (s.files i).ip
            (fun k => buf (done + k)) hoff).congr rfl rfl hblocks hmem
          have hshort : reach (s.files i).off (n - done) < n - done := by omega
          have hall := Chunked.refused hshort (by rwa [hreach])
          rwa [hreach] at hall
        · rw [hr] at heq
          simp only [UINT32_ERR, BSIZE] at heq
          omega
      | stored hoff1 hmax hstored hle hshort =>
        constructor
        · intro hne
          obtain ⟨hfull, hempty⟩ := hshort (by omega)
          refine ⟨_, h1, by rw [hfiles1], Nat.le_of_lt hlt, ?_⟩
          rw [decide_eq_false (Nat.ne_of_lt hlt)]
          have hreach := chunk_le_reach hmax
          exact .short (by omega) hstored hfull hempty
        · rintro rfl
          have hfile : s1.files i = { s.files i with
              off := (s.files i).off + min (n - done) (3 * BSIZE) } := by rw [hfiles1, setAt_self]
          have hip : (s1.files i).ip = (s.files i).ip := by rw [hfile]
          have hoff1 : (s1.files i).off ≤ (s1.inodes (s1.files i).ip).dinode.size.toNat := by
            rw [hip, hstored.size, hfile]
            exact Nat.le_max_right _ _
          have hlt1 : done < done + min (n - done) (3 * BSIZE) := by
            simp only [BSIZE]
            omega
          refine (ih h1 hoff1 (by omega) (by omega)).imp ?_
          rintro r s2 ⟨off', h2, hfiles2, hr, hchunks⟩
          refine ⟨off', h2, ?_, hr, ?_⟩
          · rw [hfiles2, hfiles1, setAt_self, setAt_setAt]
          · rw [hip, hfile, Nat.sub_add_eq] at hchunks
            simp only [Nat.add_assoc] at hchunks
            exact .cons rfl hmax (hip ▸ h1.alloc) hstored hchunks

/-- `OFile::write` of `n` bytes that returns `r` has kept the file and the offset in step.  When it
has written all bytes, the file is as after one write, and otherwise some first bytes are stored. -/
def InStep (sb : SuperBlock) (i : Nat) (buf : Bytes.Source) (n : Nat) (s : Fs) (r : Int) (s' : Fs) :
    Prop :=
  if r = n then
    (s'.files i).off = (s.files i).off + n ∧
    Runs (INode.write sb (s.files i).ip buf (s.files i).off n) { s with outstanding := 1 }
      (fun _ s1 => content s1.blocks (s1.inodes (s.files i).ip).dinode = s'.file_bytes i ∧
        (s1.inodes (s.files i).ip).dinode.size.toNat = s'.file_size i) TooBig
  else
    r = -1 ∧ ∃ t < n, (s'.files i).off = (s.files i).off + t ∧
      s'.file_bytes i = Bytes.splice (s.file_bytes i) (s.files i).off (Bytes.Source.list buf t)

/-- One write of the bytes that the chunks of a write have stored. -/
theorem Chunked.one_write (hl : Layout sb) (h : Ready sb i s)
    (hoff : (s.files i).off ≤ s.file_size i) (h' : Ready sb i s')
    (hip : (s'.files i).ip = (s.files i).ip) (hreach : reach (s.files i).off n = n)
    (hstored : Stored sb (s.files i).ip buf (s.files i).off n s s') :
    Runs (INode.write sb (s.files i).ip buf (s.files i).off n) { s with outstanding := 1 }
      (fun _ s1 => content s1.blocks (s1.inodes (s.files i).ip).dinode = s'.file_bytes i ∧
        (s1.inodes (s.files i).ip).dinode.size.toNat = s'.file_size i) TooBig := by
  have hbytes : s'.file_bytes i = content s'.blocks (s'.inodes (s.files i).ip).dinode := by
    rw [Fs.file_bytes, hip]
  have hsize : s'.file_size i = (s'.inodes (s.files i).ip).dinode.size.toNat := by
    rw [Fs.file_size, hip]
  rw [hbytes, hsize, hstored.content_eq hoff, hstored.size]
  have hg : Growing sb (fun _ => False) (s.files i).ip { s with outstanding := 1 } :=
    ⟨h.alloc, h.owned, Nat.le_refl _⟩
  by_cases hmax : (s.files i).off + n ≤ MAX_SIZE
  · refine (write_full_iff hl hg hoff hmax).imp ?_
    rintro tot s1 ⟨hst, _, hfull⟩
    have htot : tot = n := hfull.mpr
      (hstored.needed_le h.alloc (hip ▸ h'.alloc) h.owned (hip ▸ h'.owned) hstored.mapped)
    subst htot
    exact ⟨hst.content_eq hoff, hst.size⟩
  · obtain rfl : n = 0 := by
      by_contra hne
      have hle := @add_reach_le (s.files i).off n (by omega)
      omega
    refine (write_out_of_range (.inr (Nat.lt_of_not_le hmax))).imp ?_
    rintro _ s1 ⟨_, hs1⟩
    subst hs1
    have hsame : (s.inodes (s.files i).ip).dinode.size.toNat =
        max (s.inodes (s.files i).ip).dinode.size.toNat ((s.files i).off + 0) :=
      (Nat.max_eq_left hoff).symm
    exact ⟨(Bytes.splice_nil _ _).symm, hsame⟩

theorem ofile_write_runs (hl : Layout sb) (hlog : LOG_SIZE ≤ sb.nlog) (h : Ready sb i s)
    (hread : (s.files i).readable = true) (hoff : (s.files i).off ≤ s.file_size i)
    (buf : Bytes.Source) (n : Nat) :
    Runs (OFile.write sb i buf n) s (fun r s' => ∃ whole off', Ready sb i s' ∧
      s'.files = setAt s.files i { s.files i with off := off' } ∧
      (whole = true → r = n) ∧ (whole = false → r = -1) ∧
      Chunked sb (s.files i).ip buf (s.files i).off n s whole off' s') fun _ => False := by
  rw [OFile.write, runs_bind, runs_get, if_neg (by rw [hread]; decide)]
  split
  · next htype => exact absurd (h.type.symm.trans htype) (by decide)
  · next htype => exact absurd (h.type.symm.trans htype) (by decide)
  · refine (write_loop_chunks hl hlog h hoff buf (by omega) (Nat.zero_le n)).bind ?_
    rintro r s' ⟨off', h', hfiles, -, hchunks⟩
    simp only [Nat.zero_add, Nat.sub_zero] at hchunks
    rw [runs_pure]
    refine ⟨decide (r = n), off', h', hfiles, fun hr => ?_, fun hr => ?_, hchunks⟩
    · exact if_pos (of_decide_eq_true hr)
    · exact if_neg (of_decide_eq_false hr)

/-- Handle `0` is open on the file, at an offset. -/
def holeFs (size : UInt32) (off : Nat) : Fs := { smallFs with
  outstanding := 0
  inodes := setAt (fun _ => .absent) 1
    ⟨1, false, true, { DiskINode.zero with type := FileType.T_FILE, nlink := 1, size }⟩
  files := setAt (fun _ => .none) 0 ⟨.FD_INODE, 1, off, 0, true, true, 1⟩ }

theorem holeFs_holds (size : UInt32) (off : Nat) (i : Nat × Nat) (b : Nat) :
    ¬Holds smallSb ((holeFs size off).view smallSb 1) (holeFs size off).blocks i b := by
  rintro ⟨⟨hi, ht⟩, -, hs, hb⟩
  have hi' : i.1 = 0 ∨ i.1 = 1 := by
    have : i.1 < 2 := hi
    omega
  rcases hi' with h0 | h1
  · rw [h0] at ht
    have hzero : (dinodeAt smallSb smallFs.blocks 0).type = FileType.Invalid := by decide +kernel
    exact ht hzero
  · rw [h1] at hs
    refine hb (hs.symm.trans ?_)
    have haddr : ∀ k, ((holeFs size off).view smallSb 1 1).addr k = 0 := fun k => by
      simp [Fs.view, holeFs, DiskINode.addr, DiskINode.zero]
    unfold slot
    simp [haddr]

theorem holeFs_ready (size : UInt32) (off : Nat) : Ready smallSb 0 (holeFs size off) where
  type := rfl
  ref := Nat.one_pos
  valid := rfl
  unlocked := rfl
  alloc := by
    have htype : FileType.T_FILE ≠ FileType.Invalid := by decide
    refine ⟨Nat.lt_succ_self 1, ?_⟩
    rw [Fs.view_self]
    exact htype
  owned := {
    data := fun i b h => absurd h (holeFs_holds size off i b)
    extra_data := fun _ h => h.elim
    marked := smallFs_sound.marked
    part := {
      inj := fun h => absurd h (holeFs_holds size off _ _)
      apart := fun h => h.elim
      used_iff := fun b => by
        have hclear : ∀ b < 64, 34 ≤ b → bitAt smallSb smallFs.blocks b = false := by decide +kernel
        refine ⟨?_, ?_⟩
        · rintro ⟨hdata, hset⟩
          have := hclear b hdata.2 hdata.1
          rw [show bitAt smallSb smallFs.blocks b = true from hset] at this
          cases this
        · rintro (h | ⟨i, hi⟩)
          · exact h.elim
          · exact absurd hi (holeFs_holds size off i b) } }
  outstanding := rfl
  log := rfl

end Xv6fs
