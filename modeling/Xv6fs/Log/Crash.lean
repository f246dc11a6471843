import Xv6fs.Log.Group
import Xv6fs.Lib.Replay

/-! Crash atomicity: what `recover_from_log` leads the image to, wherever the process is killed
while operations, commits and flushes run. -/

namespace Xv6fs.Log

open Function (update update_self update_of_ne)
open Replay (replay)

variable {start size : Nat} {hdr : LogHeader} {old new d : Disk} {m : LogMem}

/-! ### A flush in the middle of a commit -/

/-- A copy of a block of the header to its place in the log keeps what holds of a commit. -/
theorem CommitInv.flush_copy {pc : CommitPc} (hok : HeaderOk start size hdr)
    (h : CommitInv start size hdr old new (m, pc)) {t : Nat} (ht : t < m.log_hdr.n) :
    CommitInv start size hdr old new (⟨⟨update m.cache.disk (start + t + 1)
      (new (m.log_hdr.block t)), m.cache.blocks⟩, m.log_hdr⟩, pc) := by
  have hroom := hok.room
  have hcopy : ∀ {i}, m.log_hdr = hdr → i < hdr.n →
      m.cache.disk (start + i + 1) = new (hdr.block i) →
      update m.cache.disk (start + t + 1) (new (m.log_hdr.block t)) (start + i + 1) =
        new (hdr.block i) := fun {i} hh hi hc => by
    by_cases hit : i = t
    · subst hit; rw [update_self, hh]
    · rw [update_of_ne (by omega)]; exact hc
  have hclean : m.log_hdr = hdr → ∀ {x}, Clean start size x m.cache.disk → Clean start size x
      (update m.cache.disk (start + t + 1) (new (m.log_hdr.block t))) := fun hh _ hc => by
    rw [hh] at ht
    refine ⟨?_, fun b hb => ?_⟩
    · rw [update_of_ne (by omega)]; exact hc.count
    · have := hb.2
      rw [update_of_ne (by omega)]; exact hc.home b hb
  have hpending : ∀ {k}, Pending start size hdr old new m k → Pending start size hdr old new
      ⟨⟨update m.cache.disk (start + t + 1) (new (m.log_hdr.block t)), m.cache.blocks⟩,
        m.log_hdr⟩ k := fun {k} hp =>
    { header := hp.header
      clean := hclean hp.header hp.clean
      pinned := hp.pinned
      rest := hp.rest
      copy := fun i hi hin => hcopy hp.header hin (hp.copy i hi hin) }
  cases pc with
  | enter => exact hpending h
  | write_log k => exact ⟨hpending h.1, h.2⟩
  | write_head => exact ⟨hpending h.1, h.2⟩
  | install k =>
    have h : Installing start size hdr new m k := h
    have hlt : t < hdr.n := by rw [← h.header]; exact ht
    exact {
      header := h.header
      logged := {
        count := by dsimp only; rw [update_of_ne (by omega)]; exact h.logged.count
        block := fun i hi => by dsimp only; rw [update_of_ne (by omega)]; exact h.logged.block i hi
        copy := fun i hi => hcopy h.header hi (h.logged.copy i hi)
        rest := fun b hb hnot => by
          have := hb.2
          dsimp only
          rw [update_of_ne (by omega)]
          exact h.logged.rest b hb hnot }
      pinned := h.pinned
      installed := fun i hi hin => by
        dsimp only
        rw [update_of_ne (hok.ne_log hin hlt)]
        exact h.installed i hi hin }
  | erase => exact absurd ht (by have := h.2.1; omega)
  | finish => exact absurd ht (by have := h.2; omega)

/-- Storing an empty header over a clean image. -/
theorem Clean.store (hsize : 0 < size) {h : LogHeader} (hn : h.n = 0)
    (hc : Clean start size new d) : Clean start size new (update d start (h.store (d start))) :=
  clean_of_erase hn hsize hc.home

/-- A header write keeps what holds of a commit that has nothing to log, or that installs. -/
theorem CommitInv.flush_head {pc : CommitPc} (hok : HeaderOk start size hdr)
    (h : CommitInv start size hdr old new (m, pc)) (hpc : m.log_hdr.n = 0 ∨ ∃ t, pc = .install t) :
    CommitInv start size hdr old new (⟨⟨update m.cache.disk start
      (m.log_hdr.store (m.cache.disk start)), m.cache.blocks⟩, m.log_hdr⟩, pc) := by
  have hsize := Nat.zero_lt_of_lt hok.room
  cases pc with
  | enter =>
    have h : Pending start size hdr old new m 0 := h
    have hn : m.log_hdr.n = 0 := hpc.resolve_right (by simp)
    exact {
      header := h.header
      clean := h.clean.store hsize hn
      pinned := h.pinned
      rest := h.rest
      copy := fun i hi => absurd hi (Nat.not_lt_zero i) }
  | write_log k =>
    have hn : m.log_hdr.n = 0 := hpc.resolve_right (by simp)
    exact absurd h.2 (by rw [← h.1.header]; omega)
  | write_head =>
    have hn : m.log_hdr.n = 0 := hpc.resolve_right (by simp)
    exact absurd h.2 (by rw [← h.1.header]; omega)
  | install k =>
    have h : Installing start size hdr new m k := h
    have hload := LogHeader.load_store m.log_hdr m.log_hdr (m.cache.disk start)
      (by rw [h.header]; exact hok.fits) (fun i hi => by
        rw [h.header] at hi ⊢
        exact (hok.home i hi).1)
    exact {
      header := h.header
      logged := {
        count := by dsimp only; rw [update_self, ← h.header]; exact hload.1
        block := fun i hi => by
          dsimp only
          rw [update_self, ← h.header]
          have hin : i < m.log_hdr.n := by rw [h.header]; exact hi
          have hlt : i < ((m.log_hdr.store (m.cache.disk start)).get32 0).toNat :=
            Nat.lt_of_lt_of_eq hin hload.1.symm
          simpa only [LogHeader.load, hlt, if_true] using hload.2 i hin
        copy := fun i hi => by
          dsimp only
          rw [update_of_ne (by omega)]
          exact h.logged.copy i hi
        rest := fun b hb hnot => by
          dsimp only
          rw [update_of_ne (home_ne_start hsize hb)]
          exact h.logged.rest b hb hnot }
      pinned := h.pinned
      installed := fun i hi hin => by
        dsimp only
        rw [update_of_ne (hok.ne_start hin)]
        exact h.installed i hi hin }
  | erase =>
    obtain ⟨-, hn, hhome⟩ := h
    refine ⟨.inr (clean_of_erase hn hsize hhome), hn, fun b hb => ?_⟩
    dsimp only
    rw [update_of_ne (home_ne_start hsize hb)]
    exact hhome b hb
  | finish => exact ⟨Clean.store hsize h.2 h.1, h.2⟩

/-! ### What a step does to the cached contents -/

theorem content_of_blocks {c c' : BlockCache} {b : Nat} (hblocks : c'.blocks = c.blocks)
    (hdisk : c'.disk b = c.disk b) : c'.content b = c.content b := by
  simp only [BlockCache.content, hblocks, hdisk]

/-- A step of `commit` leaves the content of the home blocks as it is. -/
theorem commitStep_content {pc : CommitPc} (hok : HeaderOk start size hdr)
    (hfree : LogFree start size m) (hlive : m.cache.Live)
    (h : CommitInv start size hdr old new (m, pc)) {b : Nat} (hb : Home start size b)
    (hcontent : m.cache.content b = new b) :
    (commitStep start (m, pc)).1.cache.content b = new b := by
  have hroom := hok.room
  have hhome := hb.2
  have hstart := hfree start (Nat.le_refl _) (by omega)
  rw [← hcontent]
  cases pc with
  | enter => rw [commitStep]; split <;> rfl
  | write_log t =>
    rw [commitStep]
    split
    · next ht =>
      have hhdr : m.log_hdr = hdr := h.1.header
      rw [hhdr] at ht
      rw [write_log_at_eq hlive (hfree.at (by omega)) (by rw [hhdr]; exact hok.ne_log ht ht)]
      exact content_of_blocks rfl (update_of_ne (by omega) _ _)
    · rfl
  | write_head =>
    rw [commitStep, write_head_eq hstart]
    exact content_of_blocks rfl (update_of_ne (by omega) _ _)
  | install t =>
    have h : Installing start size hdr new m t := h
    rw [commitStep]
    split
    · next ht =>
      rw [h.header] at ht
      obtain ⟨blk, hblk, hdata⟩ := h.pinned t (Nat.le_refl _) ht
      rw [install_at_eq (hfree.at (by omega)) (by rw [h.header]; exact hok.ne_log ht ht)
        (by rw [h.header]; exact hblk), h.header, h.logged.copy t ht]
      by_cases hbt : b = hdr.block t
      · subst hbt
        rw [BlockCache.content_of_some hblk, hdata]
        split <;> simp [BlockCache.content]
      · simp [BlockCache.content, hbt]
    · rfl
  | erase =>
    rw [commitStep, write_head_eq hstart]
    exact content_of_blocks rfl (update_of_ne (by omega) _ _)
  | finish => rfl

/-- How many pins the log holds on block `b`. -/
def pins (h : LogHeader) (b : Nat) : Nat := if h.Has b then 1 else 0

/-- `log_write` of a block whose modification holds a reference, and the release after it, drop
that reference or turn it into the pin. -/
theorem log_write_release {b : Nat} (hlive : m.cache.Live)
    (hrefs : pins m.log_hdr b + 1 ≤ m.cache.refs b) :
    let c := (log_write m b).cache.block_release b
    c.disk = m.cache.disk ∧ (∀ x, c.content x = m.cache.content x) ∧ c.Live ∧
      (∀ x, m.cache.blocks x = none → c.blocks x = none) ∧
      ∀ x, m.cache.refs x ≤ c.refs x + if x = b then pins m.log_hdr b else 0 := by
  by_cases hb : m.log_hdr.Has b
  · have hpins : pins m.log_hdr b = 1 := if_pos hb
    rw [hpins] at hrefs ⊢
    rw [log_write_of_has hb, BlockCache.block_release_of_refs (by omega)]
    refine ⟨rfl, fun x => ?_, hlive.update _ (by omega), fun x hx => ?_, fun x => ?_⟩
    · rw [BlockCache.content_update]
      split
      · next h => rw [h]
      · rfl
    · have hne : x ≠ b := by
        rintro rfl
        obtain ⟨blk, hblk, -⟩ := BlockCache.exists_of_refs (c := m.cache) (b := x) (by omega)
        rw [hx] at hblk
        cases hblk
      exact (update_of_ne hne _ _).trans hx
    · rw [BlockCache.refs_update]
      split
      · next h => subst h; omega
      · exact Nat.le_refl _
  · rw [log_write_of_not_has hb, BlockCache.block_release_block_pin (by omega)]
    exact ⟨rfl, fun _ => rfl, hlive, fun _ => id, fun x => Nat.le_add_right _ _⟩

theorem log_write_headerOk {b : Nat} (hok : HeaderOk start size m.log_hdr)
    (hb : Home start size b) (hfits : m.log_hdr.n < LOG_SIZE) (hroom : m.log_hdr.n < size - 1) :
    HeaderOk start size (log_write m b).log_hdr where
  fits := by
    by_cases h : m.log_hdr.Has b
    · rw [log_write_of_has h]; exact hok.fits
    · rw [log_write_of_not_has h]; exact hfits
  room := by
    by_cases h : m.log_hdr.Has b
    · rw [log_write_of_has h]; exact hok.room
    · rw [log_write_of_not_has h]; dsimp only; omega
  home i hi := by
    rcases (log_write_has _).mp ⟨i, hi, rfl⟩ with ⟨k, hk, hkb⟩ | heq
    · rw [← hkb]; exact hok.home k hk
    · rw [heq]; exact hb
  distinct := log_write_distinct hok.distinct

theorem headerOk_of_empty {h : LogHeader} (hsize : 0 < size) (hn : h.n = 0) :
    HeaderOk start size h where
  fits := by omega
  room := by omega
  home i hi := by omega
  distinct i hi := by omega

namespace Machine

variable {s s' : Machine} {i : Nat}

/-- How many modifications of block `b` are not logged yet. -/
def locks (s : Machine) (b : Nat) : Nat := (s.held.map Prod.fst).count b

/-- The blocks of `d` with every modification. -/
def written (d : Disk) (s : Machine) : Disk := replay (fun _ => true) s.hist.writes d

/-- The blocks of `d` with the modifications of the operations whose commit has returned. -/
def settled (d : Disk) (s : Machine) : Disk := replay s.hist.returned s.hist.writes d

/-- No operation is in `commit`. -/
def NoCommit (s : Machine) : Prop := ∀ i pc, s.op i ≠ .commit pc

/-- What holds while no operation is in `commit`: the log on the image is empty, every logged block
is pinned, and a home block that is neither logged nor being modified is settled. -/
structure Open (start size : Nat) (d : Disk) (s : Machine) : Prop where
  clean : Clean start size (s.settled d) s.mem.cache.disk
  counted : ∀ b, pins s.mem.log_hdr b + s.locks b ≤ s.mem.cache.refs b
  untouched : ∀ b, Home start size b → ¬s.mem.log_hdr.Has b → s.locks b = 0 →
    s.settled d b = s.written d b

/-- How the header, the image, the log and the cache fit together over the image `d`. -/
structure CrashInv (start size : Nat) (d : Disk) (s : Machine) : Prop where
  header : HeaderOk start size s.mem.log_hdr
  free : LogFree start size s.mem
  live : s.mem.cache.Live
  held : ∀ p ∈ s.held, s.op p.2 = .running ∧ Home start size p.1
  begun : ∀ e ∈ s.hist.writes, s.op e.1 ≠ .idle
  content : ∀ b, Home start size b → s.mem.cache.content b = s.written d b
  quiet : s.NoCommit → s.Open start size d
  commit : ∀ c pc, s.op c = .commit pc → ∃ hdr, HeaderOk start size hdr ∧
    CommitInv start size hdr (s.settled d) (s.written d) (s.mem, pc)

theorem boot_crashInv (hsize : 0 < size) (hlog : ((d start).get32 0).toNat = 0) :
    (boot d).CrashInv start size d where
  header := headerOk_of_empty hsize rfl
  free _ _ _ := rfl
  live b blk h := by cases h
  held p hp := absurd hp List.not_mem_nil
  begun e he := absurd he List.not_mem_nil
  content _ _ := rfl
  quiet _ := {
    clean := ⟨hlog, fun _ _ => rfl⟩
    counted := fun b => by
      have hnot : ¬(Log.boot d).log_hdr.Has b := by
        rintro ⟨k, hk, -⟩
        exact absurd hk (Nat.not_lt_zero k)
      simp [pins, hnot, locks, boot]
    untouched := fun _ _ _ _ => rfl }
  commit c pc h := by cases h

theorem CrashInv.begin_op (hg : s.GroupInv) (h : s.CrashInv start size d)
    (hs : s.step start size (.begin_op i) = some s') : s'.CrashInv start size d := by
  simp only [step, Option.ite_none_right_eq_some, Option.some.injEq] at hs
  obtain ⟨⟨hidle, hadm⟩, rfl⟩ := hs
  have hnone : s.NoCommit := fun c pc hc => by
    have := hg.committing.mpr ⟨c, pc, hc⟩
    simp [hadm.1] at this
  exact { h with
    held := fun p hp => by
      obtain ⟨hrun, hhome⟩ := h.held p hp
      have hne : p.2 ≠ i := by rintro rfl; simp [hidle] at hrun
      exact ⟨by dsimp only; rw [update_of_ne hne]; exact hrun, hhome⟩
    begun := fun e he => by
      have hne : e.1 ≠ i := by rintro rfl; exact h.begun e he hidle
      dsimp only
      rw [update_of_ne hne]
      exact h.begun e he
    quiet := fun _ => { h.quiet hnone with }
    commit := fun c pc hc => absurd (op_update_commit (by simp) hc) (hnone c pc) }

theorem CrashInv.write {b : Nat} {f : BlockData → BlockData} (hg : s.GroupInv)
    (h : s.CrashInv start size d) (hs : s.step start size (.write i b f) = some s') :
    s'.CrashInv start size d := by
  simp only [step, Option.ite_none_right_eq_some, Option.some.injEq] at hs
  obtain ⟨⟨hrun, hb, -⟩, rfl⟩ := hs
  obtain ⟨-, -, hnone⟩ := hg.not_committing hrun
  have hopen := h.quiet hnone
  have hbhome := hb.2
  have hret : s.hist.returned i = false := by
    cases hr : s.hist.returned i with
    | false => rfl
    | true => have := hg.returned i hr; simp [hrun, OpPc.ended] at this
  have hsettled : replay s.hist.returned (s.hist.writes ++ [(i, b, f)]) d = s.settled d :=
    Replay.replay_snoc_of_not hret
  rw [BlockCache.modify_block_read]
  exact {
    header := h.header
    free := fun x hx hx' => by
      dsimp only
      rw [update_of_ne (by omega)]
      exact h.free x hx hx'
    live := h.live.update _ (by omega)
    held := fun p hp => by
      rcases List.mem_cons.mp hp with rfl | hp
      · exact ⟨hrun, hb⟩
      · exact h.held p hp
    begun := fun e he => by
      rcases List.mem_append.mp he with he | he
      · exact h.begun e he
      · obtain rfl := List.mem_singleton.mp he
        simp [hrun]
    content := fun x hx => by
      dsimp only
      rw [BlockCache.content_update]
      split
      · next hxb =>
        subst hxb
        rw [h.content x hx, written, written]
        exact (Replay.replay_snoc_self (P := fun _ => true) (e := (i, x, f)) rfl).symm
      · next hxb =>
        rw [written, Replay.replay_snoc_ne hxb]
        exact h.content x hx
    quiet := fun _ => {
      clean := by rw [settled, hsettled]; exact hopen.clean
      counted := fun x => by
        have := hopen.counted x
        dsimp only
        rw [BlockCache.refs_update]
        simp only [locks, List.map_cons, List.count_cons] at this ⊢
        by_cases hxb : x = b
        · subst hxb
          simp only [beq_self_eq_true, if_true]
          omega
        · rw [if_neg hxb, if_neg (by simpa using Ne.symm hxb)]
          exact this
      untouched := fun x hx hnot hlocks => by
        simp only [locks, List.map_cons, List.count_cons] at hlocks
        have hxb : x ≠ b := by rintro rfl; simp at hlocks
        rw [settled, hsettled, written, Replay.replay_snoc_ne hxb]
        exact hopen.untouched x hx hnot (by simp only [locks]; omega) }
    commit := fun c pc hc => absurd hc (hnone c pc) }

theorem CrashInv.log_write {b : Nat} (hg : s.GroupInv) (h : s.CrashInv start size d)
    (hs : s.step start size (.log_write i b) = some s') : s'.CrashInv start size d := by
  simp only [step, Option.ite_none_right_eq_some, Option.some.injEq] at hs
  obtain ⟨⟨hrun, hheld, hok⟩, rfl⟩ := hs
  obtain ⟨-, -, hnone⟩ := hg.not_committing hrun
  have hopen := h.quiet hnone
  have hlocks : ∀ x, ((s.held.erase (b, i)).map Prod.fst).count x + (if x = b then 1 else 0) =
      s.locks x := fun x => by
    have hperm := (List.perm_cons_erase hheld).map Prod.fst
    rw [locks, hperm.count_eq, List.map_cons, List.count_cons]
    by_cases hx : x = b
    · subst hx; simp
    · simp [hx, Ne.symm hx]
  have hrefs : pins s.mem.log_hdr b + 1 ≤ s.mem.cache.refs b := by
    have h1 := hlocks b
    have h2 := hopen.counted b
    simp only [if_true] at h1
    omega
  obtain ⟨hdisk, hcontent, hlive, hfree, hcount⟩ := log_write_release h.live hrefs
  exact {
    header := log_write_headerOk h.header (h.held _ hheld).2 hok.1.1 hok.1.2
    free := fun x hx hx' => hfree x (h.free x hx hx')
    live := hlive
    held := fun p hp => h.held p (List.mem_of_mem_erase hp)
    begun := h.begun
    content := fun x hx => (hcontent x).trans (h.content x hx)
    quiet := fun _ => {
      clean := ⟨by dsimp only; rw [hdisk]; exact hopen.clean.count, fun x hx => by
        dsimp only; rw [hdisk]; exact hopen.clean.home x hx⟩
      counted := fun x => by
        have h1 := hopen.counted x
        have h2 := hcount x
        have h3 := hlocks x
        have hhas := log_write_has (m := s.mem) (b := b) x
        dsimp only [locks] at h1 h3 ⊢
        by_cases hx : x = b
        · subst hx
          simp only [if_true] at h2 h3
          have : pins (Log.log_write s.mem x).log_hdr x = 1 := if_pos (hhas.mpr (.inr rfl))
          omega
        · simp only [hx, if_false, or_false] at h2 h3 hhas
          have : pins (Log.log_write s.mem b).log_hdr x = pins s.mem.log_hdr x := by
            simp only [pins, hhas]
          omega
      untouched := fun x hx hnot hzero => by
        have h3 := hlocks x
        dsimp only [locks] at hzero
        have hnot' : ¬s.mem.log_hdr.Has x ∧ x ≠ b := by
          rw [log_write_has] at hnot
          exact not_or.mp hnot
        rw [if_neg hnot'.2] at h3
        exact hopen.untouched x hx hnot'.1 (by omega) }
    commit := fun c pc hc => absurd hc (hnone c pc) }

theorem CrashInv.end_op (hg : s.GroupInv) (h : s.CrashInv start size d)
    (hs : s.step start size (.end_op i) = some s') : s'.CrashInv start size d := by
  simp only [step, Option.ite_none_right_eq_some] at hs
  obtain ⟨⟨hrun, hnotheld, -⟩, hs⟩ := hs
  obtain ⟨-, -, hnone⟩ := hg.not_committing hrun
  have hopen := h.quiet hnone
  have hbegun : ∀ p : OpPc, p ≠ .idle → ∀ e ∈ s.hist.writes, update s.op i p e.1 ≠ .idle :=
    fun p hp e he => by
      by_cases hei : e.1 = i
      · rw [hei, update_self]; exact hp
      · rw [update_of_ne hei]; exact h.begun e he
  have hheld : ∀ p : OpPc, ∀ q ∈ s.held, update s.op i p q.2 = .running ∧ Home start size q.1 :=
    fun p q hq => ⟨by rw [update_of_ne (hnotheld q hq)]; exact (h.held q hq).1, (h.held q hq).2⟩
  split at hs
  · next hz =>
    cases hs
    -- The operations that hold a block run, and none of them is left.
    have hempty : s.held = [] := by
      obtain ⟨running, hcard, hmem⟩ := hg.count
      refine List.eq_nil_iff_forall_not_mem.mpr fun p hp => ?_
      have hi := (hmem i).mpr hrun
      have hp2 := (hmem p.2).mpr (h.held p hp).1
      have htwo : ({p.2, i} : Finset Nat).card ≤ running.card := Finset.card_le_card fun x hx => by
        rcases Finset.mem_insert.mp hx with rfl | hx
        · exact hp2
        · rw [Finset.mem_singleton.mp hx]; exact hi
      rw [Finset.card_pair (hnotheld p hp)] at htwo
      omega
    have hunlocked : ∀ b, s.locks b = 0 := fun b => by simp [locks, hempty]
    exact { h with
      held := hheld _
      begun := hbegun _ (by simp)
      quiet := fun hno => absurd (update_self _ _ _) (hno i .enter)
      commit := fun c pc hc => by
        have hci : c = i ∧ pc = .enter := by
          by_cases hci : c = i
          · subst hci
            dsimp only at hc
            rw [update_self] at hc
            cases hc
            exact ⟨rfl, rfl⟩
          · dsimp only at hc
            rw [update_of_ne hci] at hc
            exact absurd hc (hnone c pc)
        obtain ⟨rfl, rfl⟩ := hci
        exact ⟨s.mem.log_hdr, h.header, {
          header := rfl
          clean := hopen.clean
          pinned := fun k hk => by
            have hcount := hopen.counted (s.mem.log_hdr.block k)
            have hpin : pins s.mem.log_hdr (s.mem.log_hdr.block k) = 1 := if_pos ⟨k, hk, rfl⟩
            obtain ⟨blk, hblk, -⟩ := BlockCache.exists_of_refs (c := s.mem.cache)
              (b := s.mem.log_hdr.block k) (by omega)
            exact ⟨blk, hblk, by
              rw [← BlockCache.content_of_some hblk]
              exact h.content _ (h.header.home k hk)⟩
          rest := fun b hb hnot => hopen.untouched b hb hnot (hunlocked b)
          copy := fun k hk => absurd hk (Nat.not_lt_zero k) }⟩ }
  · cases hs
    exact { h with
      held := hheld _
      begun := hbegun _ (by simp)
      quiet := fun _ => { hopen with }
      commit := fun c pc hc => absurd (op_update_commit (by simp) hc) (hnone c pc) }

/-- While an operation is in `commit` no block is being modified. -/
theorem CrashInv.held_empty (hg : s.GroupInv) (h : s.CrashInv start size d) {c : Nat}
    {pc : CommitPc} (hc : s.op c = .commit pc) : s.held = [] :=
  List.eq_nil_iff_forall_not_mem.mpr fun p hp =>
    (hg.not_committing (h.held p hp).1).2.2 c pc hc

theorem CrashInv.commit_next {pc : CommitPc} (hg : s.GroupInv) (h : s.CrashInv start size d)
    (hi : s.op i = .commit pc) : CrashInv start size d { s with
      mem := (commitStep start (s.mem, pc)).1
      op := update s.op i (.commit (commitStep start (s.mem, pc)).2) } := by
  obtain ⟨hdr, hok, hinv⟩ := h.commit i pc hi
  obtain ⟨hfree, hlive, hnext⟩ := commitStep_inv hok (s := (s.mem, pc)) h.free h.live hinv
  have hempty := h.held_empty hg hi
  exact {
    header := by
      rcases (commitStep_header start (hg.cleared i pc hi)).2.2 with heq | hzero
      · dsimp only; rw [heq]; exact h.header
      · exact headerOk_of_empty (Nat.zero_lt_of_lt hok.room) hzero
    free := hfree
    live := hlive
    held := fun p hp => by dsimp only at hp; rw [hempty] at hp; cases hp
    begun := fun e he => by
      by_cases hei : e.1 = i
      · dsimp only; rw [hei, update_self]; simp
      · dsimp only; rw [update_of_ne hei]; exact h.begun e he
    content := fun b hb => commitStep_content hok h.free h.live hinv hb (h.content b hb)
    quiet := fun hno => absurd (update_self _ _ _) (hno i _)
    commit := fun c pc' hc => by
      by_cases hci : c = i
      · subst hci
        dsimp only at hc
        rw [update_self] at hc
        cases hc
        exact ⟨hdr, hok, hnext⟩
      · dsimp only at hc
        rw [update_of_ne hci] at hc
        exact absurd (hg.one c i _ _ hc hi) hci }

theorem CrashInv.commit_finish (hg : s.GroupInv) (h : s.CrashInv start size d)
    (hi : s.op i = .commit .finish) : (s.commitOp start i .finish).CrashInv start size d := by
  obtain ⟨hdr, hok, hclean, hn⟩ := h.commit i _ hi
  have hempty := h.held_empty hg hi
  -- Every operation that has modified a block has ended.
  have hsettled : replay (fun k => (s.op k).ended) s.hist.writes d = s.written d := by
    refine Replay.replay_congr fun e he => ?_
    have hbegun := h.begun e he
    have hrun : s.op e.1 ≠ .running := fun hrun => (hg.not_committing hrun).2.2 i _ hi
    cases hop : s.op e.1 with
    | idle => exact absurd hop hbegun
    | running => exact absurd hop hrun
    | commit pc => rfl
    | done => rfl
  have hnone : ∀ c pc, update s.op i .done c ≠ .commit pc := fun c pc hc => by
    have := hg.one c i _ _ (op_update_commit (by simp) hc) hi
    subst this
    rw [update_self] at hc
    cases hc
  exact {
    header := h.header
    free := h.free
    live := h.live
    held := fun p hp => by simp only [commitOp, hempty] at hp; cases hp
    begun := fun e he => by
      by_cases hei : e.1 = i
      · simp [commitOp, hei]
      · simp only [commitOp, update_of_ne hei]; exact h.begun e he
    content := h.content
    quiet := fun _ => {
      clean := by simp only [settled, commitOp, hsettled]; exact hclean
      counted := fun b => by
        have hnot : ¬s.mem.log_hdr.Has b := by rintro ⟨k, hk, -⟩; omega
        simp [commitOp, pins, hnot, locks, hempty]
      untouched := fun b _ _ _ => by simp only [settled, commitOp, hsettled]; rfl }
    commit := fun c pc hc => absurd hc (hnone c pc) }

theorem CrashInv.commitStep (hg : s.GroupInv) (h : s.CrashInv start size d)
    (hs : s.step start size (.commit i) = some s') : s'.CrashInv start size d := by
  simp only [step] at hs
  split at hs
  · next pc hi =>
    rw [Option.ite_none_right_eq_some, Option.some.injEq] at hs
    obtain ⟨-, rfl⟩ := hs
    cases pc with
    | finish => exact h.commit_finish hg hi
    | _ => exact h.commit_next hg hi
  · cases hs

/-- The next header write of a flush comes while the header is empty or a commit installs. -/
def FlushSafe (s : Machine) : Action → Prop
  | .flush j => s.flush j = .write_head →
    s.mem.log_hdr.n = 0 ∨ ∃ c t, s.op c = .commit (.install t)
  | _ => True

theorem CrashInv.flush {j : Nat} (hg : s.GroupInv) (h : s.CrashInv start size d)
    (hsafe : s.FlushSafe (.flush j)) (hs : s.step start size (.flush j) = some s') :
    s'.CrashInv start size d := by
  have hroom := h.header.room
  simp only [step, flushOp] at hs
  split at hs
  · next t _ =>
    split at hs
    · next ht =>
      rw [Option.ite_none_right_eq_some, Option.some.injEq] at hs
      obtain ⟨-, rfl⟩ := hs
      have hhome := h.header.home t ht
      rw [write_log_at_eq h.live (h.free.at (by omega)) (h.header.ne_log ht ht),
        h.content _ hhome]
      have hdisk : ∀ b, Home start size b → update s.mem.cache.disk (start + t + 1)
          (s.written d (s.mem.log_hdr.block t)) b = s.mem.cache.disk b := fun b hb => by
        have := hb.2
        rw [update_of_ne (by omega)]
      have hcontent : ∀ b, Home start size b → BlockCache.content ⟨update s.mem.cache.disk
          (start + t + 1) (s.written d (s.mem.log_hdr.block t)), s.mem.cache.blocks⟩ b =
          s.mem.cache.content b := fun b hb => content_of_blocks rfl (hdisk b hb)
      exact { h with
        content := fun b hb => (hcontent b hb).trans (h.content b hb)
        quiet := fun hno => { h.quiet hno with
          clean := ⟨by dsimp only; rw [update_of_ne (by omega)]; exact (h.quiet hno).clean.count,
            fun b hb => (hdisk b hb).trans ((h.quiet hno).clean.home b hb)⟩ }
        commit := fun c pc hc => by
          obtain ⟨hdr, hok, hinv⟩ := h.commit c pc hc
          exact ⟨hdr, hok, hinv.flush_copy hok ht⟩ }
    · cases hs
      exact { h with
        quiet := fun hno => { h.quiet hno with } }
  · next hj =>
    cases hs
    have hsize : 0 < size := by omega
    rw [write_head_eq (h.free start (Nat.le_refl _) (by omega))]
    have hdisk : ∀ b, Home start size b → update s.mem.cache.disk start
        (s.mem.log_hdr.store (s.mem.cache.disk start)) b = s.mem.cache.disk b := fun b hb =>
      update_of_ne (home_ne_start hsize hb) _ _
    have hcontent : ∀ b, Home start size b → BlockCache.content ⟨update s.mem.cache.disk start
        (s.mem.log_hdr.store (s.mem.cache.disk start)), s.mem.cache.blocks⟩ b =
        s.mem.cache.content b := fun b hb => content_of_blocks rfl (hdisk b hb)
    exact { h with
      content := fun b hb => (hcontent b hb).trans (h.content b hb)
      quiet := fun hno => { h.quiet hno with
        clean := by
          rcases hsafe hj with hn | ⟨c, t, hc⟩
          · exact (h.quiet hno).clean.store hsize hn
          · exact absurd hc (hno c _) }
      commit := fun c pc hc => by
        obtain ⟨hdr, hok, hinv⟩ := h.commit c pc hc
        refine ⟨hdr, hok, hinv.flush_head hok ((hsafe hj).imp_right ?_)⟩
        rintro ⟨c', t, hc'⟩
        refine ⟨t, ?_⟩
        obtain rfl := hg.one c c' _ _ hc hc'
        rw [hc] at hc'
        cases hc'
        rfl }
  · cases hs

theorem step_crashInv {a : Action} (hg : s.GroupInv) (h : s.CrashInv start size d)
    (hsafe : s.FlushSafe a) (hs : s.step start size a = some s') : s'.CrashInv start size d := by
  cases a with
  | begin_op i => exact h.begin_op hg hs
  | write i b f => exact h.write hg hs
  | log_write i b => exact h.log_write hg hs
  | end_op i => exact h.end_op hg hs
  | commit i => exact h.commitStep hg hs
  | flush j => exact h.flush hg hsafe hs

theorem reach_crashInv (hsize : 0 < size) (hlog : ((d start).get32 0).toNat = 0)
    (h : Transition.Reach (fun s => s = boot d) (step start size) FlushSafe s) :
    s.GroupInv ∧ s.CrashInv start size d :=
  h.invariant (fun s => s.GroupInv ∧ s.CrashInv start size d)
    (by rintro _ rfl; exact ⟨boot_groupInv d, boot_crashInv hsize hlog⟩)
    fun _ _ _ hinv hsafe hs => ⟨step_groupInv hinv.1 hs, step_crashInv hinv.1 hinv.2 hsafe hs⟩

/-- What a kill of the process leaves: after recovery the home blocks are those of `d` with the
complete writes of some set of operations, which holds only operations that have called `end_op`
and all those whose commit has returned. -/
def Atomic (start size : Nat) (d : Disk) (s : Machine) : Prop :=
  ∃ done : Nat → Bool, (∀ i, done i = true → (s.op i).ended = true) ∧
    (∀ i, s.hist.returned i = true → done i = true) ∧
    ∀ b, Home start size b → recover start s.mem.cache.disk b = replay done s.hist.writes d b

theorem CrashInv.atomic (hsize : 0 < size) (hg : s.GroupInv) (h : s.CrashInv start size d) :
    s.Atomic start size d := by
  have hsettled : Clean start size (s.settled d) s.mem.cache.disk → s.Atomic start size d :=
    fun hc => ⟨s.hist.returned, hg.returned, fun _ => id,
      (recover_clean (noHeader_ok hsize) (.inr hc)).home⟩
  by_cases hno : s.NoCommit
  · exact hsettled (h.quiet hno).clean
  · simp only [NoCommit, not_forall, ne_eq, not_not] at hno
    obtain ⟨c, pc, hc⟩ := hno
    obtain ⟨hdr, hok, hinv⟩ := h.commit c pc hc
    by_cases hpast : pc.pastHead
    · refine ⟨fun i => (s.op i).ended, fun _ => id, hg.returned, fun b hb => ?_⟩
      rw [(recover_clean hok (hinv.past hpast)).home b hb]
      refine congrFun (Replay.replay_congr fun e he => ?_) b
      have hrun : s.op e.1 ≠ .running := fun hrun => (hg.not_committing hrun).2.2 c _ hc
      cases hop : s.op e.1 with
      | idle => exact absurd hop (h.begun e he)
      | running => exact absurd hop hrun
      | commit pc => rfl
      | done => rfl
    · exact hsettled (hinv.before hpast)

/-- Crash atomicity: in every run whose flushes write the header only while it is empty or a commit
installs, a kill of the process at any point leaves the complete writes of a set of operations. -/
theorem crash_atomicity (hsize : 0 < size) (hlog : ((d start).get32 0).toNat = 0)
    (h : Transition.Reach (fun s => s = boot d) (step start size) FlushSafe s) :
    s.Atomic start size d :=
  (reach_crashInv hsize hlog h).2.atomic hsize (reach_crashInv hsize hlog h).1

def isFlush : Action → Bool
  | .flush _ => true
  | _ => false

/-- `crash_atomicity` between the header and the first installed block of a commit. -/
theorem crash_atomicity_commit : ∃ s : Machine, s.op 0 = .commit (.install 0) ∧
    s.Atomic 2 30 fun _ => Bytes.Buffer.zero BSIZE := by
  obtain ⟨s, hs, hp⟩ := (Transition.Reach.start rfl : Transition.Reach
      (fun s => s = boot fun _ => Bytes.Buffer.zero BSIZE) (step 2 30)
      (fun _ a => isFlush a = false) _).of_run
    [.begin_op 0, .write 0 100 marked, .log_write 0 100, .end_op 0, .commit 0, .commit 0,
      .commit 0, .commit 0]
    (p := fun s => s.op 0 == .commit (.install 0)) (by decide)
  refine ⟨s, beq_iff_eq.mp hp, crash_atomicity (by decide)
    (by simp [Bytes.Buffer.get32, Bytes.word32]) (hs.mono fun s a ha => ?_)⟩
  cases a with
  | flush j => cases ha
  | _ => trivial

/-- A flush writes the header of an operation that is still outstanding, and recovery makes its
write visible. -/
theorem crash_atomicity_fails : ¬∀ (d : Disk) (s : Machine), ((d 2).get32 0).toNat = 0 →
    Transition.Reach (fun s => s = boot d) (step 2 30) (fun _ _ => True) s → s.Atomic 2 30 d := by
  intro h
  obtain ⟨s, hs, hp⟩ := (Transition.Reach.start rfl : Transition.Reach
      (fun s => s = boot fun _ => Bytes.Buffer.zero BSIZE) (step 2 30) (fun _ _ => True) _).of_run
    [.begin_op 0, .write 0 100 marked, .log_write 0 100, .flush 0, .flush 0, .flush 0]
    (p := fun s => s.op 0 == .running && s.hist.writes.all (fun e => e.1 == 0) &&
      (recover 2 s.mem.cache.disk 100).get 0 == 1) (by decide +kernel)
  simp only [Bool.and_eq_true, beq_iff_eq, List.all_eq_true] at hp
  obtain ⟨⟨hrun, hwrites⟩, hmark⟩ := hp
  obtain ⟨done, hended, -, hrec⟩ := h _ s (by simp [Bytes.Buffer.get32, Bytes.word32]) hs
  have hdone : done 0 = false := by
    cases hd : done 0 with
    | false => rfl
    | true => have := hended 0 hd; simp [hrun, OpPc.ended] at this
  rw [hrec 100 (by decide), Replay.replay_none fun e he => by rw [hwrites e he]; exact hdone] at hmark
  simp at hmark

end Machine

end Xv6fs.Log
