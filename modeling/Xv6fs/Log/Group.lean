import Xv6fs.Log.Machine

/-! Group commit: how `begin_op`, `end_op` and the steps of `commit` keep the counters of the log
consistent, so that a commit runs alone and holds every block of the operations that it ends. -/

namespace Xv6fs

open Function (update update_self update_of_ne update_eq_self)

namespace LogHeader

variable {h : LogHeader} {b : Nat}

theorem index_of_has (hb : h.Has b) : h.index b < h.n ∧ h.block (h.index b) = b := by
  obtain ⟨i, hi, hib⟩ := hb
  have hlt : (List.range h.n).findIdx (fun i => h.block i == b) < (List.range h.n).length := by
    rw [List.findIdx_lt_length]
    exact ⟨i, List.mem_range.mpr hi, by simp [hib]⟩
  have hget := List.findIdx_getElem (w := hlt)
  rw [List.getElem_range] at hget
  rw [List.length_range] at hlt
  exact ⟨hlt, beq_iff_eq.mp hget⟩

theorem index_of_not_has (hb : ¬h.Has b) : h.index b = h.n := by
  have : (List.range h.n).findIdx (fun i => h.block i == b) = (List.range h.n).length := by
    rw [List.findIdx_eq_length]
    intro i hi
    simp only [beq_eq_false_iff_ne, ne_eq]
    exact fun heq => hb ⟨i, List.mem_range.mp hi, heq⟩
  rw [index, this, List.length_range]

/-- A header that names distinct blocks has as many entries as blocks. -/
theorem Distinct.n_eq_card (hd : h.Distinct) {group : Finset Nat}
    (hg : ∀ b, h.Has b ↔ b ∈ group) : h.n = group.card := by
  have himage : group = (Finset.range h.n).image h.block := by
    ext b
    rw [← hg b]
    simp [Has]
  have hinj : Set.InjOn h.block (Finset.range h.n) := fun i hi j hj hij =>
    hd i (Finset.mem_range.mp hi) j (Finset.mem_range.mp hj) hij
  rw [himage, Finset.card_image_of_injOn hinj, Finset.card_range]

end LogHeader

namespace Log

variable {start size : Nat} {m : LogMem} {b : Nat}

/-- Log absorption: a block that is in the header is not added again. -/
theorem log_write_of_has (hb : m.log_hdr.Has b) : log_write m b = m := by
  obtain ⟨hlt, hblock⟩ := LogHeader.index_of_has hb
  have hself : update m.log_hdr.block (m.log_hdr.index b) b = m.log_hdr.block :=
    calc update m.log_hdr.block (m.log_hdr.index b) b
      _ = update m.log_hdr.block (m.log_hdr.index b) (m.log_hdr.block (m.log_hdr.index b)) := by
        rw [hblock]
      _ = m.log_hdr.block := update_eq_self _ _
  simp only [log_write, hself, if_neg (Nat.ne_of_lt hlt)]

theorem log_write_of_not_has (hb : ¬m.log_hdr.Has b) : log_write m b =
    ⟨m.cache.block_pin b, ⟨m.log_hdr.n + 1, update m.log_hdr.block m.log_hdr.n b⟩⟩ := by
  simp only [log_write, LogHeader.index_of_not_has hb, if_true]

theorem log_write_has (x : Nat) : (log_write m b).log_hdr.Has x ↔ m.log_hdr.Has x ∨ x = b := by
  by_cases hb : m.log_hdr.Has b
  · rw [log_write_of_has hb]
    exact ⟨.inl, fun h => h.elim id fun h => h ▸ hb⟩
  · rw [log_write_of_not_has hb]
    constructor
    · rintro ⟨i, hi, hix⟩
      by_cases hin : i = m.log_hdr.n
      · subst hin
        exact .inr (by simpa using hix.symm)
      · dsimp only at hi hix
        rw [update_of_ne hin] at hix
        exact .inl ⟨i, by omega, hix⟩
    · rintro (⟨i, hi, hix⟩ | rfl)
      · exact ⟨i, Nat.lt_succ_of_lt hi, by
          dsimp only; rw [update_of_ne (Nat.ne_of_lt hi)]; exact hix⟩
      · exact ⟨m.log_hdr.n, Nat.lt_succ_self _, update_self _ _ _⟩

theorem log_write_distinct (hd : m.log_hdr.Distinct) : (log_write m b).log_hdr.Distinct := by
  by_cases hb : m.log_hdr.Has b
  · rw [log_write_of_has hb]
    exact hd
  · rw [log_write_of_not_has hb]
    intro i hi j hj hij
    simp only at hi hj hij
    by_cases hin : i = m.log_hdr.n <;> by_cases hjn : j = m.log_hdr.n
    · omega
    · subst hin
      rw [update_self, update_of_ne hjn] at hij
      exact absurd ⟨j, by omega, hij.symm⟩ hb
    · subst hjn
      rw [update_self, update_of_ne hin] at hij
      exact absurd ⟨i, by omega, hij⟩ hb
    · rw [update_of_ne hin, update_of_ne hjn] at hij
      exact hd i (by omega) j (by omega) hij

/-- `commit` has emptied the header in memory. -/
def CommitPc.cleared : CommitPc → Prop
  | .erase | .finish => True
  | _ => False

/-- A step of `commit` leaves the header alone, but for the one that empties it. -/
theorem commitStep_header (start : Nat) {pc : CommitPc} (hcleared : pc.cleared → m.log_hdr.n = 0) :
    ((commitStep start (m, pc)).2.cleared → (commitStep start (m, pc)).1.log_hdr.n = 0) ∧
      (¬(commitStep start (m, pc)).2.cleared → ¬pc.cleared ∧
        (commitStep start (m, pc)).1.log_hdr = m.log_hdr) ∧
      ((commitStep start (m, pc)).1.log_hdr = m.log_hdr ∨
        (commitStep start (m, pc)).1.log_hdr.n = 0) := by
  cases pc with
  | enter =>
    simp only [commitStep]
    split
    · exact ⟨fun h => h.elim, fun _ => ⟨id, rfl⟩, .inl rfl⟩
    · exact ⟨fun _ => by dsimp only; omega, fun h => absurd trivial h, .inl rfl⟩
  | write_log t =>
    simp only [commitStep]
    split <;> exact ⟨fun h => h.elim, fun _ => ⟨id, rfl⟩, .inl rfl⟩
  | write_head => exact ⟨fun h => h.elim, fun _ => ⟨id, rfl⟩, .inl rfl⟩
  | install t =>
    simp only [commitStep]
    split
    · exact ⟨fun h => h.elim, fun _ => ⟨id, rfl⟩, .inl rfl⟩
    · exact ⟨fun _ => rfl, fun h => absurd trivial h, .inr rfl⟩
  | erase => exact ⟨fun _ => hcleared trivial, fun h => absurd trivial h, .inl rfl⟩
  | finish => exact ⟨fun _ => hcleared trivial, fun h => absurd trivial h, .inl rfl⟩

namespace Machine

variable {s s' : Machine} {i : Nat}

/-- No commit has emptied the header. -/
def HeaderLive (s : Machine) : Prop := ∀ i pc, s.op i = .commit pc → ¬pc.cleared

/-- How the counters of the log, the operations and the header fit together. -/
structure GroupInv (s : Machine) : Prop where
  count : ∃ running : Finset Nat, running.card = s.outstanding ∧
    ∀ i, i ∈ running ↔ s.op i = .running
  one : ∀ i j pc pc', s.op i = .commit pc → s.op j = .commit pc' → i = j
  committing : s.committing = true ↔ ∃ i pc, s.op i = .commit pc
  alone : s.committing = true → s.outstanding = 0
  quiet : s.outstanding = 0 → s.committing = false → s.mem.log_hdr.n = 0
  cleared : ∀ i pc, s.op i = .commit pc → pc.cleared → s.mem.log_hdr.n = 0
  returned : ∀ i, s.hist.returned i = true → (s.op i).ended = true
  fresh : ∀ i, s.op i = .idle → s.hist.logged i = ∅
  logged : s.HeaderLive → ∀ i, s.hist.returned i = false → ∀ b ∈ s.hist.logged i,
    s.mem.log_hdr.Has b
  distinct : s.mem.log_hdr.Distinct
  group : s.HeaderLive → ∀ b, s.mem.log_hdr.Has b ↔ b ∈ s.hist.group

theorem boot_groupInv (d : Disk) : (boot d).GroupInv where
  count := ⟨∅, rfl, fun i => by simp [boot]⟩
  one i j pc pc' h := by simp [boot] at h
  committing := by simp [boot]
  alone h := by simp [boot] at h
  quiet _ _ := rfl
  cleared i pc h := by simp [boot] at h
  returned i h := by simp [boot] at h
  fresh _ _ := rfl
  logged _ i _ b hb := by simp [boot] at hb
  distinct i hi := absurd hi (Nat.not_lt_zero i)
  group _ b := by
    simp only [boot, Finset.notMem_empty, iff_false]
    rintro ⟨i, hi, _⟩
    exact absurd hi (Nat.not_lt_zero i)

/-- While an operation runs no commit does. -/
theorem GroupInv.not_committing (h : s.GroupInv) (hi : s.op i = .running) :
    s.committing = false ∧ 0 < s.outstanding ∧ ∀ j pc, s.op j ≠ .commit pc := by
  obtain ⟨running, hcard, hmem⟩ := h.count
  have hpos : 0 < s.outstanding := by
    rw [← hcard]
    exact Finset.card_pos.mpr ⟨i, (hmem i).mpr hi⟩
  have hc : s.committing = false := by
    cases hc : s.committing with
    | false => rfl
    | true => have := h.alone hc; omega
  refine ⟨hc, hpos, fun j pc hj => ?_⟩
  have := h.committing.mpr ⟨j, pc, hj⟩
  simp [hc] at this

/-- An operation that is not in `commit` changes its place without entering one. -/
theorem op_update_commit {op : Nat → OpPc} {p : OpPc} (hp : ∀ pc, p ≠ .commit pc) {j : Nat}
    {pc : CommitPc} (h : update op i p j = .commit pc) : op j = .commit pc := by
  by_cases hj : j = i
  · subst hj
    rw [update_self] at h
    exact absurd h (hp pc)
  · rwa [update_of_ne hj] at h

theorem headerLive_update {p : OpPc} (hi : ∀ pc, s.op i ≠ .commit pc) (hs : s'.op = update s.op i p)
    (h : s'.HeaderLive) : s.HeaderLive := by
  intro j pc hj
  refine h j pc ?_
  rw [hs, update_of_ne]
  · exact hj
  · rintro rfl
    exact hi pc hj

theorem GroupInv.begin_op (h : s.GroupInv) (hs : s.step start size (.begin_op i) = some s') :
    s'.GroupInv := by
  simp only [step, Option.ite_none_right_eq_some, Option.some.injEq] at hs
  obtain ⟨⟨hidle, hadm⟩, rfl⟩ := hs
  obtain ⟨running, hcard, hmem⟩ := h.count
  have hnot : i ∉ running := by rw [hmem, hidle]; simp
  have hcommit : ∀ pc, s.op i ≠ .commit pc := by simp [hidle]
  have hold : ∀ {j pc}, update s.op i .running j = .commit pc → s.op j = .commit pc :=
    fun hj => op_update_commit (by simp) hj
  have hnone : ∀ j pc, s.op j ≠ .commit pc := fun j pc hj => by
    have := h.committing.mpr ⟨j, pc, hj⟩
    simp [hadm.1] at this
  exact {
    count := ⟨insert i running, by rw [Finset.card_insert_of_notMem hnot, hcard], fun j => by
      by_cases hj : j = i
      · subst hj; simp
      · simp [hj, hmem]⟩
    one := fun j k pc pc' hj hk => h.one j k pc pc' (hold hj) (hold hk)
    committing := by
      rw [h.committing]
      exact ⟨fun ⟨j, pc, hj⟩ => absurd hj (hnone j pc), fun ⟨j, pc, hj⟩ => ⟨j, pc, hold hj⟩⟩
    alone := fun hc => by simp [hadm.1] at hc
    quiet := fun hz => absurd hz (Nat.succ_ne_zero _)
    cleared := fun j pc hj => h.cleared j pc (hold hj)
    returned := fun j hj => by
      have := h.returned j hj
      by_cases hji : j = i
      · subst hji; simp [hidle, OpPc.ended] at this
      · dsimp only
        rwa [update_of_ne hji]
    fresh := fun j hj => by
      by_cases hji : j = i
      · subst hji; exact h.fresh j hidle
      · dsimp only at hj
        rw [update_of_ne hji] at hj
        exact h.fresh j hj
    logged := fun hlive => h.logged (headerLive_update hcommit rfl hlive)
    distinct := h.distinct
    group := fun hlive => h.group (headerLive_update hcommit rfl hlive) }

theorem GroupInv.write {f : BlockData → BlockData} (h : s.GroupInv)
    (hs : s.step start size (.write i b f) = some s') : s'.GroupInv := by
  simp only [step, Option.ite_none_right_eq_some, Option.some.injEq] at hs
  obtain ⟨_, rfl⟩ := hs
  exact { h with }

theorem GroupInv.log_write (h : s.GroupInv) (hs : s.step start size (.log_write i b) = some s') :
    s'.GroupInv := by
  simp only [step, Option.ite_none_right_eq_some, Option.some.injEq] at hs
  obtain ⟨⟨hrun, hheld, hok⟩, rfl⟩ := hs
  obtain ⟨hc, hpos, hnone⟩ := h.not_committing hrun
  have hlive : s.HeaderLive := fun j pc hj => absurd hj (hnone j pc)
  exact {
    count := h.count
    one := h.one
    committing := h.committing
    alone := h.alone
    quiet := fun hz => absurd hz (Nat.ne_of_gt hpos)
    cleared := fun j pc hj => absurd hj (hnone j pc)
    returned := h.returned
    fresh := fun j hj => by
      have hji : j ≠ i := by rintro rfl; simp [hrun] at hj
      dsimp only
      rw [update_of_ne hji]
      exact h.fresh j hj
    logged := fun _ j hj x hx => by
      dsimp only at hx ⊢
      rw [log_write_has]
      by_cases hji : j = i
      · subst hji
        rw [update_self, Finset.mem_insert] at hx
        exact hx.elim .inr fun hx => .inl (h.logged hlive j hj x hx)
      · rw [update_of_ne hji] at hx
        exact .inl (h.logged hlive j hj x hx)
    distinct := log_write_distinct h.distinct
    group := fun _ x => by
      dsimp only
      rw [log_write_has, h.group hlive, Finset.mem_insert, or_comm] }

theorem GroupInv.end_op (h : s.GroupInv) (hs : s.step start size (.end_op i) = some s') :
    s'.GroupInv := by
  simp only [step, Option.ite_none_right_eq_some] at hs
  obtain ⟨⟨hrun, hheld, hcomm⟩, hs⟩ := hs
  obtain ⟨-, hpos, hnone⟩ := h.not_committing hrun
  obtain ⟨running, hcard, hmem⟩ := h.count
  have hlive : s.HeaderLive := fun j pc hj => absurd hj (hnone j pc)
  have hcount : ∀ p, p ≠ .running → ∃ running : Finset Nat, running.card = s.outstanding - 1 ∧
      ∀ j, j ∈ running ↔ update s.op i p j = .running := fun p hp =>
    ⟨running.erase i, by rw [Finset.card_erase_of_mem ((hmem i).mpr hrun), hcard], fun j => by
      by_cases hj : j = i
      · subst hj; simp [hp]
      · simp [hj, hmem]⟩
  have hret : ∀ p : OpPc, p.ended = true → ∀ j, s.hist.returned j = true →
      (update s.op i p j).ended = true := fun p hp j hj => by
    by_cases hji : j = i
    · subst hji; rwa [update_self]
    · rw [update_of_ne hji]; exact h.returned j hj
  have hfresh : ∀ p : OpPc, p ≠ .idle → ∀ j, update s.op i p j = .idle → s.hist.logged j = ∅ :=
    fun p hp j hj => by
      by_cases hji : j = i
      · subst hji; rw [update_self] at hj; exact absurd hj hp
      · rw [update_of_ne hji] at hj; exact h.fresh j hj
  split at hs
  · next hz =>
    cases hs
    -- The last outstanding operation enters `commit`: it is the only one there.
    have honly : ∀ {j pc}, update s.op i (.commit .enter) j = .commit pc → j = i ∧ pc = .enter :=
      fun {j pc} hj => by
        by_cases hji : j = i
        · subst hji
          rw [update_self] at hj
          cases hj
          exact ⟨rfl, rfl⟩
        · rw [update_of_ne hji] at hj
          exact absurd hj (hnone j pc)
    exact {
      count := hcount _ (by simp)
      one := fun j k pc pc' hj hk => (honly hj).1.trans (honly hk).1.symm
      committing := ⟨fun _ => ⟨i, .enter, update_self _ _ _⟩, fun _ => rfl⟩
      alone := fun _ => hz
      quiet := fun _ hc => by simp at hc
      cleared := fun j pc hj hcl => by
        obtain ⟨-, rfl⟩ := honly hj
        exact hcl.elim
      returned := hret _ rfl
      fresh := hfresh _ (by simp)
      logged := fun _ => h.logged hlive
      distinct := h.distinct
      group := fun _ => h.group hlive }
  · next hz =>
    cases hs
    have hold : ∀ {j pc}, update s.op i .done j = .commit pc → s.op j = .commit pc :=
      fun hj => op_update_commit (by simp) hj
    exact {
      count := hcount _ (by simp)
      one := fun j k pc pc' hj => absurd (hold hj) (hnone j pc)
      committing := ⟨fun hc => by simp [hcomm] at hc,
        fun ⟨j, pc, hj⟩ => absurd (hold hj) (hnone j pc)⟩
      alone := fun hc => by simp [hcomm] at hc
      quiet := fun hzero => absurd hzero hz
      cleared := fun j pc hj => absurd (hold hj) (hnone j pc)
      returned := hret _ rfl
      fresh := hfresh _ (by simp)
      logged := fun _ => h.logged hlive
      distinct := h.distinct
      group := fun _ => h.group hlive }

/-- A step of `commit` moves the operation that runs it, and no other. -/
theorem GroupInv.commit_next {pc : CommitPc} (h : s.GroupInv) (hi : s.op i = .commit pc) :
    GroupInv { s with
      mem := (commitStep start (s.mem, pc)).1
      op := update s.op i (.commit (commitStep start (s.mem, pc)).2) } := by
  obtain ⟨hz, hkeep, hdistinct⟩ := commitStep_header start (h.cleared i pc hi)
  obtain ⟨running, hcard, hmem⟩ := h.count
  have hnot : i ∉ running := by rw [hmem, hi]; simp
  have hold : ∀ {j pc'}, update s.op i (.commit (commitStep start (s.mem, pc)).2) j = .commit pc' →
      j = i ∧ pc' = (commitStep start (s.mem, pc)).2 := fun {j pc'} hj => by
    by_cases hji : j = i
    · subst hji
      rw [update_self] at hj
      cases hj
      exact ⟨rfl, rfl⟩
    · rw [update_of_ne hji] at hj
      exact absurd (h.one j i _ _ hj hi) hji
  -- The header was live before the step if it is live after it.
  have hback : (∀ j pc', update s.op i (.commit (commitStep start (s.mem, pc)).2) j = .commit pc' →
      ¬pc'.cleared) → s.HeaderLive ∧ (commitStep start (s.mem, pc)).1.log_hdr = s.mem.log_hdr :=
    fun hlive => by
      obtain ⟨hpc, hhdr⟩ := hkeep (hlive i _ (update_self _ _ _))
      refine ⟨fun j pc' hj => ?_, hhdr⟩
      obtain rfl := h.one j i _ _ hj hi
      rw [hi] at hj
      cases hj
      exact hpc
  have hcomm : s.committing = true := h.committing.mpr ⟨i, pc, hi⟩
  exact {
    count := ⟨running, hcard, fun j => by
      by_cases hj : j = i
      · subst hj; simp [hnot]
      · simp [hj, hmem]⟩
    one := fun j k pc' pc'' hj hk => (hold hj).1.trans (hold hk).1.symm
    committing := ⟨fun _ => ⟨i, _, update_self _ _ _⟩, fun _ => hcomm⟩
    alone := h.alone
    quiet := fun _ hc => by simp [hcomm] at hc
    cleared := fun j pc' hj hcl => by
      obtain ⟨-, rfl⟩ := hold hj
      exact hz hcl
    returned := fun j hj => by
      by_cases hji : j = i
      · subst hji; dsimp only; rw [update_self]; rfl
      · dsimp only; rw [update_of_ne hji]; exact h.returned j hj
    fresh := fun j hj => by
      have hji : j ≠ i := by rintro rfl; simp at hj
      dsimp only at hj
      rw [update_of_ne hji] at hj
      exact h.fresh j hj
    logged := fun hlive j hj b hb => by
      obtain ⟨hlive, hhdr⟩ := hback hlive
      dsimp only
      rw [hhdr]
      exact h.logged hlive j hj b hb
    distinct := by
      rcases hdistinct with hhdr | hzero
      · dsimp only; rw [hhdr]; exact h.distinct
      · exact fun j hj => absurd hj (by dsimp only; omega)
    group := fun hlive b => by
      obtain ⟨hlive, hhdr⟩ := hback hlive
      dsimp only
      rw [hhdr]
      exact h.group hlive b }

theorem GroupInv.commit_finish (h : s.GroupInv) (hi : s.op i = .commit .finish) :
    (s.commitOp start i .finish).GroupInv := by
  obtain ⟨running, hcard, hmem⟩ := h.count
  have hcomm : s.committing = true := h.committing.mpr ⟨i, _, hi⟩
  have hzero : s.mem.log_hdr.n = 0 := h.cleared i _ hi trivial
  have hempty : running = ∅ := Finset.card_eq_zero.mp (hcard.trans (h.alone hcomm))
  have hnot : i ∉ running := by rw [hmem, hi]; simp
  have hnone : ∀ j pc, update s.op i .done j ≠ .commit pc := fun j pc hj => by
    have := op_update_commit (by simp) hj
    obtain rfl := h.one j i _ _ this hi
    rw [update_self] at hj
    cases hj
  exact {
    count := ⟨running, hcard, fun j => by
      by_cases hj : j = i
      · subst hj; simp [commitOp, hnot]
      · simp [commitOp, hj, hmem]⟩
    one := fun j k pc pc' hj => absurd hj (hnone j pc)
    committing := ⟨fun hc => by simp [commitOp] at hc, fun ⟨j, pc, hj⟩ => absurd hj (hnone j pc)⟩
    alone := fun hc => by simp [commitOp] at hc
    quiet := fun _ _ => hzero
    cleared := fun j pc hj => absurd hj (hnone j pc)
    returned := fun j hj => by
      by_cases hji : j = i
      · subst hji; simp [commitOp, OpPc.ended]
      · simp only [commitOp] at hj ⊢
        rwa [update_of_ne hji]
    fresh := fun j hj => by
      have hji : j ≠ i := by rintro rfl; simp [commitOp] at hj
      simp only [commitOp] at hj ⊢
      rw [update_of_ne hji] at hj
      exact h.fresh j hj
    logged := fun _ j hj b hb => by
      -- No operation runs, so one that has not ended has not begun.
      have hidle : s.op j = .idle := by
        have hend : (s.op j).ended = false := hj
        have hrun : s.op j ≠ .running := fun hrun => by
          have := (hmem j).mpr hrun
          simp [hempty] at this
        cases hop : s.op j with
        | idle => rfl
        | running => exact absurd hop hrun
        | commit pc => simp [hop, OpPc.ended] at hend
        | done => simp [hop, OpPc.ended] at hend
      simp only [commitOp, h.fresh j hidle, Finset.notMem_empty] at hb
    distinct := h.distinct
    group := fun _ b => by
      simp only [commitOp, Finset.notMem_empty, iff_false]
      rintro ⟨k, hk, _⟩
      omega }

theorem GroupInv.commit (h : s.GroupInv) (hs : s.step start size (.commit i) = some s') :
    s'.GroupInv := by
  simp only [step] at hs
  split at hs
  · next pc hi =>
    rw [Option.ite_none_right_eq_some, Option.some.injEq] at hs
    obtain ⟨-, rfl⟩ := hs
    cases pc with
    | finish => exact h.commit_finish hi
    | _ => exact h.commit_next hi
  · cases hs

theorem GroupInv.flush {j : Nat} (h : s.GroupInv) (hs : s.step start size (.flush j) = some s') :
    s'.GroupInv := by
  simp only [step, flushOp] at hs
  split at hs
  · next t _ =>
    split at hs
    · rw [Option.ite_none_right_eq_some, Option.some.injEq] at hs
      obtain ⟨-, rfl⟩ := hs
      exact { h with }
    · cases hs
      exact { h with }
  · cases hs
    exact { h with }
  · cases hs

theorem step_groupInv {a : Action} (h : s.GroupInv) (hs : s.step start size a = some s') :
    s'.GroupInv := by
  cases a with
  | begin_op i => exact h.begin_op hs
  | write i b f => exact h.write hs
  | log_write i b => exact h.log_write hs
  | end_op i => exact h.end_op hs
  | commit i => exact h.commit hs
  | flush j => exact h.flush hs

theorem reach_groupInv {ok : Machine → Action → Prop}
    (h : Transition.Reach (Init start) (step start size) ok s) : s.GroupInv :=
  h.invariant GroupInv (by rintro _ ⟨d, -, rfl⟩; exact boot_groupInv d)
    fun _ _ _ hinv _ hs => step_groupInv hinv hs

instance : DecidablePred CommitPc.cleared
  | .erase | .finish => inferInstanceAs (Decidable True)
  | .enter | .write_log _ | .write_head | .install _ => inferInstanceAs (Decidable False)

/-- No operation but the one in `commit` changes the header while it is there. -/
theorem GroupInv.header_stable {c : Nat} {pc : CommitPc} {a : Action} (h : s.GroupInv)
    (hc : s.op c = .commit pc) (ha : a ≠ .commit c) (hs : s.step start size a = some s') :
    s'.mem.log_hdr = s.mem.log_hdr := by
  have hnot : ∀ i, s.op i ≠ .running := fun i hi => (h.not_committing hi).2.2 c pc hc
  cases a with
  | begin_op i =>
    simp only [step, Option.ite_none_right_eq_some, Option.some.injEq] at hs
    obtain ⟨-, rfl⟩ := hs
    rfl
  | write i b f =>
    simp only [step, Option.ite_none_right_eq_some] at hs
    exact absurd hs.1.1 (hnot i)
  | log_write i b =>
    simp only [step, Option.ite_none_right_eq_some] at hs
    exact absurd hs.1.1 (hnot i)
  | end_op i =>
    simp only [step, Option.ite_none_right_eq_some] at hs
    exact absurd hs.1.1 (hnot i)
  | commit i =>
    simp only [step] at hs
    split at hs
    · next pc' hi =>
      obtain rfl := h.one i c _ _ hi hc
      exact absurd rfl ha
    · cases hs
  | flush j =>
    simp only [step, flushOp] at hs
    split at hs
    · split at hs
      · rw [Option.ite_none_right_eq_some, Option.some.injEq] at hs
        obtain ⟨-, rfl⟩ := hs
        rfl
      · cases hs
        rfl
    · cases hs
      rfl
    · cases hs

/-- The properties of group commit in a state.  While a commit runs nothing is outstanding and only
the operation that runs it changes the header; an operation that runs finds no commit when it calls
`end_op`; the header holds every block of an operation that runs, and, in a commit that has not
emptied it, of an operation that has ended and whose commit has not returned; the commit that
returns is that of every operation that has ended; and when nothing is outstanding and no commit
runs the header is empty and `begin_op` does not wait. -/
structure Isolated (start size : Nat) (s : Machine) : Prop where
  alone : s.committing = true → s.outstanding = 0 ∧ ∃ c pc, s.op c = .commit pc ∧
    ∀ a s', a ≠ .commit c → s.step start size a = some s' → s'.mem.log_hdr = s.mem.log_hdr
  end_op : ∀ i, s.op i = .running → s.committing = false
  running : ∀ i, s.op i = .running → ∀ b ∈ s.hist.logged i, s.mem.log_hdr.Has b
  ended : ∀ c pc, s.op c = .commit pc → ¬pc.cleared → ∀ i, (s.op i).ended = true →
    s.hist.returned i = false → ∀ b ∈ s.hist.logged i, s.mem.log_hdr.Has b
  returns : ∀ c s', s.op c = .commit .finish → s.step start size (.commit c) = some s' →
    ∀ i, (s.op i).ended = true → s'.hist.returned i = true
  admits : s.outstanding = 0 → s.committing = false → s.mem.log_hdr.n = 0 ∧
    ∀ i, s.op i = .idle → (s.step start size (.begin_op i)).isSome = true

/-- Group commit isolates: every state that any interleaving of operations, commits and flushes
reaches has its properties. -/
theorem group_commit_isolated
    (h : Transition.Reach (Init start) (step start size) (fun _ _ => True) s) :
    s.Isolated start size := by
  have hinv := reach_groupInv h
  exact {
    alone := fun hc => by
      obtain ⟨c, pc, hop⟩ := hinv.committing.mp hc
      exact ⟨hinv.alone hc, c, pc, hop, fun a s' ha hs => hinv.header_stable hop ha hs⟩
    end_op := fun i hi => (hinv.not_committing hi).1
    running := fun i hi => by
      have hnone := (hinv.not_committing hi).2.2
      have hret : s.hist.returned i = false := by
        cases hr : s.hist.returned i with
        | false => rfl
        | true => have := hinv.returned i hr; simp [hi, OpPc.ended] at this
      exact hinv.logged (fun j pc hj => absurd hj (hnone j pc)) i hret
    ended := fun c pc hc hcl i _ hret => by
      refine hinv.logged (fun j pc' hj => ?_) i hret
      obtain rfl := hinv.one j c _ _ hj hc
      rw [hc] at hj
      cases hj
      exact hcl
    returns := fun c s' hc hs i hi => by
      simp only [step, hc] at hs
      rw [if_pos (show s.CommitFree .finish from trivial), Option.some.injEq] at hs
      subst hs
      exact hi
    admits := fun ho hc => by
      have hn := hinv.quiet ho hc
      refine ⟨hn, fun i hi => ?_⟩
      have hadm : s.Admits := ⟨hc, by rw [hn, ho]; decide⟩
      simp [step, hi, hadm] }

/-- A block of zeroes with its first byte set. -/
def marked (_ : BlockData) : BlockData := (Bytes.Buffer.zero BSIZE).put 0 1 fun _ => 1

theorem reach_boot_zero (start size : Nat) (ok : Machine → Action → Prop) :
    Transition.Reach (Init start) (step start size) ok (boot fun _ => Bytes.Buffer.zero BSIZE) :=
  .start ⟨_, by simp [Bytes.Buffer.get32, Bytes.word32], rfl⟩

/-- `group_commit_isolated` in the commit of an operation that has logged a block. -/
theorem group_commit_isolated_commit : ∃ s : Machine, s.committing = true ∧ s.mem.log_hdr.n = 1 ∧
    s.Isolated 2 30 := by
  obtain ⟨s, hs, hp⟩ := (reach_boot_zero 2 30 fun _ _ => True).of_run
    [.begin_op 0, .write 0 100 marked, .log_write 0 100, .end_op 0, .commit 0]
    (p := fun s => s.committing && s.mem.log_hdr.n == 1) (by decide)
  rw [Bool.and_eq_true, beq_iff_eq] at hp
  exact ⟨s, hp.1, hp.2, group_commit_isolated hs⟩

/-! ### Admission -/

/-- An operation logs at most `MAX_OP_BLOCKS` distinct blocks. -/
def WithinBudget (s : Machine) : Action → Prop
  | .log_write i b => (insert b (s.hist.logged i)).card ≤ MAX_OP_BLOCKS
  | _ => True

instance (s : Machine) (a : Action) : Decidable (s.WithinBudget a) := by
  cases a <;> (unfold WithinBudget; infer_instance)

/-- The first assertion of `log_write`: the transaction is not too big. -/
def NotTooBig (size : Nat) (s : Machine) : Prop :=
  s.mem.log_hdr.n < LOG_SIZE ∧ s.mem.log_hdr.n < size - 1

/-- The run in which three operations that `begin_op` admits together log 29 distinct blocks, and
the last of them is about to log its tenth. -/
def fullGroup : List Action :=
  [.begin_op 0, .begin_op 1, .begin_op 2] ++
    ((List.range 29).flatMap fun k =>
      [.write (k / 10) (100 + k) marked, .log_write (k / 10) (100 + k)]) ++
    [.write 2 129 marked]

end Machine

end Log

end Xv6fs
