import Xv6fs.Common
import Xv6fs.Lib.Transition

/-! The file table of `FileTable.cxx` under calls of `do_open`, `op_create`, `Pipe::alloc` and
`ofile_close` in any order.  The atomic steps are the body of `ofile_alloc`, the assignment of the
fields of a slot by the caller, and the locked part of `ofile_close`. -/

namespace Xv6fs.FileTable

inductive FileType
  | FD_NONE
  | FD_PIPE
  | FD_INODE
  | FD_DEVICE
  deriving DecidableEq

/-- An entry of the file table.  Pipes and inodes are named by numbers. -/
structure OFile where
  type : FileType
  pipe : Nat
  ip : Nat
  off : Nat
  major : Nat
  readable : Bool
  writable : Bool
  ref : Nat
  deriving DecidableEq

/-- What the caller of `ofile_alloc` assigns to the fields of its slot. -/
inductive Opened
  | inode (ip : Nat) (readable writable : Bool)
  | device (ip major : Nat) (readable writable : Bool)
  | pipe (pi : Nat) (writable : Bool)
  deriving DecidableEq

/-- The slot after the assignments. -/
def Opened.assign : Opened → OFile → OFile
  | .inode ip readable writable, f => { f with type := .FD_INODE, off := 0, ip, readable, writable }
  | .device ip major readable writable, f =>
    { f with type := .FD_DEVICE, major, ip, readable, writable }
  | .pipe pi writable, f => { f with type := .FD_PIPE, readable := !writable, writable, pipe := pi }

/-- Where a call of `do_open`, `op_create` or `Pipe::alloc` is, with the slots it has got.  One that
has returned keeps those of its handles that are not closed. -/
inductive Call
  | start
  | opening (i : Nat)
  | pipe_wr (wr : Nat)
  | pipe_both (wr rd : Nat)
  | pipe_set (wr rd pi : Nat)
  | roll_back (wr : Nat)
  | returned (handles : List (Nat × Opened))
  deriving DecidableEq

/-- A slot that `ofile_alloc` has returned and that is not closed, and what has been assigned to
it. -/
structure Held where
  slot : Nat
  set : Option Opened

/-- The slots of a call. -/
def Call.held : Call → List Held
  | .start => []
  | .opening i => [⟨i, none⟩]
  | .pipe_wr wr => [⟨wr, none⟩]
  | .pipe_both wr rd => [⟨wr, none⟩, ⟨rd, none⟩]
  | .pipe_set wr rd pi => [⟨wr, some (.pipe pi true)⟩, ⟨rd, none⟩]
  | .roll_back wr => [⟨wr, none⟩]
  | .returned handles => handles.map fun p => ⟨p.1, some p.2⟩

/-- The table, and the calls that use it. -/
structure State where
  files : Nat → OFile
  call : Nat → Call

/-- A step of call `k`, or the close of handle `i` that it has returned. -/
inductive Action
  | alloc (k : Nat)
  | set (k : Nat) (o : Opened)
  | pipe_wr (k : Nat)
  | pipe_rd (k : Nat)
  | set_wr (k pi : Nat)
  | set_rd (k : Nat)
  | roll_back (k : Nat)
  | close (k i : Nat)

/-- The slot that the loop of `ofile_alloc` finds. -/
def free_slot (files : Nat → OFile) : Option Nat :=
  (List.range NFILE).find? fun i => (files i).type = .FD_NONE

/-- `ofile_alloc` sets the reference count of slot `i` that it has found. -/
def ofile_alloc (files : Nat → OFile) (i : Nat) : Nat → OFile :=
  setAt files i { files i with ref := 1 }

/-- The locked part of `ofile_close`, unless an assertion fails in it or after it. -/
def ofile_close (files : Nat → OFile) (i : Nat) : Option (Nat → OFile) :=
  let f := files i
  if f.ref < 1 then none
  else if f.ref - 1 > 0 then some (setAt files i { f with ref := f.ref - 1 })
  else if f.type = .FD_NONE then none
  else some (setAt files i { f with ref := 0, type := .FD_NONE })

/-- A step.  One that fails an assertion ends the process, so it leads nowhere. -/
def step (s : State) : Action → Option State
  | .alloc k =>
    match s.call k, free_slot s.files with
    | .start, some i => some ⟨ofile_alloc s.files i, setAt s.call k (.opening i)⟩
    | .start, none => some { s with call := setAt s.call k (.returned []) }
    | _, _ => none
  | .set k o =>
    match s.call k with
    | .opening i => some ⟨setAt s.files i (o.assign (s.files i)), setAt s.call k (.returned [(i, o)])⟩
    | _ => none
  | .pipe_wr k =>
    match s.call k, free_slot s.files with
    | .start, some wr => some ⟨ofile_alloc s.files wr, setAt s.call k (.pipe_wr wr)⟩
    | .start, none => some { s with call := setAt s.call k (.returned []) }
    | _, _ => none
  | .pipe_rd k =>
    match s.call k, free_slot s.files with
    | .pipe_wr wr, some rd => some ⟨ofile_alloc s.files rd, setAt s.call k (.pipe_both wr rd)⟩
    | .pipe_wr wr, none => some { s with call := setAt s.call k (.roll_back wr) }
    | _, _ => none
  | .set_wr k pi =>
    match s.call k with
    | .pipe_both wr rd =>
      some ⟨setAt s.files wr ((Opened.pipe pi true).assign (s.files wr)),
        setAt s.call k (.pipe_set wr rd pi)⟩
    | _ => none
  | .set_rd k =>
    match s.call k with
    | .pipe_set wr rd pi =>
      some ⟨setAt s.files rd ((Opened.pipe pi false).assign (s.files rd)),
        setAt s.call k (.returned [(wr, .pipe pi true), (rd, .pipe pi false)])⟩
    | _ => none
  | .roll_back k =>
    match s.call k with
    | .roll_back wr =>
      (ofile_close s.files wr).map fun files => ⟨files, setAt s.call k (.returned [])⟩
    | _ => none
  | .close k i =>
    match s.call k with
    | .returned handles =>
      if i ∈ handles.map Prod.fst then
        (ofile_close s.files i).map fun files =>
          ⟨files, setAt s.call k (.returned (handles.eraseP fun p => p.1 = i))⟩
      else none
    | _ => none

/-- The table when the process starts, and no call has been made. -/
def boot : State :=
  ⟨fun _ => ⟨.FD_NONE, 0, 0, 0, 0, false, false, 0⟩, fun _ => .start⟩

/-- Every slot is held by one call and once only. -/
structure Distinct (s : State) : Prop where
  nodup : ∀ k, ((s.call k).held.map Held.slot).Nodup
  disjoint : ∀ k k', k ≠ k' → ∀ h ∈ (s.call k).held, ∀ h' ∈ (s.call k').held, h.slot ≠ h'.slot

/-- The fields that an open has assigned to its slot are as it assigned them. -/
def Intact (s : State) : Prop :=
  ∀ k, ∀ h ∈ (s.call k).held, ∀ o ∈ h.set, o.assign (s.files h.slot) = s.files h.slot

/-- The slot that `ofile_alloc` would find has been returned to a call that has not assigned its
fields yet. -/
def Pending (s : State) : Prop :=
  ∃ k, ∃ h ∈ (s.call k).held, h.set = none ∧ free_slot s.files = some h.slot

/-- The step does not run `ofile_alloc` while the slot it would find is pending. -/
def Safe (s : State) : Action → Prop
  | .alloc _ | .pipe_wr _ | .pipe_rd _ => ¬Pending s
  | _ => True

variable {s s' : State} {k i : Nat} {files : Nat → OFile} {c : Call}

theorem free_slot_type (h : free_slot files = some i) : (files i).type = .FD_NONE := by
  simpa using List.find?_some h

/-- Assigning the same again changes nothing. -/
theorem Opened.assign_assign (o : Opened) (f : OFile) : o.assign (o.assign f) = o.assign f := by
  cases o <;> rfl

theorem Opened.assign_type (o : Opened) (f : OFile) : (o.assign f).type ≠ .FD_NONE := by
  cases o <;> simp [assign]

/-- `ofile_close` changes slot `i` only. -/
theorem ofile_close_other {files' : Nat → OFile} (h : ofile_close files i = some files') {j : Nat}
    (hj : j ≠ i) : files' j = files j := by
  simp only [ofile_close] at h
  split at h
  · cases h
  · split at h
    · cases h
      exact setAt_of_ne hj
    · split at h
      · cases h
      · cases h
        exact setAt_of_ne hj

/-- A slot that is free but not pending is held by no call. -/
theorem fresh_slot (hi : Intact s) (hfree : free_slot s.files = some i) (hsafe : ¬Pending s)
    (h : Held) (hh : h ∈ (s.call k).held) : h.slot ≠ i := by
  rintro rfl
  cases hset : h.set with
  | none => exact hsafe ⟨k, h, hh, hset, hfree⟩
  | some o =>
    have ho := hi k h hh o hset
    have htype := o.assign_type (s.files h.slot)
    rw [ho] at htype
    exact htype (free_slot_type hfree)

/-- Handles stay distinct when call `k` gets slots that no other call holds, and the slots of the
other calls do not change. -/
theorem Distinct.change (hd : Distinct s) (hi : Intact s)
    (hfiles : ∀ k', k' ≠ k → ∀ h ∈ (s.call k').held, files h.slot = s.files h.slot)
    (hnodup : (c.held.map Held.slot).Nodup)
    (hapart : ∀ k', k' ≠ k → ∀ h ∈ c.held, ∀ h' ∈ (s.call k').held, h.slot ≠ h'.slot)
    (hset : ∀ h ∈ c.held, ∀ o ∈ h.set, o.assign (files h.slot) = files h.slot) :
    Distinct ⟨files, setAt s.call k c⟩ ∧ Intact ⟨files, setAt s.call k c⟩ := by
  refine ⟨⟨fun k1 => ?_, fun k1 k2 hne h1 hh1 h2 hh2 => ?_⟩, fun k1 h hh o ho => ?_⟩
  · dsimp only
    by_cases hk : k1 = k
    · subst hk
      rw [setAt_self]
      exact hnodup
    · rw [setAt_of_ne hk]
      exact hd.nodup k1
  · dsimp only at hh1 hh2
    by_cases hk1 : k1 = k
    · subst hk1
      rw [setAt_self] at hh1
      rw [setAt_of_ne hne.symm] at hh2
      exact hapart k2 hne.symm h1 hh1 h2 hh2
    · rw [setAt_of_ne hk1] at hh1
      by_cases hk2 : k2 = k
      · subst hk2
        rw [setAt_self] at hh2
        exact (hapart k1 hk1 h2 hh2 h1 hh1).symm
      · rw [setAt_of_ne hk2] at hh2
        exact hd.disjoint k1 k2 hne h1 hh1 h2 hh2
  · dsimp only at hh ⊢
    by_cases hk : k1 = k
    · subst hk
      rw [setAt_self] at hh
      exact hset h hh o ho
    · rw [setAt_of_ne hk] at hh
      rw [hfiles k1 hk h hh]
      exact hi k1 h hh o ho

/-- A step of call `k` to the fields of a slot that it holds, or to none. -/
theorem Distinct.keep (hd : Distinct s) (hi : Intact s)
    (hfiles : ∀ j, (∀ h ∈ (s.call k).held, h.slot ≠ j) → files j = s.files j)
    (hheld : (c.held.map Held.slot).Sublist ((s.call k).held.map Held.slot))
    (hset : ∀ h ∈ c.held, ∀ o ∈ h.set, o.assign (files h.slot) = files h.slot) :
    Distinct ⟨files, setAt s.call k c⟩ ∧ Intact ⟨files, setAt s.call k c⟩ := by
  refine hd.change hi (fun k' hk h hh => hfiles _ fun h' hh' => hd.disjoint k k' hk.symm h' hh' h hh)
    (hheld.nodup (hd.nodup k)) (fun k' hk h hh h' hh' => ?_) hset
  obtain ⟨h0, hh0, hslot⟩ := List.mem_map.mp (hheld.subset (List.mem_map_of_mem hh))
  rw [← hslot]
  exact hd.disjoint k k' hk.symm h0 hh0 h' hh'

/-- A call that gets a slot that is pending makes the slots not distinct. -/
theorem not_distinct_of_pending (hfree : free_slot s.files = some i) (hpend : Pending s)
    (hheld : c.held.map Held.slot = (s.call k).held.map Held.slot ++ [i]) :
    ¬Distinct ⟨files, setAt s.call k c⟩ := by
  obtain ⟨k', h, hh, -, hslot⟩ := hpend
  have hslot : h.slot = i := Option.some.inj (hslot.symm.trans hfree)
  intro hd
  by_cases hk : k' = k
  · subst hk
    have hnodup := hd.nodup k'
    dsimp only at hnodup
    rw [setAt_self, hheld, List.nodup_append] at hnodup
    exact hnodup.2.2 i (hslot ▸ List.mem_map_of_mem hh) i List.mem_cons_self rfl
  · have hmem : i ∈ c.held.map Held.slot := by simp [hheld]
    obtain ⟨h', hh', hslot'⟩ := List.mem_map.mp hmem
    refine hd.disjoint k' k hk h ?_ h' ?_ (hslot.trans hslot'.symm)
    · dsimp only
      rwa [setAt_of_ne hk]
    · dsimp only
      rwa [setAt_self]

/-- A step of `ofile_alloc` that finds slot `i`. -/
theorem alloc_distinct (hd : Distinct s) (hi : Intact s) (hfree : free_slot s.files = some i)
    (hheld : c.held.map Held.slot = (s.call k).held.map Held.slot ++ [i])
    (hset : ∀ h ∈ c.held, h.set = none) :
    (Distinct ⟨ofile_alloc s.files i, setAt s.call k c⟩ ∧
      Intact ⟨ofile_alloc s.files i, setAt s.call k c⟩) ↔ ¬Pending s := by
  refine ⟨fun h hpend => not_distinct_of_pending hfree hpend hheld h.1, fun hsafe => ?_⟩
  have hnew : ∀ k' h, h ∈ (s.call k').held → h.slot ≠ i := fun k' h hh =>
    fresh_slot hi hfree hsafe h hh
  refine hd.change hi (fun k' _ h hh => setAt_of_ne (hnew k' h hh)) ?_ ?_ ?_
  · rw [hheld, List.nodup_append]
    refine ⟨hd.nodup k, List.pairwise_singleton _ i, fun a ha b hb => ?_⟩
    obtain ⟨h, hh, rfl⟩ := List.mem_map.mp ha
    rw [List.mem_singleton.mp hb]
    exact hnew k h hh
  · intro k' hk h hh h' hh'
    have hmem : h.slot ∈ (s.call k).held.map Held.slot ++ [i] := hheld ▸ List.mem_map_of_mem hh
    rcases List.mem_append.mp hmem with hold | hi'
    · obtain ⟨h0, hh0, heq⟩ := List.mem_map.mp hold
      rw [← heq]
      exact hd.disjoint k k' hk.symm h0 hh0 h' hh'
    · rw [List.mem_singleton.mp hi']
      exact (hnew k' h' hh').symm
  · intro h hh o ho
    rw [hset h hh] at ho
    cases ho

/-- A call of `ofile_alloc` that finds no slot. -/
theorem full_distinct (hd : Distinct s) (hi : Intact s) (hfull : free_slot s.files = none)
    (hheld : c.held.map Held.slot = (s.call k).held.map Held.slot)
    (hset : ∀ h ∈ c.held, h.set = none) :
    (Distinct { s with call := setAt s.call k c } ∧
      Intact { s with call := setAt s.call k c }) ↔ ¬Pending s := by
  have hsafe : ¬Pending s := by
    rintro ⟨k', h, hh, -, hfree⟩
    rw [hfull] at hfree
    cases hfree
  refine iff_of_true ?_ hsafe
  refine hd.keep hi (fun _ _ => rfl) (hheld ▸ List.Sublist.refl _) fun h hh o ho => ?_
  rw [hset h hh] at ho
  cases ho

/-- The close of slot `i`, which call `k` holds, leaves it the other slots. -/
theorem close_distinct (hd : Distinct s) (hi : Intact s) (hclose : ofile_close s.files i = some files)
    (hmem : i ∈ (s.call k).held.map Held.slot)
    (hheld : c.held.Sublist (s.call k).held) (hnot : ∀ h ∈ c.held, h.slot ≠ i) :
    Distinct ⟨files, setAt s.call k c⟩ ∧ Intact ⟨files, setAt s.call k c⟩ := by
  obtain ⟨h0, hh0, hslot⟩ := List.mem_map.mp hmem
  refine hd.keep hi (fun j hj => ofile_close_other hclose ?_) (hheld.map _) fun h hh o ho => ?_
  · rintro rfl
    exact hj h0 hh0 hslot
  · rw [ofile_close_other hclose (hnot h hh)]
    exact hi k h (hheld.subset hh) o ho

/-- Without two handles of one slot, a slot is gone from the handles once one is erased. -/
theorem eraseP_slot {handles : List (Nat × Opened)} (h : (handles.map Prod.fst).Nodup) :
    ∀ p ∈ handles.eraseP fun p => p.1 = i, p.1 ≠ i := by
  induction handles with
  | nil => intro p hp; cases hp
  | cons q rest ih =>
    obtain ⟨hq, hrest⟩ := List.nodup_cons.mp h
    intro p hp
    by_cases hqi : q.1 = i
    · rw [List.eraseP_cons_of_pos (by simpa using hqi)] at hp
      rintro rfl
      exact hq (hqi ▸ List.mem_map_of_mem hp)
    · rw [List.eraseP_cons_of_neg (by simpa using hqi)] at hp
      rcases List.mem_cons.mp hp with rfl | hp
      · exact hqi
      · exact ih hrest p hp

/-- What a step does to the handles, by the call that it is a step of. -/
theorem step_distinct (hd : Distinct s) (hi : Intact s) {a : Action} (hs : step s a = some s') :
    (Distinct s' ∧ Intact s') ↔ Safe s a := by
  cases a with
  | alloc k =>
    simp only [step] at hs
    split at hs
    · next i hc hfree =>
      cases hs
      exact alloc_distinct hd hi hfree (by simp [hc, Call.held]) (by simp [Call.held])
    · next hc hfull =>
      cases hs
      exact full_distinct hd hi hfull (by simp [hc, Call.held]) (by simp [Call.held])
    · cases hs
  | pipe_wr k =>
    simp only [step] at hs
    split at hs
    · next i hc hfree =>
      cases hs
      exact alloc_distinct hd hi hfree (by simp [hc, Call.held]) (by simp [Call.held])
    · next hc hfull =>
      cases hs
      exact full_distinct hd hi hfull (by simp [hc, Call.held]) (by simp [Call.held])
    · cases hs
  | pipe_rd k =>
    simp only [step] at hs
    split at hs
    · next wr i hc hfree =>
      cases hs
      exact alloc_distinct hd hi hfree (by simp [hc, Call.held]) (by simp [Call.held])
    · next wr hc hfull =>
      cases hs
      exact full_distinct hd hi hfull (by simp [hc, Call.held]) (by simp [Call.held])
    · cases hs
  | set k o =>
    simp only [step] at hs
    split at hs
    · next i hc =>
      cases hs
      refine iff_of_true (hd.keep hi (fun j hj => setAt_of_ne ?_) (by simp [hc, Call.held]) ?_) trivial
      · exact (hj ⟨i, none⟩ (by simp [hc, Call.held])).symm
      · simp [Call.held, Opened.assign_assign]
    · cases hs
  | set_wr k pi =>
    simp only [step] at hs
    split at hs
    · next wr rd hc =>
      cases hs
      refine iff_of_true (hd.keep hi (fun j hj => setAt_of_ne ?_) (by simp [hc, Call.held]) ?_) trivial
      · exact (hj ⟨wr, none⟩ (by simp [hc, Call.held])).symm
      · simp [Call.held, Opened.assign_assign]
    · cases hs
  | set_rd k =>
    simp only [step] at hs
    split at hs
    · next wr rd pi hc =>
      cases hs
      refine iff_of_true (hd.keep hi (fun j hj => setAt_of_ne ?_) (by simp [hc, Call.held]) ?_) trivial
      · exact (hj ⟨rd, none⟩ (by simp [hc, Call.held])).symm
      · have hne : wr ≠ rd := by
          have := hd.nodup k
          simpa [hc, Call.held] using this
        have hwr := hi k ⟨wr, some (.pipe pi true)⟩ (by simp [hc, Call.held]) (.pipe pi true) rfl
        simpa [Call.held, Opened.assign_assign, setAt_of_ne hne] using hwr
    · cases hs
  | roll_back k =>
    simp only [step] at hs
    split at hs
    · next wr hc =>
      obtain ⟨files, hclose, rfl⟩ := Option.map_eq_some_iff.mp hs
      exact iff_of_true (close_distinct hd hi hclose (by simp [hc, Call.held]) (by simp [Call.held])
        (by simp [Call.held])) trivial
    · cases hs
  | close k i =>
    simp only [step] at hs
    split at hs
    · next handles hc =>
      split at hs
      · next hmem =>
        obtain ⟨files, hclose, rfl⟩ := Option.map_eq_some_iff.mp hs
        have hnodup := hd.nodup k
        simp only [hc, Call.held, List.map_map] at hnodup
        refine iff_of_true (close_distinct hd hi hclose ?_ ?_ fun h hh => ?_) trivial
        · simpa [hc, Call.held] using hmem
        · rw [hc]
          exact List.eraseP_sublist.map _
        · obtain ⟨p, hp, rfl⟩ := List.mem_map.mp hh
          exact eraseP_slot hnodup p hp
      · cases hs
    · cases hs

/-- In every run whose steps are safe the handles are distinct and as their opens have left them,
and a further step keeps them so if and only if it is safe. -/
theorem open_handles_distinct (h : Transition.Reach (fun s => s = boot) step Safe s) :
    (Distinct s ∧ Intact s) ∧
      ∀ a s', step s a = some s' → ((Distinct s' ∧ Intact s') ↔ Safe s a) := by
  have hgood : Distinct s ∧ Intact s := by
    refine h.invariant (fun s => Distinct s ∧ Intact s) ?_ ?_
    · rintro s rfl
      exact ⟨⟨fun _ => List.nodup_nil, fun _ _ _ _ hh => by cases hh⟩, fun _ _ hh => by cases hh⟩
    · intro s a s' hs hsafe hstep
      exact (step_distinct hs.1 hs.2 hstep).mpr hsafe
  exact ⟨hgood, fun a s' hs => step_distinct hgood.1 hgood.2 hs⟩

/-- One open and then another, each of which has assigned its slot before the next starts. -/
theorem open_handles_distinct_two : ∃ s, (Distinct s ∧ Intact s) ∧
    s.call 0 = .returned [(0, .inode 5 true false)] ∧
    s.call 1 = .returned [(1, .inode 6 true true)] := by
  refine ⟨_, (open_handles_distinct (.next (.set 1 (.inode 6 true true)) (.next (.alloc 1)
    (.next (.set 0 (.inode 5 true false)) (.next (.alloc 0) (.start rfl) ?_ rfl) trivial rfl) ?_ rfl)
    trivial rfl)).1, rfl, rfl⟩
  · rintro ⟨k, h, hh, -, -⟩
    cases hh
  · rintro ⟨k, h, hh, hnone, -⟩
    by_cases hk : k = 0
    · subst hk
      simp [setAt, Call.held] at hh
      subst hh
      cases hnone
    · simp [setAt, hk, boot, Call.held] at hh

/-- Two opens that both run `ofile_alloc` before either assigns its slot get the same one, and the
second overwrites the `ip` of the first. -/
theorem open_handles_collide : ∃ s, Transition.Reach (fun s => s = boot) step (fun _ _ => True) s ∧
    s.call 0 = .returned [(0, .inode 5 true false)] ∧
    s.call 1 = .returned [(0, .inode 6 true true)] ∧ (s.files 0).ip = 6 ∧
    ¬Distinct s ∧ ¬Intact s := by
  refine ⟨_, .next (.set 1 (.inode 6 true true)) (.next (.set 0 (.inode 5 true false))
    (.next (.alloc 1) (.next (.alloc 0) (.start rfl) trivial rfl) trivial rfl) trivial rfl) trivial
    rfl, rfl, rfl, rfl, fun hd => ?_, fun hi => ?_⟩
  · exact hd.disjoint 0 1 (by decide) ⟨0, some (.inode 5 true false)⟩ List.mem_cons_self
      ⟨0, some (.inode 6 true true)⟩ List.mem_cons_self rfl
  · have := hi 0 ⟨0, some (.inode 5 true false)⟩ List.mem_cons_self _ rfl
    exact absurd (congrArg OFile.ip this) (by decide)

end Xv6fs.FileTable
