import Xv6fs.Pipe.Machine

/-! A pipe as a queue.  Without a `close` the bytes that reads return are those that writes have put in,
until a read starts again after it has taken bytes and waited for more. -/

namespace Xv6fs

namespace Pipe

/-- The bytes that the reader has taken for the call that it is in. -/
def Reader.held : Reader → List UInt8
  | .waiting addr _ i => between addr 0 i
  | .woken addr _ i => between addr 0 i
  | _ => []

@[simp] theorem Reader.notified_held (r : Reader) : r.notified.held = r.held := by
  cases r <;> rfl

namespace Machine

variable {s s' : Machine} {a : Action} {fuel : Nat}

/-- What reads have returned is the start of what writes have put in, and the rest is with the reader
or in the ring. -/
structure Lossless (s : Machine) : Prop where
  returned : s.got <+: s.written
  kept : s.written = s.got ++ s.reader.held ++ s.pipe.contents
  count : s.pipe.count ≤ PIPESIZE

/-- Only calls of `write` and `read`, and what they do. -/
def Calls : Action → Prop
  | .close _ => False
  | _ => True

/-- No read goes on after a wait with bytes that it had taken before. -/
def Keeps (s : Machine) (a : Action) : Prop :=
  match a, s.reader with
  | .reader _, .woken _ _ i => i = 0
  | _, _ => True

instance : DecidablePred Calls
  | .close _ => .isFalse id
  | .write _ _ | .read _ _ | .writer | .reader _ | .wake_writer | .wake_reader => .isTrue trivial

instance (s : Machine) (a : Action) : Decidable (Keeps s a) := by
  unfold Keeps
  split <;> infer_instance

theorem Lossless.of_kept (hkept : s.written = s.got ++ s.reader.held ++ s.pipe.contents)
    (hcount : s.pipe.count ≤ PIPESIZE) : Lossless s := by
  refine ⟨?_, hkept, hcount⟩
  rw [hkept, List.append_assoc]
  exact List.prefix_append _ _

/-- Nothing but the place of a thread changes, and the reader keeps what it has. -/
theorem Lossless.congr (h : Lossless s) (hpipe : s'.pipe = s.pipe) (hwritten : s'.written = s.written)
    (hgot : s'.got = s.got) (hheld : s'.reader.held = s.reader.held) : Lossless s' := by
  apply Lossless.of_kept
  · rw [hwritten, hgot, hheld, hpipe, h.kept]
  · rw [hpipe]
    exact h.count

theorem Lossless.fresh (h : Fresh s) : Lossless s := by
  have hcount : s.pipe.count = 0 := empty_iff.mp h.empty
  apply Lossless.of_kept
  · rw [h.written, h.got, h.reader, contents_eq_nil hcount]
    rfl
  · rw [hcount]
    exact Nat.zero_le _

/-- The writer adds its bytes at the end. -/
theorem Lossless.go_writer (h : Lossless s) (addr : Bytes.Source) (n i : Nat) :
    Lossless (s.go_writer addr n i) := by
  have hwrote := write_loop_wrote h.count addr n (n - i) i
  unfold Machine.go_writer
  generalize write_loop addr n (n - i) i s.pipe = r at hwrote
  obtain ⟨stop, j, p⟩ := r
  have hkept : s.written ++ between addr i j = s.got ++ s.reader.held ++ p.contents := by
    rw [hwrote.contents, ← List.append_assoc, ← h.kept]
  cases stop with
  | waits =>
    apply Lossless.of_kept
    · rw [Reader.notified_held]
      exact hkept
    · exact hwrote.count
  | fails => exact .of_kept hkept hwrote.count
  | returns =>
    apply Lossless.of_kept
    · rw [Reader.notified_held]
      exact hkept
    · exact hwrote.count

/-- What there is after the reader has had the mutex: what it takes replaces what it has held. -/
theorem go_reader_kept (h : s.go_reader fuel = some s') :
    s'.written = s.written ∧ s'.got ++ s'.reader.held ++ s'.pipe.contents = s.got ++ s.pipe.contents ∧
      s'.pipe.count ≤ s.pipe.count := by
  obtain ⟨stop, i, addr, p, hpassed, ⟨-, rfl⟩ | ⟨-, -, -, rfl⟩⟩ := go_reader_cases h
  · refine ⟨rfl, ?_, ?_⟩
    · show s.got ++ between addr 0 i ++ [] ++ p.contents = _
      rw [hpassed.contents, List.append_nil, List.append_assoc]
    · show p.count ≤ _
      rw [hpassed.count]
      exact Nat.le_add_left _ _
  · refine ⟨rfl, ?_, ?_⟩
    · show s.got ++ between addr 0 i ++ p.contents = _
      rw [hpassed.contents, List.append_assoc]
    · show p.count ≤ _
      rw [hpassed.count]
      exact Nat.le_add_left _ _

/-- The reader loses what it has held when it gets the mutex. -/
theorem Lossless.go_reader_iff (h : Lossless s) (hgo : s.go_reader fuel = some s') :
    Lossless s' ↔ s.reader.held = [] := by
  obtain ⟨hwritten, hkept, hcount⟩ := go_reader_kept hgo
  constructor
  · intro h'
    have hlength := congrArg List.length (hwritten.symm.trans h'.kept)
    rw [hkept, h.kept] at hlength
    simp only [List.length_append] at hlength
    exact List.eq_nil_of_length_eq_zero (by omega)
  · intro hheld
    apply Lossless.of_kept
    · rw [hwritten, hkept, h.kept, hheld, List.append_nil]
    · exact Nat.le_trans hcount h.count

theorem held_eq_nil_iff (hgo : s.go_reader fuel = some s') :
    s.reader.held = [] ↔ Keeps s (.reader fuel) := by
  unfold Keeps
  cases hr : s.reader with
  | idle => exact ⟨fun _ => trivial, fun _ => rfl⟩
  | called addr n => exact ⟨fun _ => trivial, fun _ => rfl⟩
  | waiting addr n i =>
    rw [Machine.go_reader, hr] at hgo
    cases hgo
  | woken addr n i =>
    show between addr 0 i = [] ↔ i = 0
    rw [← List.length_eq_zero_iff, length_between, Nat.sub_zero]

/-- A step of a call keeps all bytes, but for that of a read that goes on after a wait. -/
theorem Lossless.step_iff (h : Lossless s) (ha : Calls a) (hstep : s.step a = some s') :
    Lossless s' ↔ Keeps s a := by
  cases stepped hstep with
  | write addr n hw => exact iff_of_true (h.congr rfl rfl rfl rfl) trivial
  | read addr n hr =>
    refine iff_of_true (h.congr rfl rfl rfl ?_) trivial
    rw [hr]
    rfl
  | writer hw => exact iff_of_true (h.go_writer _ _ _) trivial
  | reader fuel hgo => exact (h.go_reader_iff hgo).trans (held_eq_nil_iff hgo)
  | wake_writer hw => exact iff_of_true (h.congr rfl rfl rfl rfl) trivial
  | wake_reader hr =>
    refine iff_of_true (h.congr rfl rfl rfl ?_) trivial
    rw [hr]
    rfl
  | close writable => exact ha.elim

/-- A pipe is a queue as long as no read goes on after a wait with bytes that it had taken before, and
the first such step loses bytes. -/
theorem lossless_iff (h : Transition.Reach Fresh step (fun s a => Calls a ∧ Keeps s a) s) :
    Lossless s ∧ ∀ a s', Calls a → s.step a = some s' → (Lossless s' ↔ Keeps s a) := by
  have hl : Lossless s := h.invariant Lossless (fun _ => Lossless.fresh)
    fun s a s' hl hok hstep => (hl.step_iff hok.1 hstep).mpr hok.2
  exact ⟨hl, fun a s' ha hstep => hl.step_iff ha hstep⟩

/-- A read of two bytes takes the only one there is and waits, and then two more are written. -/
def torn : List Action :=
  [.write (fun _ => 1) 1, .writer, .read (fun _ => 0) 2, .reader 2, .write (fun j => [2, 3].getD j 0) 2,
    .writer]

theorem lossless_iff_torn : ∃ s, Transition.Reach Fresh step (fun s a => Calls a ∧ Keeps s a) s ∧
    Lossless s ∧ ∃ s', s.step (.reader 2) = some s' ∧ ¬ Lossless s' := by
  have hstart : Transition.Reach Fresh step (fun s a => Calls a ∧ Keeps s a) new := .start new_fresh
  obtain ⟨s, hreach, hs⟩ := hstart.of_run torn
    (p := fun s => decide (¬ Keeps s (.reader 2)) && (s.step (.reader 2)).isSome) (by decide)
  obtain ⟨hkeeps, hsome⟩ := Bool.and_eq_true_iff.mp hs
  obtain ⟨s', hs'⟩ := Option.isSome_iff_exists.mp hsome
  have hl := lossless_iff hreach
  exact ⟨s, hreach, hl.1, s', hs', (hl.2 (.reader 2) s' trivial hs').not.mpr (of_decide_eq_true hkeeps)⟩

/-- The read returns the second and the third byte, and the first is lost. -/
theorem lossless_fails : ∃ s, Transition.Reach Fresh step (fun _ a => Calls a) s ∧
    s.written = [1, 2, 3] ∧ s.got = [2, 3] ∧ ¬ s.got <+: s.written := by
  have hstart : Transition.Reach Fresh step (fun _ a => Calls a) new := .start new_fresh
  obtain ⟨s, hreach, hs⟩ := hstart.of_run (torn ++ [.reader 2])
    (p := fun s => decide (s.written = [1, 2, 3] ∧ s.got = [2, 3] ∧ ¬ s.got <+: s.written)) (by decide)
  exact ⟨s, hreach, of_decide_eq_true hs⟩

end Machine

end Pipe

end Xv6fs
