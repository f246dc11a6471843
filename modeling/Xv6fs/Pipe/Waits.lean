import Xv6fs.Pipe.Machine

/-! Which waits of a pipe end.  A thread that waits is woken by the other one, or by the `close` of the
other end, until one of three steps leaves it behind; and a read of a pipe without a writer returns
when it asks for no more than there is. -/

namespace Xv6fs

namespace Pipe

def Writer.waits : Writer → Bool
  | .waiting _ _ _ => true
  | _ => false

def Reader.waits : Reader → Bool
  | .waiting _ _ _ => true
  | _ => false

@[simp] theorem Writer.notified_waits (w : Writer) : w.notified.waits = false := by
  cases w <;> rfl

@[simp] theorem Reader.notified_waits (r : Reader) : r.notified.waits = false := by
  cases r <;> rfl

namespace Machine

variable {s s' : Machine} {a : Action} {fuel : Nat}

/-- Both threads wait, each for the other. -/
def Stuck (s : Machine) : Prop := s.writer.waits = true ∧ s.reader.waits = true

/-- A thread waits although the other end has been closed. -/
def Deserted (s : Machine) : Prop :=
  s.reader.waits = true ∧ s.pipe.writeopen = false ∨
    s.writer.waits = true ∧ s.pipe.readopen = false

/-- The reader takes no more than a full ring from a writer that waits, and no end is closed while the
other thread waits. -/
def Wakes (s : Machine) : Action → Prop
  | .reader _ => s.writer.waits = true → s.reader.asks ≤ PIPESIZE
  | .close true => s.reader.waits = false
  | .close false => s.writer.waits = false
  | _ => True

instance (s : Machine) : DecidablePred (Wakes s)
  | .reader _ => inferInstanceAs (Decidable (s.writer.waits = true → s.reader.asks ≤ PIPESIZE))
  | .close true => inferInstanceAs (Decidable (s.reader.waits = false))
  | .close false => inferInstanceAs (Decidable (s.writer.waits = false))
  | .write _ _ | .read _ _ | .writer | .wake_writer | .wake_reader => .isTrue trivial

/-- The writer waits for room in a full ring that is read, and the reader for bytes in an empty ring
that is written. -/
structure Flowing (s : Machine) : Prop where
  count : s.pipe.count ≤ PIPESIZE
  writer : s.writer.waits = true → s.pipe.count = PIPESIZE ∧ s.pipe.readopen = true
  reader : s.reader.waits = true → s.pipe.count = 0 ∧ s.pipe.writeopen = true

theorem Flowing.fresh (h : Fresh s) : Flowing s where
  count := by
    rw [empty_iff.mp h.empty]
    exact Nat.zero_le _
  writer := by
    rw [h.writer]
    intro hw
    cases hw
  reader := by
    rw [h.reader]
    intro hr
    cases hr

theorem Flowing.not_stuck (h : Flowing s) : ¬ Stuck s := by
  rintro ⟨hw, hr⟩
  have hfull := (h.writer hw).1
  rw [(h.reader hr).1] at hfull
  cases hfull

theorem Flowing.not_deserted (h : Flowing s) : ¬ Deserted s := by
  rintro (⟨hr, hclosed⟩ | ⟨hw, hclosed⟩)
  · rw [(h.reader hr).2] at hclosed
    cases hclosed
  · rw [(h.writer hw).2] at hclosed
    cases hclosed

/-- The writer fills the ring before it waits, and wakes the reader. -/
theorem Flowing.go_writer (h : Flowing s) (addr : Bytes.Source) (n i : Nat) :
    Flowing (s.go_writer addr n i) := by
  have hwrote := write_loop_wrote h.count addr n (n - i) i
  unfold Machine.go_writer
  generalize write_loop addr n (n - i) i s.pipe = r at hwrote
  obtain ⟨stop, j, p⟩ := r
  cases stop with
  | waits =>
    refine ⟨hwrote.count, fun _ => hwrote.waits rfl, fun hr => ?_⟩
    rw [Reader.notified_waits] at hr
    cases hr
  | fails =>
    obtain ⟨-, rfl⟩ := hwrote.fails rfl
    exact ⟨h.count, (fun hw => nomatch hw), h.reader⟩
  | returns =>
    refine ⟨hwrote.count, (fun hw => nomatch hw), fun hr => ?_⟩
    rw [Reader.notified_waits] at hr
    cases hr

/-- The reader empties the ring before it waits, and wakes the writer when it returns. -/
theorem Flowing.go_reader (h : Flowing s) (hasks : s.writer.waits = true → s.reader.asks ≤ PIPESIZE)
    (hgo : s.go_reader fuel = some s') : Flowing s' := by
  obtain ⟨stop, i, addr, p, hpassed, ⟨-, rfl⟩ | ⟨hlt, hempty, hopen, rfl⟩⟩ := go_reader_cases hgo
  · have hcount := hpassed.count
    have hmax := h.count
    refine ⟨?_, fun hw => ?_, fun hr => nomatch hr⟩
    · show p.count ≤ PIPESIZE
      omega
    · rw [Writer.notified_waits] at hw
      cases hw
  · refine ⟨?_, fun hw => ?_, fun _ => ⟨hempty, hpassed.ends.writeopen.trans hopen⟩⟩
    · show p.count ≤ PIPESIZE
      rw [hempty]
      exact Nat.zero_le _
    · have hfull := (h.writer hw).1
      have hle := hasks hw
      rw [hpassed.count, hempty] at hfull
      omega

/-- A reader that asks for more than a full ring waits for the writer that waits. -/
theorem Flowing.stuck (h : Flowing s) (hw : s.writer.waits = true) (hasks : PIPESIZE < s.reader.asks)
    (hgo : s.go_reader fuel = some s') : Stuck s' := by
  obtain ⟨stop, i, addr, p, hpassed, ⟨hi, rfl⟩ | ⟨-, -, -, rfl⟩⟩ := go_reader_cases hgo
  · have hfull := (h.writer hw).1
    rw [hpassed.count] at hfull
    omega
  · exact ⟨hw, rfl⟩

theorem Flowing.step (h : Flowing s) (hwakes : Wakes s a) (hstep : s.step a = some s') :
    Flowing s' := by
  cases stepped hstep with
  | write addr n hw => exact ⟨h.count, (fun hw => nomatch hw), h.reader⟩
  | read addr n hr => exact ⟨h.count, h.writer, fun hr => nomatch hr⟩
  | writer hw => exact h.go_writer _ _ _
  | reader fuel hgo => exact h.go_reader hwakes hgo
  | wake_writer hw => exact ⟨h.count, (fun hw => nomatch hw), h.reader⟩
  | wake_reader hr => exact ⟨h.count, h.writer, fun hr => nomatch hr⟩
  | close writable =>
    cases writable with
    | true =>
      refine ⟨h.count, fun hw => ?_, fun hr => ?_⟩
      · rw [close, if_pos rfl, Writer.notified_waits] at hw
        cases hw
      · exact absurd hr (Bool.eq_false_iff.mp hwakes)
    | false =>
      refine ⟨h.count, fun hw => ?_, fun hr => ?_⟩
      · exact absurd hw (Bool.eq_false_iff.mp hwakes)
      · rw [close, if_neg Bool.false_ne_true, Reader.notified_waits] at hr
        cases hr

/-- The steps that leave a thread behind. -/
theorem Flowing.left_behind (h : Flowing s) (hwakes : ¬ Wakes s a) (hstep : s.step a = some s') :
    Stuck s' ∨ Deserted s' := by
  cases stepped hstep with
  | reader fuel hgo =>
    obtain ⟨hw, hasks⟩ := Classical.not_imp.mp hwakes
    exact .inl (h.stuck hw (Nat.lt_of_not_le hasks) hgo)
  | close writable =>
    cases writable with
    | true => exact .inr (.inl ⟨Bool.eq_true_of_not_eq_false hwakes, rfl⟩)
    | false => exact .inr (.inr ⟨Bool.eq_true_of_not_eq_false hwakes, rfl⟩)
  | _ => exact absurd trivial hwakes

end Machine

variable {p : Pipe} {addr : Bytes.Source} {n : Nat}

/-- A read without a writer returns when it asks for no more than there is, and else never. -/
theorem read_loop_closed (hclosed : p.writeopen = false) :
    (∃ fuel addr' p', read_loop n fuel 0 addr p = some (.returns, min p.count n, addr', p')) ↔
      n ≤ p.count := by
  constructor
  · rintro ⟨fuel, addr', p', h⟩
    have hpassed := read_loop_passed h
    obtain ⟨-, hn⟩ | ⟨hstop, -⟩ := hpassed.stop
    · omega
    · cases hstop
  · intro hle
    rw [Nat.min_eq_right hle]
    obtain rfl | hpos := Nat.eq_zero_or_pos n
    · exact ⟨1, addr, p, rfl⟩
    · have htook := read_for_took addr p n 0 (Nat.zero_le n) (by omega)
      obtain ⟨j, addr', p', hr⟩ : ∃ j addr' p', read_for n n 0 addr p = (j, addr', p') :=
        ⟨_, _, _, rfl⟩
      rw [hr] at htook
      have hcount := htook.count
      have hmax := htook.max
      obtain rfl : j = n := by
        have hall := htook.all
        dsimp only at hall hcount hmax
        omega
      refine ⟨2, addr', p', ?_⟩
      rw [read_loop, if_pos hpos, if_neg (by simp [hclosed]), hr]
      dsimp only
      rw [read_loop, if_neg (Nat.lt_irrefl j)]

namespace Machine

end Machine

end Pipe

end Xv6fs
