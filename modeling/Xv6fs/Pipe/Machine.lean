import Xv6fs.Common
import Xv6fs.Lib.Bytes
import Xv6fs.Lib.Ring
import Xv6fs.Lib.Transition

/-! A pipe with one writer and one reader, `Pipe.cxx`.  The mutex is released only at waits and at
returns, so a thread goes at once from where it gets the mutex to where it releases it. -/

namespace Xv6fs

open Function (update)

abbrev PIPESIZE : Nat := 512

structure Pipe where
  data : Nat → UInt8
  nread : UInt32
  nwrite : UInt32
  readopen : Bool
  writeopen : Bool

namespace Pipe

/-- How a thread releases the mutex: in a wait, with `-1`, or with its index as the result. -/
inductive Stop
  | waits
  | fails
  | returns
  deriving DecidableEq

/-- `data[nwrite++ % PIPESIZE] = ch`. -/
def put (p : Pipe) (ch : UInt8) : Pipe := { p with
  data := update p.data (p.nwrite.toNat % PIPESIZE) ch
  nwrite := p.nwrite + 1 }

/-- `data[nread++ % PIPESIZE]`, and the pipe after that. -/
def take (p : Pipe) : UInt8 × Pipe :=
  (p.data (p.nread.toNat % PIPESIZE), { p with nread := p.nread + 1 })

/-- The loop of `write` of the `n` bytes at `addr`, from index `i` on. -/
def write_loop (addr : Bytes.Source) (n : Nat) : (fuel i : Nat) → Pipe → Stop × Nat × Pipe
  | 0, i, p => (.returns, i, p)
  | fuel + 1, i, p =>
    if i < n then
      if p.readopen = false then (.fails, i, p)
      else if p.nwrite = p.nread + UInt32.ofNat PIPESIZE then (.waits, i, p)
      else write_loop addr n fuel (i + 1) (p.put (addr i))
    else (.returns, i, p)

/-- The `for` loop of `read` from index `i` on: the index after it, the buffer and the pipe. -/
def read_for (n : Nat) : (fuel i : Nat) → Bytes.Source → Pipe → Nat × Bytes.Source × Pipe
  | 0, i, addr, p => (i, addr, p)
  | fuel + 1, i, addr, p =>
    if i < n then
      if p.nread = p.nwrite then (i, addr, p)
      else read_for n fuel (i + 1) (update addr i p.take.1) p.take.2
    else (i, addr, p)

/-- The `while` loop of `read`, if it gets to a wait or to the return with the fuel. -/
def read_loop (n : Nat) : (fuel i : Nat) → Bytes.Source → Pipe →
    Option (Stop × Nat × Bytes.Source × Pipe)
  | 0, _, _, _ => none
  | fuel + 1, i, addr, p =>
    if i < n then
      if p.nwrite = p.nread ∧ p.writeopen = true then some (.waits, i, addr, p)
      else
        let (i, addr, p) := read_for n n 0 addr p
        read_loop n fuel i addr p
    else some (.returns, i, addr, p)

/-! ### The threads -/

/-- Where the writer is in a `write` of the `n` bytes at `addr`: it wants the mutex, or waits on
`cv_wr`. -/
inductive Writer
  | idle
  | ready (addr : Bytes.Source) (n i : Nat)
  | waiting (addr : Bytes.Source) (n i : Nat)

/-- Where the reader is in a `read` of `n` bytes to `addr`: it wants the mutex at the start or after a
wait, or waits on `cv_rd`. -/
inductive Reader
  | idle
  | called (addr : Bytes.Source) (n : Nat)
  | waiting (addr : Bytes.Source) (n i : Nat)
  | woken (addr : Bytes.Source) (n i : Nat)

/-- `cv_wr.notify_all()`. -/
def Writer.notified : Writer → Writer
  | .waiting addr n i => .ready addr n i
  | w => w

/-- `cv_rd.notify_all()`. -/
def Reader.notified : Reader → Reader
  | .waiting addr n i => .woken addr n i
  | r => r

/-- What the reader does with the mutex. -/
def Reader.go (fuel : Nat) (p : Pipe) : Reader → Option (Nat × Stop × Nat × Bytes.Source × Pipe)
  | .called addr n => (read_loop n fuel 0 addr p).map fun r => (n, r)
  | .woken addr n _ =>
    let (i, addr, p) := read_for n n 0 addr p
    (read_loop n fuel i addr p).map fun r => (n, r)
  | _ => none

/-- The bytes at `addr`, from index `i` on, before index `j`. -/
def between (addr : Bytes.Source) (i j : Nat) : List UInt8 := (List.range' i (j - i)).map addr

/-- The pipe and its threads, with the bytes that writes have put into the ring and those that reads
have returned. -/
structure Machine where
  pipe : Pipe
  freed : Bool
  writer : Writer
  reader : Reader
  written : List UInt8
  got : List UInt8

/-- A step: a call, a thread that gets the mutex, a wait that ends for no reason, or a `close`. -/
inductive Action
  | write (addr : Bytes.Source) (n : Nat)
  | read (addr : Bytes.Source) (n : Nat)
  | writer
  | reader (fuel : Nat)
  | wake_writer
  | wake_reader
  | close (writable : Bool)

namespace Machine

/-- The writer gets the mutex. -/
def go_writer (s : Machine) (addr : Bytes.Source) (n i : Nat) : Machine :=
  let (stop, j, p) := write_loop addr n (n - i) i s.pipe
  let s := { s with pipe := p, written := s.written ++ between addr i j }
  match stop with
  | .waits => { s with writer := .waiting addr n j, reader := s.reader.notified }
  | .fails => { s with writer := .idle }
  | .returns => { s with writer := .idle, reader := s.reader.notified }

/-- The reader gets the mutex. -/
def go_reader (s : Machine) (fuel : Nat) : Option Machine :=
  (s.reader.go fuel s.pipe).map fun (n, stop, i, addr, p) =>
    match stop with
    | .returns => { s with
        pipe := p, reader := .idle, writer := s.writer.notified, got := s.got ++ between addr 0 i }
    | _ => { s with pipe := p, reader := .waiting addr n i }

/-- `close`.  The pipe is deleted when both ends are closed. -/
def close (s : Machine) (writable : Bool) : Machine :=
  let s := if writable then
      { s with pipe := { s.pipe with writeopen := false }, writer := s.writer.notified }
    else { s with pipe := { s.pipe with readopen := false }, reader := s.reader.notified }
  { s with freed := !s.pipe.readopen && !s.pipe.writeopen }

def step (s : Machine) (a : Action) : Option Machine :=
  if s.freed then none
  else
    match a, s.writer, s.reader with
    | .write addr n, .idle, _ => some { s with writer := .ready addr n 0 }
    | .read addr n, _, .idle => some { s with reader := .called addr n }
    | .writer, .ready addr n i, _ => some (s.go_writer addr n i)
    | .reader fuel, _, _ => s.go_reader fuel
    | .wake_writer, .waiting addr n i, _ => some { s with writer := .ready addr n i }
    | .wake_reader, _, .waiting addr n i => some { s with reader := .woken addr n i }
    | .close writable, _, _ => some (s.close writable)
    | _, _, _ => none

/-- An empty pipe that is open at both ends and that nobody uses yet. -/
structure Fresh (s : Machine) : Prop where
  empty : s.pipe.nread = s.pipe.nwrite
  readopen : s.pipe.readopen = true
  writeopen : s.pipe.writeopen = true
  freed : s.freed = false
  writer : s.writer = .idle
  reader : s.reader = .idle
  written : s.written = []
  got : s.got = []

/-- A new pipe, with counters at zero. -/
def new : Machine where
  pipe := ⟨fun _ => 0, 0, 0, true, true⟩
  freed := false
  writer := .idle
  reader := .idle
  written := []
  got := []

theorem new_fresh : Fresh new := ⟨rfl, rfl, rfl, rfl, rfl, rfl, rfl, rfl⟩

end Machine

/-! ### What the loops do -/

/-- The bytes in the ring, oldest first. -/
def contents (p : Pipe) : List UInt8 := Ring.contents p.data PIPESIZE p.nread p.nwrite

/-- The number of bytes in the ring. -/
def count (p : Pipe) : Nat := Ring.count p.nread p.nwrite

variable {p p' : Pipe} {addr addr' : Bytes.Source} {n i j fuel : Nat} {stop : Stop}

@[simp] theorem length_contents (p : Pipe) : p.contents.length = p.count := Ring.length_contents

theorem pipesize_dvd : PIPESIZE ∣ 2 ^ 32 := by decide

theorem full_iff : p.nwrite = p.nread + UInt32.ofNat PIPESIZE ↔ p.count = PIPESIZE :=
  (Ring.count_eq_iff (by decide)).symm

theorem empty_iff : p.nread = p.nwrite ↔ p.count = 0 := Ring.count_eq_zero.symm

theorem contents_eq_nil (h : p.count = 0) : p.contents = [] :=
  List.eq_nil_of_length_eq_zero (by rw [length_contents, h])

theorem count_put (h : p.count < PIPESIZE) (ch : UInt8) : (p.put ch).count = p.count + 1 :=
  Ring.count_push (Nat.lt_of_le_of_lt h (by decide))

theorem contents_put (h : p.count < PIPESIZE) (ch : UInt8) :
    (p.put ch).contents = p.contents ++ [ch] :=
  Ring.contents_push pipesize_dvd h ch (by decide)

theorem count_take (h : 0 < p.count) : p.take.2.count = p.count - 1 := Ring.count_pop h

theorem contents_take (h : 0 < p.count) : p.contents = p.take.1 :: p.take.2.contents :=
  Ring.contents_pop pipesize_dvd h

theorem between_self (addr : Bytes.Source) (i : Nat) : between addr i i = [] := by
  simp [between]

theorem between_cons (addr : Bytes.Source) (h : i < j) :
    between addr i j = addr i :: between addr (i + 1) j := by
  rw [between, between, show j - i = (j - (i + 1)) + 1 by omega, List.range'_succ, List.map_cons]

@[simp] theorem length_between (addr : Bytes.Source) (i j : Nat) :
    (between addr i j).length = j - i := by
  simp [between]

/-- The ends of the pipe are as they were. -/
structure SameEnds (p p' : Pipe) : Prop where
  readopen : p'.readopen = p.readopen
  writeopen : p'.writeopen = p.writeopen

/-- What the writer does with the mutex: it adds the bytes from its index on, as far as they fit. -/
structure Wrote (addr : Bytes.Source) (n i : Nat) (p : Pipe) (stop : Stop) (j : Nat) (p' : Pipe) :
    Prop where
  le : i ≤ j
  contents : p'.contents = p.contents ++ between addr i j
  count : p'.count ≤ PIPESIZE
  ends : SameEnds p p'
  waits : stop = .waits → p'.count = PIPESIZE ∧ p'.readopen = true
  fails : stop = .fails → p.readopen = false ∧ p' = p

theorem write_loop_wrote (hcount : p.count ≤ PIPESIZE) (addr : Bytes.Source) (n fuel i : Nat) :
    Wrote addr n i p (write_loop addr n fuel i p).1 (write_loop addr n fuel i p).2.1
      (write_loop addr n fuel i p).2.2 := by
  have hstop : ∀ {i : Nat} {p : Pipe} {stop : Stop}, p.count ≤ PIPESIZE →
      (stop = .waits → p.count = PIPESIZE ∧ p.readopen = true) →
      (stop = .fails → p.readopen = false) → Wrote addr n i p stop i p := by
    intro i p stop hcount hwaits hfails
    refine ⟨Nat.le_refl i, ?_, hcount, ⟨rfl, rfl⟩, hwaits, fun h => ⟨hfails h, rfl⟩⟩
    rw [between_self, List.append_nil]
  induction fuel generalizing i p with
  | zero => exact hstop hcount (fun h => nomatch h) fun h => nomatch h
  | succ fuel ih =>
    rw [write_loop]
    split
    · split
      · next hclosed => exact hstop hcount (fun h => nomatch h) fun _ => hclosed
      · next hopen =>
        split
        · next hfull =>
          apply hstop hcount (fun _ => ⟨full_iff.mp hfull, Bool.eq_true_of_not_eq_false hopen⟩)
          exact fun h => nomatch h
        · next hroom =>
          have hroom : p.count < PIPESIZE :=
            Nat.lt_of_le_of_ne hcount fun heq => hroom (full_iff.mpr heq)
          have hput := count_put hroom (addr i)
          have hw := ih (p := p.put (addr i)) (by omega) (i + 1)
          refine ⟨Nat.le_of_succ_le hw.le, ?_, hw.count, ⟨hw.ends.readopen, hw.ends.writeopen⟩,
            hw.waits, fun h => absurd (hw.fails h).1 hopen⟩
          rw [hw.contents, contents_put hroom, between_cons addr hw.le, List.append_assoc,
            List.singleton_append]
    · exact hstop hcount (fun h => nomatch h) fun h => nomatch h

/-- A pass of the `for` loop of `read` from index `i` on: it takes the bytes up to index `j` from the
ring. -/
structure Took (n i : Nat) (addr : Bytes.Source) (p : Pipe) (j : Nat) (addr' : Bytes.Source)
    (p' : Pipe) : Prop where
  le : i ≤ j
  max : j ≤ n
  contents : p.contents = between addr' i j ++ p'.contents
  count : p.count = (j - i) + p'.count
  kept : ∀ k < i, addr' k = addr k
  ends : SameEnds p p'
  all : j = n ∨ p'.count = 0
  nothing : j = i → addr' = addr ∧ p' = p

theorem read_for_took (addr : Bytes.Source) (p : Pipe) (fuel i : Nat) (hi : i ≤ n)
    (hfuel : n ≤ i + fuel) :
    Took n i addr p (read_for n fuel i addr p).1 (read_for n fuel i addr p).2.1
      (read_for n fuel i addr p).2.2 := by
  have hstop : ∀ {i : Nat} {addr : Bytes.Source} {p : Pipe}, i ≤ n → (i = n ∨ p.count = 0) →
      Took n i addr p i addr p := by
    intro i addr p hi hall
    refine ⟨Nat.le_refl i, hi, ?_, ?_, fun _ _ => rfl, ⟨rfl, rfl⟩, hall, fun _ => ⟨rfl, rfl⟩⟩
    · rw [between_self, List.nil_append]
    · omega
  induction fuel generalizing i addr p with
  | zero => exact hstop hi (.inl (by omega))
  | succ fuel ih =>
    rw [read_for]
    split
    · split
      · next hempty => exact hstop hi (.inr (empty_iff.mp hempty))
      · next hne =>
        have hpos : 0 < p.count := Nat.pos_of_ne_zero fun h0 => hne (empty_iff.mpr h0)
        have htake := count_take hpos
        have ht := ih (update addr i p.take.1) p.take.2 (i + 1) (by omega) (by omega)
        generalize read_for n fuel (i + 1) (update addr i p.take.1) p.take.2 = r at ht
        obtain ⟨j, addr', p'⟩ := r
        dsimp only at ht ⊢
        have hle := ht.le
        have hcount := ht.count
        have hat : addr' i = p.take.1 := by
          rw [ht.kept i (Nat.lt_succ_self i), Function.update_self]
        refine ⟨by omega, ht.max, ?_, ?_, fun k hk => ?_, ⟨ht.ends.readopen, ht.ends.writeopen⟩, ht.all,
          fun h => ?_⟩
        · rw [contents_take hpos, ht.contents, between_cons addr' hle, hat, List.cons_append]
        · omega
        · rw [ht.kept k (by omega), Function.update_of_ne (by omega)]
        · omega
    · exact hstop hi (.inl (by omega))

/-- A pass that finds the ring empty takes nothing, and the loop goes on for ever when the write end
is closed. -/
theorem read_loop_empty (hempty : p.count = 0) (hlt : i < n) (fuel : Nat) :
    read_loop n (fuel + 1) i addr p =
      if p.writeopen = true then some (.waits, i, addr, p) else none := by
  induction fuel generalizing i with
  | zero =>
    rw [read_loop, if_pos hlt]
    simp only [(empty_iff.mpr hempty).symm, true_and]
    split
    · rfl
    · rfl
  | succ fuel ih =>
    rw [read_loop, if_pos hlt]
    simp only [(empty_iff.mpr hempty).symm, true_and]
    split
    · rfl
    · next hclosed =>
      have hpass := read_for_took addr p n 0 (Nat.zero_le n) (by omega)
      generalize read_for n n 0 addr p = r at hpass
      obtain ⟨j, addr', p'⟩ := r
      have hcount := hpass.count
      obtain ⟨rfl, rfl⟩ := hpass.nothing (by omega)
      obtain rfl : j = 0 := by
        have := hpass.count
        omega
      dsimp only
      rw [ih (by omega), if_neg hclosed]

/-- After a pass the loop returns when that has taken all, and waits when there is a writer. -/
theorem read_loop_after {q : Pipe} {a : Bytes.Source} (hpass : Took n 0 a q i addr p)
    (h : read_loop n fuel i addr p = some (stop, j, addr', p')) : (j, addr', p') = (i, addr, p) ∧
      (stop = .returns ∧ i = n ∨
        stop = .waits ∧ i < n ∧ p.count = 0 ∧ p.writeopen = true) := by
  have hmax := hpass.max
  cases fuel with
  | zero => cases h
  | succ fuel =>
    by_cases hlt : i < n
    · have hempty := hpass.all.resolve_left (Nat.ne_of_lt hlt)
      rw [read_loop_empty hempty hlt, Option.ite_none_right_eq_some] at h
      obtain ⟨hopen, h⟩ := h
      cases h
      exact ⟨rfl, .inr ⟨rfl, hlt, hempty, hopen⟩⟩
    · rw [read_loop, if_neg hlt] at h
      cases h
      exact ⟨rfl, .inl ⟨rfl, by omega⟩⟩

/-- What the reader does with the mutex: it takes the bytes before its index, all that it asks for
when it returns, and all that there are when it waits. -/
structure Passed (n : Nat) (p : Pipe) (stop : Stop) (i : Nat) (addr : Bytes.Source) (p' : Pipe) :
    Prop where
  contents : p.contents = between addr 0 i ++ p'.contents
  count : p.count = i + p'.count
  ends : SameEnds p p'
  stop : stop = .returns ∧ i = n ∨ stop = .waits ∧ i < n ∧ p'.count = 0 ∧ p.writeopen = true

theorem Passed.of_took (hpass : Took n 0 addr p i addr' p')
    (hstop : stop = .returns ∧ i = n ∨ stop = .waits ∧ i < n ∧ p'.count = 0 ∧ p'.writeopen = true) :
    Passed n p stop i addr' p' where
  contents := hpass.contents
  count := by rw [hpass.count, Nat.sub_zero]
  ends := hpass.ends
  stop := by rwa [hpass.ends.writeopen] at hstop

theorem read_loop_passed (h : read_loop n fuel 0 addr p = some (stop, i, addr', p')) :
    Passed n p stop i addr' p' := by
  cases fuel with
  | zero => cases h
  | succ fuel =>
    rw [read_loop] at h
    split at h
    · next hlt =>
      split at h
      · next hwait =>
        cases h
        have hempty := empty_iff.mp hwait.1.symm
        refine ⟨?_, (Nat.zero_add _).symm, ⟨rfl, rfl⟩, .inr ⟨rfl, hlt, hempty, hwait.2⟩⟩
        rw [between_self, List.nil_append]
      · have hpass := read_for_took addr p n 0 (Nat.zero_le n) (by omega)
        generalize read_for n n 0 addr p = r at hpass h
        obtain ⟨k, addr1, p1⟩ := r
        obtain ⟨heq, hstop⟩ := read_loop_after hpass h
        cases heq
        exact .of_took hpass hstop
    · cases h
      refine ⟨?_, (Nat.zero_add _).symm, ⟨rfl, rfl⟩, .inl ⟨rfl, by omega⟩⟩
      rw [between_self, List.nil_append]

/-- The number of bytes that the reader asks for. -/
def Reader.asks : Reader → Nat
  | .idle => 0
  | .called _ n => n
  | .waiting _ n _ => n
  | .woken _ n _ => n

theorem Reader.go_asks {r : Reader} (h : r.go fuel p = some (n, stop, i, addr, p')) : r.asks = n := by
  unfold Reader.go at h
  split at h
  · obtain ⟨_, _, heq⟩ := Option.map_eq_some_iff.mp h
    cases heq
    rfl
  · obtain ⟨_, _, heq⟩ := Option.map_eq_some_iff.mp h
    cases heq
    rfl
  · cases h

theorem Reader.go_passed {r : Reader} (h : r.go fuel p = some (n, stop, i, addr, p')) :
    Passed n p stop i addr p' := by
  unfold Reader.go at h
  split at h
  · obtain ⟨⟨stop', i', addr'', p''⟩, hloop, heq⟩ := Option.map_eq_some_iff.mp h
    cases heq
    exact read_loop_passed hloop
  · next addr0 n0 i0 =>
    have hpass := read_for_took addr0 p n0 0 (Nat.zero_le n0) (by omega)
    generalize read_for n0 n0 0 addr0 p = q at hpass h
    obtain ⟨k, addr1, p1⟩ := q
    obtain ⟨⟨stop', i', addr'', p''⟩, hloop, heq⟩ := Option.map_eq_some_iff.mp h
    cases heq
    obtain ⟨heq, hstop⟩ := read_loop_after hpass hloop
    cases heq
    exact .of_took hpass hstop
  · cases h

namespace Machine

variable {s s' : Machine} {a : Action}

/-- What each step needs, and what it leads to. -/
inductive Stepped (s : Machine) : Action → Machine → Prop
  | write (addr : Bytes.Source) (n : Nat) : s.writer = .idle →
      Stepped s (.write addr n) { s with writer := .ready addr n 0 }
  | read (addr : Bytes.Source) (n : Nat) : s.reader = .idle →
      Stepped s (.read addr n) { s with reader := .called addr n }
  | writer {addr : Bytes.Source} {n i : Nat} : s.writer = .ready addr n i →
      Stepped s .writer (s.go_writer addr n i)
  | reader (fuel : Nat) {s' : Machine} : s.go_reader fuel = some s' →
      Stepped s (.reader fuel) s'
  | wake_writer {addr : Bytes.Source} {n i : Nat} : s.writer = .waiting addr n i →
      Stepped s .wake_writer { s with writer := .ready addr n i }
  | wake_reader {addr : Bytes.Source} {n i : Nat} : s.reader = .waiting addr n i →
      Stepped s .wake_reader { s with reader := .woken addr n i }
  | close (writable : Bool) : Stepped s (.close writable) (s.close writable)

theorem stepped (h : s.step a = some s') : Stepped s a s' := by
  unfold step at h
  split at h
  · cases h
  · split at h
    · next hw => cases h; exact .write _ _ hw
    · next hr => cases h; exact .read _ _ hr
    · next hw => cases h; exact .writer hw
    · exact .reader _ h
    · next hw => cases h; exact .wake_writer hw
    · next hr => cases h; exact .wake_reader hr
    · cases h; exact .close _
    · cases h

/-- What the reader leaves when it gets the mutex: it returns with the bytes it asks for, or waits. -/
theorem go_reader_cases {fuel : Nat} (h : s.go_reader fuel = some s') :
    ∃ stop i addr p, Passed s.reader.asks s.pipe stop i addr p ∧
      ((i = s.reader.asks ∧ s' = { s with
          pipe := p, reader := .idle, writer := s.writer.notified, got := s.got ++ between addr 0 i }) ∨
        (i < s.reader.asks ∧ p.count = 0 ∧ s.pipe.writeopen = true ∧
          s' = { s with pipe := p, reader := .waiting addr s.reader.asks i })) := by
  obtain ⟨⟨n, stop, i, addr, p⟩, hgo, heq⟩ := Option.map_eq_some_iff.mp h
  have hp := Reader.go_passed hgo
  obtain rfl := Reader.go_asks hgo
  obtain ⟨rfl, hin⟩ | ⟨rfl, hlt, hcount, hopen⟩ := hp.stop
  · exact ⟨.returns, i, addr, p, hp, .inl ⟨hin, heq.symm⟩⟩
  · exact ⟨.waits, i, addr, p, hp, .inr ⟨hlt, hcount, hopen, heq.symm⟩⟩

end Machine

end Pipe

end Xv6fs
