import Xv6fs.Files.Offset

/-! What `op_read` tells its caller.  It returns the size that it has been asked for, and not the
count of the bytes that it has placed in the buffer, so a read past the end of the file reports bytes
that are not there. -/

namespace Xv6fs

open Program (Runs runs_bind runs_pure runs_get)
open SharedRead (Request Open Same seek_same read_same)

variable (sb : SuperBlock) (fh : Nat)

/-- The size of the file that the handle is open on. -/
def Fs.file_size (s : Fs) : Nat := (s.inodes (s.files fh).ip).dinode.size.toNat

/-- A read of `size` bytes at `offset` reports what it read: it returns the number of the bytes that
are there, and these are in the buffer, which is as it was past them. -/
structure Reported (s : Fs) (buf : Bytes.Source) (size offset : Nat) (r : Int × Bytes.Source) :
    Prop where
  count : r.1 = min size (s.file_size fh - offset)
  bytes : ∀ i, r.2 i = if i < min size (s.file_size fh - offset)
    then s.byte (s.files fh).ip (offset + i) else buf i

/-- A caller that reads from `offset` on, each time from where the count of the last call has brought
it, until a call returns `0`.  Call `k` asks for `size k` bytes into `buf k`.  It delivers the bytes
of `got` and those that the calls report, and nothing when a call fails or `fuel` runs out. -/
def read_through (size : Nat → Nat) (buf : Nat → Bytes.Source) :
    (fuel k offset : Nat) → List UInt8 → Prog (Option (List UInt8))
  | 0, _, _, _ => pure none
  | fuel + 1, k, offset, got => do
    let r ← op_read sb fh (buf k) (size k) offset
    if r.1 = 0 then pure (some got)
    else if r.1 < 0 then pure none
    else
      read_through size buf fuel (k + 1) (offset + r.1.toNat)
        (got ++ Bytes.Source.list r.2 r.1.toNat)

/-- The sizes from the one of call `k` on, modulo `2 ^ 32`, add up to `left` before one that is
`0`. -/
inductive Exhausts (size : Nat → Nat) : (k left : Nat) → Prop
  | stop (h : size k % 2 ^ 32 = 0) : Exhausts size k 0
  | step (h : size k % 2 ^ 32 ≠ 0) (hrest : Exhausts size (k + 1) left) :
      Exhausts size k (size k % 2 ^ 32 + left)

variable {sb fh} {s s0 : Fs} {buf : Bytes.Source} {size offset : Nat}

theorem to_int_mod (n : Nat) : to_int n % 2 ^ 32 = ((n % 2 ^ 32 : Nat) : Int) := by
  have h := Int.bmod_def n (2 ^ 32)
  unfold to_int
  omega

theorem to_int_lt (n : Nat) : to_int n < 2 ^ 32 := by
  have h := Int.bmod_lt (x := n) (m := 2 ^ 32) (by decide)
  unfold to_int
  omega

theorem to_int_of_lt {n : Nat} (h : n % 2 ^ 32 < 2 ^ 31) : to_int n = ((n % 2 ^ 32 : Nat) : Int) := by
  have hdef := Int.bmod_def n (2 ^ 32)
  unfold to_int
  omega

theorem request_count :
    (⟨offset, size, buf⟩ : Request).count fh s = min (size % 2 ^ 32) (s.file_size fh - offset) :=
  rfl

theorem op_read_runs (h : Open fh s) (hoff : offset ≤ s.file_size fh) :
    Runs (op_read sb fh buf size offset) s (fun r s' => Same fh s s' ∧ r.1 = to_int size ∧
      (⟨offset, size, buf⟩ : Request).Served fh s r.2) fun _ => False := by
  rw [op_read_eq]
  refine Runs.bind (seek_same fh offset) ?_
  rintro r s1 ⟨hsame, htrue, hfalse⟩
  cases r with
  | false => exact absurd (hfalse rfl) (Nat.not_lt.mpr hoff)
  | true =>
    refine Runs.bind (read_same sb (hsame.opened h) buf size) ?_
    rintro ⟨r, buf'⟩ s2 ⟨hsame2, hserved⟩
    simp only [runs_pure]
    refine ⟨hsame.trans hsame2, trivial, fun i => ?_⟩
    have hi := hserved i
    have hip : (s1.files fh).ip = (s.files fh).ip := by rw [hsame.handle]
    simp only [Request.count, hsame.inodes, hsame.byte, hip, htrue rfl] at hi ⊢
    exact hi

theorem op_read_past (hoff : s.file_size fh < offset) :
    Runs (op_read sb fh buf size offset) s (fun r _ => r = (0, buf)) fun _ => False := by
  simp only [op_read, runs_bind, runs_get]
  split
  · exact rfl
  · next hle => exact absurd hoff hle

theorem SharedRead.Same.file_size {s' : Fs} (h : Same fh s s') : s'.file_size fh = s.file_size fh := by
  rw [Fs.file_size, Fs.file_size, h.inodes, h.handle]

/-- A read reports what it read when it does not ask for more than is left, or for as much modulo
`2 ^ 32`. -/
theorem op_read_reported_iff (h : Open fh s) (hoff : offset ≤ s.file_size fh) :
    Runs (op_read sb fh buf size offset) s (fun r _ => Reported fh s buf size offset r)
        (fun _ => False) ↔
      size ≤ s.file_size fh - offset ∨ size % 2 ^ 32 = s.file_size fh - offset := by
  have hmax : s.file_size fh ≤ MAX_SIZE := h.solid.size_le
  have hmod := to_int_mod size
  simp only [MAX_SIZE, MAX_FILE, NINDIRECT, NDIRECT, BSIZE] at hmax
  constructor
  · intro hr
    obtain ⟨r, s', hrun, hrep⟩ := hr.returns
    have hspec := (op_read_runs h hoff).of_ok hrun
    have hcount := hrep.count
    rw [hspec.2.1] at hcount
    omega
  · intro hsize
    refine (op_read_runs h hoff).imp ?_
    rintro r s' ⟨_, hr, hserved⟩
    refine ⟨?_, fun i => ?_⟩
    · rw [hr, to_int_of_lt (by omega)]
      omega
    · have hi := hserved i
      rwa [request_count, show min (size % 2 ^ 32) (s.file_size fh - offset) =
        min size (s.file_size fh - offset) by omega] at hi

/-- The bytes that a read delivers, when it gets as many. -/
theorem served_list {r : Nat} (hr : r ≤ min (size % 2 ^ 32) (s.file_size fh - offset))
    {b : Bytes.Source} (h : (⟨offset, size, buf⟩ : Request).Served fh s b) :
    Bytes.Source.list b r =
      ((content s.blocks (s.inodes (s.files fh).ip).dinode).drop offset).take r := by
  have hsize : s.file_size fh = (s.inodes (s.files fh).ip).dinode.size.toNat := rfl
  apply List.ext_getElem
  · simp only [Bytes.Source.list, content, List.length_map, List.length_range, List.length_take,
      List.length_drop]
    omega
  · intro i h1 h2
    simp only [Bytes.Source.list, List.length_map, List.length_range] at h1
    have hi := h i
    rw [request_count, if_pos (Nat.lt_of_lt_of_le h1 hr)] at hi
    simp [Bytes.Source.list, content, hi]
    rfl

/-- The bytes of the file that the handle is open on. -/
def Fs.file_bytes (fh : Nat) (s : Fs) : List UInt8 :=
  content s.blocks (s.inodes (s.files fh).ip).dinode

theorem length_file_bytes : (s.file_bytes fh).length = s.file_size fh := by
  simp [Fs.file_bytes, content, Fs.file_size]

theorem SharedRead.Same.file_bytes {s' : Fs} (h : Same fh s s') : s'.file_bytes fh = s.file_bytes fh := by
  rw [Fs.file_bytes, Fs.file_bytes, h.inodes, h.handle, h.blocks]

theorem read_through_exhausts {size : Nat → Nat} {bufs : Nat → Bytes.Source} {c : List UInt8}
    (hopen : Open fh s) (hc : c.length = s.file_size fh) (fuel k offset : Nat) (got : List UInt8)
    (hsame : Same fh s s0) (hgot : got.length = offset)
    (h : Runs (read_through sb fh size bufs fuel k offset got) s0 (fun r _ => r = some c)
      fun _ => False) :
    offset ≤ s.file_size fh ∧ Exhausts size k (s.file_size fh - offset) := by
  induction fuel generalizing k offset got s0 with
  | zero =>
    obtain ⟨r, s', hrun, rfl⟩ := h.returns
    cases hrun
  | succ fuel ih =>
    have hsize := hsame.file_size
    rw [read_through, runs_bind] at h
    obtain hoff | hoff := Nat.lt_or_ge (s.file_size fh) offset
    · have hpast : Runs (op_read sb fh (bufs k) (size k) offset) s0 _ _ :=
        op_read_past (hsize ▸ hoff)
      obtain ⟨r, s1, hrun, rfl⟩ := hpast.returns
      have h1 := h.of_ok hrun
      rw [if_pos rfl, runs_pure] at h1
      cases h1
      omega
    · obtain ⟨r, s1, hrun, hsame1, hr, -⟩ :=
        Runs.returns (m := op_read sb fh (bufs k) (size k) offset)
          (op_read_runs (hsame.opened hopen) (hsize ▸ hoff))
      have h1 := h.of_ok hrun
      have hmod := to_int_mod (size k)
      rw [← hr] at hmod
      by_cases hzero : r.1 = 0
      · rw [if_pos hzero, runs_pure] at h1
        cases h1
        refine ⟨hoff, ?_⟩
        rw [show s.file_size fh - offset = 0 by omega]
        exact .stop (by omega)
      · rw [if_neg hzero] at h1
        split at h1
        · cases h1
        · next hneg =>
          have hlt := to_int_lt (size k)
          rw [← hr] at hlt
          obtain ⟨hle, hrest⟩ := ih (k + 1) (offset + r.1.toNat) _ (hsame.trans hsame1)
            (by simp [Bytes.Source.list, hgot]) h1
          refine ⟨hoff, ?_⟩
          rw [show s.file_size fh - offset =
            size k % 2 ^ 32 + (s.file_size fh - (offset + r.1.toNat)) by omega]
          exact .step (by omega) hrest

theorem exhausts_read_through {size : Nat → Nat} {bufs : Nat → Bytes.Source} (hopen : Open fh s)
    {k left : Nat} (h : Exhausts size k left) (offset : Nat) (hsame : Same fh s s0)
    (hoff : offset + left = s.file_size fh) :
    ∃ fuel, Runs (read_through sb fh size bufs fuel k offset ((s.file_bytes fh).take offset)) s0
      (fun r _ => r = some (s.file_bytes fh)) fun _ => False := by
  induction h generalizing offset s0 with
  | @stop k hzero =>
    have hrun : Runs (op_read sb fh (bufs k) (size k) offset) s0 _ _ :=
      op_read_runs (hsame.opened hopen) (by rw [hsame.file_size]; omega)
    refine ⟨1, ?_⟩
    rw [read_through]
    refine hrun.bind ?_
    rintro r s1 ⟨-, hr, -⟩
    rw [to_int_of_lt (by omega), hzero] at hr
    rw [if_pos (by omega), runs_pure, List.take_of_length_le (by rw [length_file_bytes]; omega)]
  | @step k left hne hrest ih =>
    have hmax : s.file_size fh ≤ MAX_SIZE := hopen.solid.size_le
    simp only [MAX_SIZE, MAX_FILE, NINDIRECT, NDIRECT, BSIZE] at hmax
    have hrun : Runs (op_read sb fh (bufs k) (size k) offset) s0 _ _ :=
      op_read_runs (hsame.opened hopen) (by rw [hsame.file_size]; omega)
    obtain ⟨r, s1, hok, hsame1, hr, hserved⟩ := hrun.returns
    obtain ⟨fuel, hfuel⟩ := ih (offset + size k % 2 ^ 32) (hsame.trans hsame1) (by omega)
    rw [to_int_of_lt (by omega)] at hr
    have hlist := served_list (r := size k % 2 ^ 32)
      (by rw [hsame.file_size]; omega) hserved
    refine ⟨fuel + 1, ?_⟩
    rw [read_through, runs_bind]
    refine Runs.intro hok ?_
    rw [if_neg (by omega), if_neg (by omega), hr, Int.toNat_natCast, hlist]
    have hbytes := hsame.file_bytes
    rw [Fs.file_bytes] at hbytes
    rw [hbytes, ← List.take_add]
    exact hfuel

/-- Exactly when a read reports what it read, and when the bytes that the reads of a sequence report
are those of the file, with a last call that returns `0`. -/
theorem op_read_reports (h : Open fh s) :
    (∀ buf size offset, offset ≤ s.file_size fh →
      (Runs (op_read sb fh buf size offset) s (fun r _ => Reported fh s buf size offset r)
          (fun _ => False) ↔
        size ≤ s.file_size fh - offset ∨ size % 2 ^ 32 = s.file_size fh - offset)) ∧
    ∀ size buf,
      (∃ fuel, Runs (read_through sb fh size buf fuel 0 0 []) s
          (fun r _ => r = some (s.file_bytes fh)) fun _ => False) ↔
        Exhausts size 0 (s.file_size fh) := by
  constructor
  · intro buf size offset hoff
    exact op_read_reported_iff h hoff
  · intro size buf
    constructor
    · rintro ⟨fuel, hfuel⟩
      exact (read_through_exhausts h length_file_bytes fuel 0 0 [] .refl rfl hfuel).2
    · intro hex
      exact exhausts_read_through h hex 0 .refl (Nat.zero_add _)

/-- A file of three bytes, of which two are read. -/
theorem op_read_reports_two :
    Runs (op_read smallSb 0 (fun _ => 0) 2 0) SharedRead.abcFs
      (fun r _ => Reported 0 SharedRead.abcFs (fun _ => 0) 2 0 r) fun _ => False :=
  ((op_read_reports SharedRead.abcFs_open).1 _ 2 0 (Nat.zero_le _)).mpr (.inl (by decide))

/-- A read of ten bytes of a file of three returns ten, and a caller that asks for two bytes at a
time never gets a file of three. -/
theorem op_read_reports_fails :
    Open 0 SharedRead.abcFs ∧ SharedRead.abcFs.file_size 0 = 3 ∧
    ¬Runs (op_read smallSb 0 (fun _ => 0) 10 0) SharedRead.abcFs
      (fun r _ => Reported 0 SharedRead.abcFs (fun _ => 0) 10 0 r) (fun _ => False) ∧
    ¬∃ fuel, Runs (read_through smallSb 0 (fun _ => 2) (fun _ _ => 0) fuel 0 0 []) SharedRead.abcFs
      (fun r _ => r = some (SharedRead.abcFs.file_bytes 0)) fun _ => False := by
  have hsize : SharedRead.abcFs.file_size 0 = 3 := rfl
  refine ⟨SharedRead.abcFs_open, hsize, fun hr => ?_, ?_⟩
  · have := (op_read_reported_iff SharedRead.abcFs_open (Nat.zero_le _)).mp hr
    rw [hsize] at this
    omega
  · rintro ⟨fuel, hfuel⟩
    have hex := (read_through_exhausts SharedRead.abcFs_open length_file_bytes fuel 0 0 [] .refl rfl
      hfuel).2
    rw [hsize] at hex
    have hnever : ∀ {k left}, Exhausts (fun _ => 2) k left → False := fun h => by
      induction h with
      | stop h => cases h
      | step _ _ ih => exact ih
    exact hnever hex

end Xv6fs
