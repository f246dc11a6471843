import Xv6fs.Fs.Discipline

/-! The references to inodes over whole runs: between two calls each inode has one reference for
each open entry of the file table that points to it, unless a rename has leaked one. -/

namespace Xv6fs

open Program (Runs Yields Follows yields_pure)

/-- The open entries of the file table that point to inode `x`. -/
def Fs.opened (s : Fs) (x : Nat) : Finset Nat :=
  (Finset.range NFILE).filter fun i => (s.files i).type ≠ .FD_NONE ∧ (s.files i).ip = x

/-- The cache holds exactly the inodes that open files point to, each with that many references. -/
def Fs.RefsBalance (s : Fs) : Prop := ∀ x, (s.inodes x).ref = (s.opened x).card

namespace Ledger

/-- The number of entries of the file table that are open and point to inode `x`. -/
def count (handles : Nat → Option Nat) (x : Nat) : Nat :=
  ((Finset.range NFILE).filter fun i => handles i = some x).card

/-- A change of one entry of the file table. -/
theorem count_setAt (handles : Nat → Option Nat) {i : Nat} (hi : i < NFILE) (v : Option Nat)
    (x : Nat) : count (setAt handles i v) x + (if handles i = some x then 1 else 0) =
      count handles x + if v = some x then 1 else 0 := by
  have hrest : ∑ j ∈ (Finset.range NFILE).erase i, (if setAt handles i v j = some x then 1 else 0) =
      ∑ j ∈ (Finset.range NFILE).erase i, if handles j = some x then 1 else 0 :=
    Finset.sum_congr rfl fun j hj => by rw [setAt_of_ne (Finset.ne_of_mem_erase hj)]
  simp only [count, Finset.card_filter]
  rw [← Finset.add_sum_erase _ _ (Finset.mem_range.mpr hi), hrest, setAt_self,
    ← Finset.add_sum_erase _ (fun j => if handles j = some x then 1 else 0)
      (Finset.mem_range.mpr hi)]
  omega

/-- The references are as the open entries of the file table have them. -/
structure Balanced (w : Ledger) : Prop where
  refs : ∀ x, w.refs x = count w.handles x
  single : ∀ i, w.handles i ≠ none → w.counts i = 1
  bound : ∀ i, w.handles i ≠ none → i < NFILE
  idle : w.Idle

variable {w w' : Ledger} {i : Nat}

theorem Balanced.opens (h : w.Balanced) {r : Option Nat} (hopen : Books.Opens w r w') :
    w'.Balanced := by
  cases r with
  | none =>
    rw [show w' = w from hopen]
    exact h
  | some i =>
    obtain ⟨⟨hi, hnone⟩, ip, rfl⟩ := hopen
    constructor
    · intro x
      have hcount := count_setAt w.handles hi (some ip) x
      have hx := h.refs x
      simp only [hnone, reduceCtorEq, if_false, Option.some.injEq] at hcount
      simp only [setEntry, get, setAt_apply]
      split
      · next hxip =>
        subst hxip
        rw [if_pos rfl] at hcount
        omega
      · next hxip =>
        rw [if_neg (Ne.symm hxip)] at hcount
        omega
    · intro j hj
      simp only [setEntry, setAt_apply] at hj ⊢
      split
      · rfl
      · next hji =>
        rw [if_neg hji] at hj
        exact h.single j hj
    · intro j hj
      simp only [setEntry, setAt_apply] at hj
      split at hj
      · next hji => rwa [hji]
      · exact h.bound j hj
    · exact h.idle

/-- The reference count of an entry that is not open is of no account. -/
theorem Balanced.setEntry_none (h : w.Balanced) (hnone : w.handles i = none) (count : Nat) :
    (w.setEntry i none count).Balanced := by
  have hsame : (w.setEntry i none count).handles = w.handles := by
    show setAt w.handles i none = w.handles
    rw [← hnone]
    exact setAt_same _
  constructor
  · intro x
    rw [hsame]
    exact h.refs x
  · intro j hj
    rw [hsame] at hj
    have hji : j ≠ i := by
      rintro rfl
      exact hj hnone
    exact (setAt_of_ne hji).trans (h.single j hj)
  · intro j hj
    rw [hsame] at hj
    exact h.bound j hj
  · exact h.idle

theorem Balanced.settles (h : w.Balanced) (hsettles : Books.Settles w w') : w'.Balanced := by
  rcases hsettles with rfl | ⟨i, hnone, rfl⟩
  · exact h
  · exact h.setEntry_none hnone 0

theorem Balanced.close (h : w.Balanced) (hclose : 1 ≤ w.counts i ∧
    (1 < w.counts i → w' = w.setEntry i (w.handles i) (w.counts i - 1)) ∧
      (w.counts i = 1 → ∃ ip, w.handles i = some ip ∧ w' = (w.setEntry i none 0).put ip)) :
    w'.Balanced := by
  obtain ⟨hcount, hmore, hlast⟩ := hclose
  rcases Nat.lt_or_eq_of_le hcount with hlt | heq
  · -- an entry that is referenced more than once is not open
    have hnone : w.handles i = none := by
      by_contra hne
      have := h.single i hne
      omega
    rw [hmore hlt, hnone]
    exact h.setEntry_none hnone _
  · obtain ⟨ip, hip, rfl⟩ := hlast heq.symm
    have hi : i < NFILE := h.bound i (by rw [hip]; simp)
    constructor
    · intro x
      have hset := count_setAt w.handles hi none x
      have hx := h.refs x
      simp only [hip, reduceCtorEq, if_false, Option.some.injEq] at hset
      simp only [setEntry, put, setAt_apply]
      split
      · next hxip =>
        subst hxip
        rw [if_pos rfl] at hset
        omega
      · next hxip =>
        rw [if_neg (Ne.symm hxip)] at hset
        omega
    · intro j hj
      simp only [setEntry, put, setAt_apply] at hj ⊢
      split
      · next hji => simp [hji] at hj
      · next hji =>
        rw [if_neg hji] at hj
        exact h.single j hj
    · intro j hj
      simp only [setEntry, put, setAt_apply] at hj
      split at hj
      · exact absurd rfl hj
      · exact h.bound j hj
    · exact h.idle

/-- The lock discipline plays no part. -/
theorem Balanced.breach (h : w.Balanced) (refused : Bool) : (w.breach refused).Balanced := by
  cases refused
  · exact ⟨h.refs, h.single, h.bound, .inr rfl⟩
  · exact h

end Ledger

variable {sb : SuperBlock} {s : Fs} {w : Ledger}

theorem Ledger.Balanced.refsBalance (h : s.ledger.Balanced) : s.RefsBalance := by
  intro x
  refine (h.refs x).trans (congrArg Finset.card (Finset.filter_congr fun i _ => ?_))
  simp only [Fs.ledger, OFile.handle]
  split
  · next hnone => simp [hnone]
  · next hopen => simp [hopen]

theorem Ledger.Balanced.boot (d : Disk) : (Fs.boot d).ledger.Balanced := by
  constructor
  · intro x
    exact (Finset.card_eq_zero.mpr (Finset.filter_false_of_mem fun i _ => by
      simp [Fs.ledger, Fs.boot, OFile.none, OFile.handle])).symm
  · intro i hi
    exact absurd rfl hi
  · intro i hi
    exact absurd rfl hi
  · exact .inl rfl

variable (sb) in
/-- Whether a call returns with a reference. -/
def Call.leaks : Call → Prog Bool
  | .rename source dest => rename_leaks sb source dest
  | _ => pure false

/-- A reference that no entry of the file table accounts for. -/
theorem Ledger.Balanced.leak (h : w.Balanced) {x : Nat} (hw : s.ledger = w.get x) :
    ¬s.RefsBalance := by
  intro hbalance
  have hcount : (s.opened x).card = count w.handles x := by
    have hhandles : s.ledger.handles = w.handles := by rw [hw]; rfl
    rw [← hhandles]
    refine congrArg Finset.card (Finset.filter_congr fun i _ => ?_)
    simp only [Fs.ledger, OFile.handle]
    split
    · next hnone => simp [hnone]
    · next hopen => simp [hopen]
  have hrefs : (s.inodes x).ref = w.refs x + 1 :=
    (congrFun (congrArg Ledger.refs hw) x).trans setAt_self
  have := hbalance x
  have := h.refs x
  omega

/-- A call keeps the balance exactly if it does not leak. -/
theorem Call.run_balanced (call : Call) (h : s.ledger.Balanced) :
    Runs (call.run sb) s (fun _ s' => ∃ leaks, Yields (call.leaks sb) s leaks ∧
      (leaks = false → s'.ledger.Balanced) ∧ (leaks = true → ¬s'.RefsBalance)) fun _ => True := by
  have hkeeps : ∀ {α : Type} {m : Prog α} {f : α → Reply} {P : α → Ledger → Prop},
      Yields (call.leaks sb) s false → Books m s.ledger P →
      (∀ a w', P a w' → w'.Balanced) → Runs (f <$> m) s (fun _ s' => ∃ leaks,
        Yields (call.leaks sb) s leaks ∧ (leaks = false → s'.ledger.Balanced) ∧
          (leaks = true → ¬s'.RefsBalance)) fun _ => True :=
    fun hno hm hP => Program.runs_map.mpr ((hm s rfl).imp fun a s' ha =>
      ⟨false, hno, fun _ => hP a _ ha, by simp⟩)
  have hsame : ∀ {w' : Ledger}, w' = s.ledger → w'.Balanced := fun hw => hw ▸ h
  have hno : Yields (pure false : Prog Bool) s false := yields_pure.mpr rfl
  cases call with
  | create path mode => exact hkeeps hno (Books.op_create _ _) fun _ _ ho => h.opens ho
  | mkdir path => exact hkeeps hno (Books.op_mkdir _) fun _ _ => hsame
  | «open» path flags => exact hkeeps hno (Books.op_open _ _) fun _ _ ho => h.opens ho
  | read fh buf size offset => exact hkeeps hno (Books.op_read _ _ _) fun _ _ => hsame
  | write fh buf size offset => exact hkeeps hno (Books.op_write _ _ _) fun _ _ => hsame
  | truncate path length => exact hkeeps hno (Books.op_truncate _ _) fun _ _ hs => h.settles hs
  | getattr path => exact hkeeps hno (Books.op_getattr _) fun _ _ hs => h.settles hs
  | readdir fh full offset => exact hkeeps hno (Books.op_readdir _ _) fun _ _ => hsame
  | flush => exact hkeeps hno Books.op_flush fun _ _ => hsame
  | release fh =>
    have hrelease : Books (op_release sb fh) s.ledger fun _ w' => w'.Balanced :=
      (Books.ofile_close fh).bind fun _ _ hc => .pure (h.close hc)
    exact hkeeps hno hrelease fun _ _ hw => hw
  | link source dest =>
    refine Program.runs_map.mpr ((Books.op_link source dest h.idle).imp fun _ s' hs' => ?_)
    obtain ⟨refused, -, hw⟩ := hs'
    exact ⟨false, hno, fun _ => hw ▸ h.breach refused, by simp⟩
  | unlink path =>
    refine Program.runs_map.mpr ((Books.op_unlink path h.idle).imp fun _ s' hs' => ?_)
    obtain ⟨refused, -, hw⟩ := hs'
    exact ⟨false, hno, fun _ => hw ▸ h.breach refused, by simp⟩
  | rename source dest =>
    refine Program.runs_map.mpr ((Books.op_rename source dest h.idle).imp fun _ s' hs' => ?_)
    obtain ⟨refused, leaks, x, -, hleaks, hw⟩ := hs'
    refine ⟨leaks, hleaks, ?_, ?_⟩
    · rintro rfl
      exact hw ▸ h.breach refused
    · rintro rfl
      exact (h.breach refused).leak hw

/-- Nothing leaks between the start of the process and a state that calls without leaks reach. -/
theorem reach_balanced {ok : Fs → Call → Prop}
    (hok : ∀ s call, ok s call → ¬Yields (call.leaks sb) s true)
    (h : Transition.Reach (fun s => ∃ d, s = Fs.boot d) (Call.step sb) ok s) :
    s.ledger.Balanced := by
  refine h.invariant (fun s => s.ledger.Balanced) ?_ ?_
  · rintro s ⟨d, rfl⟩
    exact .boot d
  · intro s call s' hs hcall hstep
    obtain ⟨r, hr⟩ := Call.step_eq_some.mp hstep
    obtain ⟨leaks, hleaks, hkeeps, -⟩ := (call.run_balanced hs).of_ok hr
    cases leaks
    · exact hkeeps rfl
    · exact absurd hleaks (hok _ _ hcall)

end Xv6fs
