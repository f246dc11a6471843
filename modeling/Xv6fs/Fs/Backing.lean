import Xv6fs.Fs.References

/-! Every open entry of the file table has a reference to its inode, whatever the calls: a rename
that leaks a reference leaves one too many, never one too few. -/

namespace Xv6fs

open Program (Runs)

variable {sb : SuperBlock} {s s' : Fs} {w w' : Ledger} {more : Nat → Nat} {i x : Nat}

namespace Ledger

/-- A ledger with more references. -/
def plus (w : Ledger) (more : Nat → Nat) : Ledger := { w with refs := fun x => w.refs x + more x }

/-- Nothing but references is left over. -/
def Backed (w : Ledger) : Prop := ∃ w0 more, Balanced w0 ∧ w = w0.plus more

theorem plus_get : (w.plus more).get x = (w.get x).plus more := by
  refine Ledger.ext (funext fun y => ?_) rfl rfl rfl
  simp only [plus, get, setAt_apply]
  split
  · next heq =>
    rw [heq]
    omega
  · rfl

theorem plus_put (h : 0 < w.refs x) : (w.plus more).put x = (w.put x).plus more := by
  refine Ledger.ext (funext fun y => ?_) rfl rfl rfl
  simp only [plus, put, setAt_apply]
  split
  · next heq =>
    rw [heq]
    omega
  · rfl

/-- An entry that is open has a reference. -/
theorem Balanced.refs_pos (h : w.Balanced) (hi : w.handles i = some x) : 0 < w.refs x := by
  rw [h.refs]
  refine Finset.card_pos.mpr ⟨i, Finset.mem_filter.mpr ⟨?_, hi⟩⟩
  exact Finset.mem_range.mpr (h.bound i (by rw [hi]; exact nofun))

namespace Backed

theorem idle (h : w.Backed) : w.Idle := by
  obtain ⟨w0, more, h0, rfl⟩ := h
  exact h0.idle

theorem single (h : w.Backed) (hi : w.handles i ≠ none) : w.counts i = 1 := by
  obtain ⟨w0, more, h0, rfl⟩ := h
  exact h0.single i hi

theorem opens (h : w.Backed) {r : Option Nat} (hopen : Books.Opens w r w') : w'.Backed := by
  obtain ⟨w0, more, h0, rfl⟩ := h
  cases r with
  | none => exact ⟨w0, more, h0, hopen⟩
  | some i =>
    obtain ⟨hi, ip, rfl⟩ := hopen
    refine ⟨(w0.get ip).setEntry i (some ip) 1, more, h0.opens (r := some i) ⟨hi, ip, rfl⟩, ?_⟩
    rw [plus_get]
    rfl

theorem settles (h : w.Backed) (hsettles : Books.Settles w w') : w'.Backed := by
  obtain ⟨w0, more, h0, rfl⟩ := h
  rcases hsettles with rfl | ⟨i, hnone, rfl⟩
  · exact ⟨w0, more, h0, rfl⟩
  · exact ⟨w0.setEntry i none 0, more, h0.setEntry_none hnone 0, rfl⟩

theorem close (h : w.Backed) (hclose : 1 ≤ w.counts i ∧
    (1 < w.counts i → w' = w.setEntry i (w.handles i) (w.counts i - 1)) ∧
      (w.counts i = 1 → ∃ ip, w.handles i = some ip ∧ w' = (w.setEntry i none 0).put ip)) :
    w'.Backed := by
  obtain ⟨w0, more, h0, rfl⟩ := h
  obtain ⟨hcount, hmore, hlast⟩ := hclose
  rcases Nat.lt_or_eq_of_le hcount with hlt | heq
  · refine ⟨w0.setEntry i (w0.handles i) (w0.counts i - 1), more, h0.close ⟨hcount, fun _ => rfl, ?_⟩,
      hmore hlt⟩
    exact fun h1 => absurd (h1 ▸ hlt : 1 < 1) (Nat.lt_irrefl 1)
  · obtain ⟨ip, hip, rfl⟩ := hlast heq.symm
    refine ⟨(w0.setEntry i none 0).put ip, more, h0.close ⟨hcount, ?_, fun _ => ⟨ip, hip, rfl⟩⟩, ?_⟩
    · exact fun h1 => absurd (heq ▸ h1 : 1 < 1) (Nat.lt_irrefl 1)
    · exact plus_put (w := w0.setEntry i none 0) (h0.refs_pos hip)

theorem breach (h : w.Backed) (refused : Bool) : (w.breach refused).Backed := by
  obtain ⟨w0, more, h0, rfl⟩ := h
  cases refused
  · exact ⟨w0.broken, more, h0.breach false, rfl⟩
  · exact ⟨w0, more, h0, rfl⟩

/-- A reference that no entry of the file table accounts for. -/
theorem leak (h : w.Backed) (x : Nat) : (w.get x).Backed := by
  obtain ⟨w0, more, h0, rfl⟩ := h
  refine ⟨w0, setAt more x (more x + 1), h0, ?_⟩
  refine Ledger.ext (funext fun y => ?_) rfl rfl rfl
  simp only [plus, get, setAt_apply]
  split
  · next heq =>
    rw [heq]
    omega
  · rfl

theorem count_le (h : w.Backed) (x : Nat) : count w.handles x ≤ w.refs x := by
  obtain ⟨w0, more, h0, rfl⟩ := h
  show count w0.handles x ≤ w0.refs x + more x
  rw [h0.refs]
  exact Nat.le_add_right _ _

theorem refs_pos (h : w.Backed) (hi : w.handles i = some x) : 0 < w.refs x := by
  obtain ⟨w0, more, h0, rfl⟩ := h
  exact Nat.lt_of_lt_of_le (h0.refs_pos hi) (Nat.le_add_right _ _)

end Backed

end Ledger

/-- Every call keeps the references of the open entries. -/
theorem Call.run_backed (call : Call) (h : s.ledger.Backed) :
    Runs (call.run sb) s (fun _ s' => s'.ledger.Backed) fun _ => True := by
  have hkeeps : ∀ {α : Type} {m : Prog α} {f : α → Reply} {P : α → Ledger → Prop},
      Books m s.ledger P → (∀ a w', P a w' → w'.Backed) →
        Runs (f <$> m) s (fun _ s' => s'.ledger.Backed) fun _ => True :=
    fun hm hP => Program.runs_map.mpr ((hm s rfl).imp fun a s' ha => hP a _ ha)
  have hsame : ∀ {w' : Ledger}, w' = s.ledger → w'.Backed := fun hw => hw ▸ h
  cases call with
  | create path mode => exact hkeeps (Books.op_create _ _) fun _ _ ho => h.opens ho
  | mkdir path => exact hkeeps (Books.op_mkdir _) fun _ _ => hsame
  | «open» path flags => exact hkeeps (Books.op_open _ _) fun _ _ ho => h.opens ho
  | read fh buf size offset => exact hkeeps (Books.op_read _ _ _) fun _ _ => hsame
  | write fh buf size offset => exact hkeeps (Books.op_write _ _ _) fun _ _ => hsame
  | truncate path length => exact hkeeps (Books.op_truncate _ _) fun _ _ hs => h.settles hs
  | getattr path => exact hkeeps (Books.op_getattr _) fun _ _ hs => h.settles hs
  | readdir fh full offset => exact hkeeps (Books.op_readdir _ _) fun _ _ => hsame
  | flush => exact hkeeps Books.op_flush fun _ _ => hsame
  | release fh =>
    have hrelease : Books (op_release sb fh) s.ledger fun _ w' => w'.Backed :=
      (Books.ofile_close fh).bind fun _ _ hc => .pure (h.close hc)
    exact hkeeps hrelease fun _ _ hw => hw
  | link source dest =>
    refine Program.runs_map.mpr ((Books.op_link source dest h.idle).imp ?_)
    rintro _ s' ⟨refused, -, hw⟩
    exact hw ▸ h.breach refused
  | unlink path =>
    refine Program.runs_map.mpr ((Books.op_unlink path h.idle).imp ?_)
    rintro _ s' ⟨refused, -, hw⟩
    exact hw ▸ h.breach refused
  | rename source dest =>
    refine Program.runs_map.mpr ((Books.op_rename source dest h.idle).imp ?_)
    rintro _ s' ⟨refused, leaks, x, -, -, hw⟩
    cases leaks
    · exact hw ▸ h.breach refused
    · exact hw ▸ (h.breach refused).leak x

theorem Call.step_backed {call : Call} (h : s.ledger.Backed) (hstep : call.step sb s = some s') :
    s'.ledger.Backed := by
  obtain ⟨r, hr⟩ := Call.step_eq_some.mp hstep
  exact (call.run_backed h).of_ok hr

theorem Ledger.Backed.boot (d : Disk) : (Fs.boot d).ledger.Backed := by
  refine ⟨_, fun _ => 0, .boot d, ?_⟩
  rfl

end Xv6fs
