import Xv6fs.Files.Outside
import Xv6fs.Fs.Access
import Xv6fs.Fs.Check

/-! Runs of calls, one after another, from any image in order: what is on disk and in memory stays
in order, and every transaction keeps within the budget. -/

namespace Xv6fs

open Program (Runs runs_map runs_imp)

variable {sb : SuperBlock} {s s' s1 s2 : Fs} {x i : Nat} {a a' : AbsFs}
  {path source dest : List UInt8}

/-! ### Transactions that are over -/

theorem Entry.outstanding {ip flags : Nat} {r : Option Nat} (h : Entry a ip flags r a') :
    a'.outstanding = a.outstanding := by
  cases h with
  | full => exact AbsFs.put_outstanding _ _
  | opened =>
    show (a.truncated ip flags).outstanding = a.outstanding
    unfold AbsFs.truncated
    split <;> rfl

theorem OpensOld.outstanding {flags : Nat} {r : Option Nat} (h : OpensOld a path flags r a') :
    a'.outstanding = a.outstanding := by
  cases h with
  | missing hd _ => exact hd.outstanding
  | found _ hd _ _ he => exact he.outstanding.trans hd.outstanding

theorem OpensNew.outstanding {flags : Nat} {r : Option Nat} (h : OpensNew sb a path flags r a') :
    a'.outstanding = a.outstanding := by
  cases h with
  | refused hc => exact hc.frame.2
  | created hc he => exact he.outstanding.trans hc.frame.2

theorem Opens.outstanding {flags : Nat} {r : Option Nat} (h : Opens sb a path flags r a') :
    a'.outstanding = a.outstanding := by
  unfold Opens at h
  split at h
  · exact OpensNew.outstanding h
  · exact OpensOld.outstanding h

theorem Closed.outstanding (h : Closed a i a') : a'.outstanding = a.outstanding := by
  cases h with
  | shared => rfl
  | last => exact AbsFs.put_outstanding _ _

theorem Links.outstanding {r : Int} (h : Links sb a source dest r a') :
    a'.outstanding = a.outstanding := by
  cases h with
  | refused h _ => exact h.outstanding
  | no_parent _ h _ _ _ h1 =>
    rw [AbsFs.rollBack_outstanding]
    exact h1.outstanding.trans h.outstanding
  | @tried _ _ a2 ip dp _ b _ h _ _ _ h1 _ hlinked =>
    have h2 : a2.outstanding = a.outstanding :=
      hlinked.outstanding.trans (h1.outstanding.trans h.outstanding)
    cases b with
    | true => exact (AbsFs.put_outstanding _ _).trans ((AbsFs.put_outstanding _ _).trans h2)
    | false => exact (AbsFs.rollBack_outstanding _ _).trans ((AbsFs.put_outstanding _ _).trans h2)

theorem Unlinks.outstanding {r : Int} (h : Unlinks a path r a') :
    a'.outstanding = a.outstanding := by
  cases h with
  | refused h _ => exact h.outstanding
  | removed _ h _ _ =>
    rw [← h.outstanding]
    unfold AbsFs.unlink
    simp only [AbsFs.put_outstanding, AbsFs.setLinks_outstanding]
    split <;> rfl

theorem Renames.outstanding {r : Int} (h : Renames a source dest r a') :
    a'.outstanding = a.outstanding := by
  cases h with
  | no_parent h _ => exact h.outstanding
  | unread _ h _ => exact h.outstanding
  | missing _ h _ => exact h.outstanding
  | renamed _ _ h _ =>
    rw [← h.outstanding, AbsFs.rename, AbsFs.put_outstanding, AbsFs.put_outstanding,
      AbsFs.setEntry_outstanding]

theorem Moves.outstanding {r : Int} (h : Moves sb a source dest r a') :
    a'.outstanding = a.outstanding := by
  cases h with
  | no_source h _ => exact h.outstanding
  | unread_source _ h _ => exact h.outstanding
  | no_dest _ h _ => exact h.outstanding
  | unread_dest _ _ _ _ h => exact h.outstanding
  | missing _ _ h _ => exact h.outstanding
  | not_linked _ _ _ h _ _ hlinked =>
    simp only [AbsFs.put_outstanding]
    exact hlinked.outstanding.trans h.outstanding
  | moved _ _ _ h _ _ hlinked =>
    simp only [AbsFs.put_outstanding, AbsFs.moveLast, AbsFs.setEntry_outstanding]
    exact hlinked.outstanding.trans h.outstanding

theorem AbsFs.resize_outstanding (a : AbsFs) (x size : Nat) :
    (a.resize x size).outstanding = a.outstanding := rfl

theorem Visits.outstanding {flags : Nat} (h : Visits a path flags a') :
    a'.outstanding = a.outstanding := by
  cases h with
  | missing h =>
    show _ - 1 = _
    rw [h.outstanding]
    exact Nat.add_sub_cancel _ 1
  | visited h hclose =>
    rw [hclose.outstanding]
    show _ - 1 = _
    rw [h.outstanding]
    exact Nat.add_sub_cancel _ 1

theorem Truncates.outstanding {length : Nat} {r : Int} (h : Truncates a path length r a') :
    a'.outstanding = a.outstanding := by
  cases h with
  | missing h =>
    show _ - 1 = _
    rw [h.outstanding]
    exact Nat.add_sub_cancel _ 1
  | resized h hclose =>
    rw [hclose.outstanding, AbsFs.resize_outstanding]
    show _ - 1 = _
    rw [h.outstanding]
    exact Nat.add_sub_cancel _ 1

/-- After an operation of one transaction none is in progress, if none was. -/
theorem Transacts.outstanding {α : Type} {Q : AbsFs → α → AbsFs → Prop} {r : α}
    (h : Transacts sb Q s r s') (hQ : ∀ {a r a'}, Q a r a' → a'.outstanding = a.outstanding) :
    s'.outstanding = s.outstanding := by
  obtain ⟨⟨a', hq, habs⟩, -⟩ := h
  rw [outstanding_of_abs habs]
  show a'.outstanding - 1 = s.outstanding
  rw [hQ hq]
  exact Nat.add_sub_cancel _ 1

/-! ### One call -/

/-- What the kernel promises of a call: it writes and truncates no directories. -/
def Served (sb : SuperBlock) (s : Fs) : Call → Prop
  | .write fh _ _ _ => (s.files fh).type = .FD_INODE →
      ((s.abs sb).node (s.files fh).ip).type ≠ FileType.T_DIR
  | .truncate path _ => ∀ x, resolve (s.abs sb).node path = some x →
      ((s.abs sb).node x).type ≠ FileType.T_DIR
  | _ => True

/-- The state between two calls: all is in order, and no transaction is in progress. -/
structure Rests (sb : SuperBlock) (s : Fs) : Prop where
  wf : Wf sb s
  idle : s.outstanding = 0

/-- What a call that returns leaves. -/
def Finishes (sb : SuperBlock) {α : Type} (m : Prog α) (s : Fs) : Prop :=
  Runs m s (fun _ s' => Rests sb s' ∧ Within sb s s') fun _ => True

theorem Finishes.map {α β : Type} {m : Prog α} {f : α → β} (h : Finishes sb m s) :
    Finishes sb (f <$> m) s := runs_map.mpr h

/-- An operation of one transaction. -/
theorem Finishes.of_transacts {α β : Type} {m : Prog α} {g : α → β}
    {Q : AbsFs → β → AbsFs → Prop} (hidle : s.outstanding = 0)
    (hm : Does sb m s fun r s' => Transacts sb Q s (g r) s')
    (hQ : ∀ {a r a'}, Q a r a' → a'.outstanding = a.outstanding) : Finishes sb m s :=
  hm.any.imp fun _ _ hs => ⟨⟨hs.1, (hs.2.outstanding hQ).trans hidle⟩, hs.2.2⟩

/-- An operation whose abstract states are told by a relation. -/
theorem Finishes.of_steps {α : Type} {m : Prog α} {Q : α → AbsFs → Prop} (hidle : s.outstanding = 0)
    (hm : Does sb m s fun r s' => Q r (s'.abs sb) ∧ Within sb s s')
    (hQ : ∀ {r a'}, Q r a' → a'.outstanding = (s.abs sb).outstanding) : Finishes sb m s :=
  hm.any.imp fun _ _ hs => ⟨⟨hs.1, (hQ hs.2.1).trans hidle⟩, hs.2.2⟩

/-- An operation outside of transactions. -/
theorem Finishes.of_read_only {α : Type} {m : Prog α} (hidle : s.outstanding = 0)
    (hm : Runs m s (fun _ s' => Wf sb s' ∧ ReadOnly sb s s') fun _ => True) : Finishes sb m s :=
  hm.imp fun _ _ hs => ⟨⟨hs.1, hs.2.outstanding.trans hidle⟩, .quiet hs.2.quiet⟩

namespace Rests

theorem op_write (hl : Layout sb) (h : Rests sb s) (fh : Nat) (buf : Bytes.Source)
    (size offset : Nat) (hserved : Served sb s (.write fh buf size offset)) :
    Finishes sb (op_write sb fh buf size offset) s := by
  refine ((h.wf.op_write hl fh buf size offset hserved).any.both
    (runs_imp fun hone => op_write_fits hone fh buf size offset)).mono ?_ fun _ _ => trivial
  rintro _ s' ⟨⟨h', hgrown⟩, hfits⟩
  exact ⟨⟨h', hgrown.outstanding.trans h.idle⟩, fun hb => hfits hb.1⟩

/-- Every call that returns leaves all in order, and fits the budget. -/
theorem call (hl : Layout sb) (hroot : ROOTINO < sb.ninodes) (h : Rests sb s) (call : Call)
    (hserved : Served sb s call) : Finishes sb (call.run sb) s := by
  cases call with
  | create path mode =>
    exact (Finishes.of_transacts h.idle (h.wf.op_create hl hroot path mode) fun ho => ho.outstanding).map
  | mkdir path =>
    refine (Finishes.of_transacts (g := id) h.idle (h.wf.op_mkdir hl hroot path) ?_).map
    rintro a r a' ⟨ip, a1, hc, rfl⟩
    exact (AbsFs.put_outstanding _ _).trans hc.frame.2
  | «open» path flags =>
    exact (Finishes.of_transacts h.idle (h.wf.op_open hl hroot path flags) fun ho => ho.outstanding).map
  | read fh buf size offset =>
    exact (Finishes.of_read_only h.idle (h.wf.op_read_outside h.idle fh buf size offset)).map
  | write fh buf size offset => exact (h.op_write hl fh buf size offset hserved).map
  | truncate path length =>
    exact (Finishes.of_steps h.idle (h.wf.op_truncate hl hroot path length hserved)
      fun ht => ht.outstanding).map
  | getattr path =>
    exact (Finishes.of_steps (Q := fun _ a' => Visits (s.abs sb) path 0 a') h.idle
      (h.wf.op_getattr hl hroot path) fun hv => hv.outstanding).map
  | readdir fh full offset =>
    exact (Finishes.of_read_only h.idle (h.wf.op_readdir_outside h.idle fh full offset)).map
  | flush =>
    exact (Finishes.of_steps (Q := fun r a' => r = 0 ∧ Flushed (s.abs sb) a') h.idle
      ((h.wf.op_flush hl).imp fun _ _ _ hs => ⟨⟨hs.1, hs.2.1⟩, hs.2.2⟩)
      fun hf => hf.2.outstanding).map
  | release fh =>
    exact (Finishes.of_steps (Q := fun _ a' => Closed (s.abs sb) fh a') h.idle
      (h.wf.op_release hl fh) fun hc => hc.outstanding).map
  | link source dest =>
    exact (Finishes.of_transacts (g := id) h.idle (h.wf.do_link hl hroot source dest)
      fun ho => ho.outstanding).map
  | unlink path =>
    exact (Finishes.of_transacts (g := id) h.idle (h.wf.do_unlink hl hroot path)
      fun ho => ho.outstanding).map
  | rename source dest =>
    refine (Finishes.of_transacts (g := id) h.idle (h.wf.op_rename hl hroot source dest) ?_).map
    intro a r a' hq
    split at hq
    · exact hq.outstanding
    · exact hq.outstanding

end Rests

/-! ### Runs -/

/-- The process has just started over an image that is in order. -/
def Started (sb : SuperBlock) (s : Fs) : Prop := ∃ d, Tidy sb d ∧ s = Fs.boot d

theorem Started.rests (h : Started sb s) : Rests sb s := by
  obtain ⟨d, hd, rfl⟩ := h
  exact ⟨hd.boot, rfl⟩

theorem Rests.step (hl : Layout sb) (hroot : ROOTINO < sb.ninodes) (h : Rests sb s) {call : Call}
    (hserved : Served sb s call) (hstep : call.step sb s = some s') :
    Rests sb s' ∧ Within sb s s' := by
  obtain ⟨r, hr⟩ := Call.step_eq_some.mp hstep
  exact (h.call hl hroot call hserved).of_ok hr

theorem reach_rests (hl : Layout sb) (hroot : ROOTINO < sb.ninodes)
    (h : Transition.Reach (Started sb) (Call.step sb) (Served sb) s) : Rests sb s :=
  h.invariant (Rests sb) (fun _ => Started.rests) fun _ _ _ hs hcall hstep =>
    (hs.step hl hroot hcall hstep).1

/-- In every run the blocks in use are the blocks that the allocated inodes hold, each in one slot,
and no directory has a hole. -/
theorem blocks_owned_once (hl : Layout sb) (hroot : ROOTINO < sb.ninodes)
    (h : Transition.Reach (Started sb) (Call.step sb) (Served sb) s) :
    (∀ b, sb.Data b → (bitAt sb s.blocks b = true ↔
      ∃! i, Holds sb (dinodeAt sb s.blocks) s.blocks i b)) ∧
    (∀ i b, Holds sb (dinodeAt sb s.blocks) s.blocks i b → sb.Data b) ∧
    (∀ b < sb.datastart, bitAt sb s.blocks b = true) ∧
    ∀ x < sb.ninodes, (dinodeAt sb s.blocks x).type = FileType.T_DIR →
      Solid s.blocks (dinodeAt sb s.blocks x) := by
  have hrests := reach_rests hl hroot h
  have howned := hrests.wf.tidy.owned
  refine ⟨fun b hb => ⟨fun hset => ?_, fun ⟨i, hi, _⟩ => ?_⟩, howned.data, howned.marked,
    hrests.wf.tidy.solid⟩
  · rcases (howned.part.used_iff b).mp ⟨hb, hset⟩ with hno | ⟨i, hi⟩
    · exact hno.elim
    · exact ⟨i, hi, fun j hj => howned.part.inj hj hi⟩
  · exact ((howned.part.used_iff b).mpr (.inr ⟨i, hi⟩)).2

theorem rootFs_started : Started rootSb rootFs := ⟨rootDisk, rootFs_wf.tidy, rfl⟩

set_option maxRecDepth 100000 in
/-- A file is created and three bytes are written to it. -/
theorem write_run : ∃ s1 s : Fs, (Call.create [47, 102] 2).step rootSb rootFs = some s1 ∧
    ((s1.abs rootSb).node (s1.files 0).ip).type ≠ FileType.T_DIR ∧ (s1.abs rootSb).Linked ∧
    (Call.write 0 (fun _ => 97) 3 0).step rootSb s1 = some s ∧
    bitAt rootSb rootFs.blocks 35 = false ∧ bitAt rootSb s.blocks 35 = true := by
  have hrun : Runs ((Call.create [47, 102] 2).run rootSb) rootFs (fun _ s1 =>
      ((s1.abs rootSb).node (s1.files 0).ip).type ≠ FileType.T_DIR ∧
      (∀ x < rootSb.ninodes, ((s1.abs rootSb).node x).type = FileType.T_DIR →
        ((s1.abs rootSb).node x).nlink ≠ 0) ∧
      Runs ((Call.write 0 (fun _ => 97) 3 0).run rootSb) s1 (fun _ s =>
        bitAt rootSb rootFs.blocks 35 = false ∧ bitAt rootSb s.blocks 35 = true) fun _ => False)
      fun _ => False := by decide +kernel
  obtain ⟨r1, s1, hcreate, hfile, hlinked, hrun⟩ := hrun.returns
  obtain ⟨r, s, hwrite, hbits⟩ := hrun.returns
  refine ⟨s1, s, Call.step_eq_some.mpr ⟨r1, hcreate⟩, hfile, fun x hx => ?_,
    Call.step_eq_some.mpr ⟨r, hwrite⟩, hbits⟩
  exact hlinked x (alloc_lt (by rw [AbsFs.Alloc, hx]; decide)) hx

/-- The block of the three bytes. -/
theorem blocks_owned_once_write : ∃ s : Fs,
    Transition.Reach (Started rootSb) (Call.step rootSb) (Served rootSb) s ∧
      bitAt rootSb rootFs.blocks 35 = false ∧
      ∃! i, Holds rootSb (dinodeAt rootSb s.blocks) s.blocks i 35 := by
  obtain ⟨s1, s, hcreate, hfile, -, hwrite, hfree, hused⟩ := write_run
  have hreach : Transition.Reach (Started rootSb) (Call.step rootSb) (Served rootSb) s :=
    .next (.write 0 (fun _ => 97) 3 0)
      (.next (.create [47, 102] 2) (.start rootFs_started) trivial hcreate) (fun _ => hfile) hwrite
  exact ⟨s, hreach, hfree, ((blocks_owned_once rootSb_layout (by decide) hreach).1 35
    (by decide)).mp hused⟩

/-- In every run over one bitmap block in which each directory has links before each call, every
transaction logs at most `MAX_OP_BLOCKS` blocks. -/
theorem transactions_fit (hl : Layout sb) (hroot : ROOTINO < sb.ninodes)
    (hone : sb.size ≤ BIT_PER_BLOCK)
    (h : Transition.Reach (Started sb) (Call.step sb)
      (fun s call => Served sb s call ∧ (s.abs sb).Linked) s) : FitsBudget s.trace := by
  have hinv : Rests sb s ∧ FitsBudget s.trace := by
    refine h.invariant (fun s => Rests sb s ∧ FitsBudget s.trace) ?_ ?_
    · rintro _ ⟨d, hd, rfl⟩
      exact ⟨⟨hd.boot, rfl⟩, trivial⟩
    · rintro s call s' ⟨hs, hfits⟩ ⟨hserved, hlinked⟩ hstep
      obtain ⟨hs', hwithin⟩ := hs.step hl hroot hserved hstep
      exact ⟨hs', hwithin ⟨hone, hlinked⟩ hfits⟩
  exact hinv.2

/-- The transactions of a creation and a write. -/
theorem transactions_fit_write : ∃ s : Fs, FitsBudget s.trace ∧
    bitAt rootSb rootFs.blocks 35 = false ∧ bitAt rootSb s.blocks 35 = true := by
  obtain ⟨s1, s, hcreate, hfile, hlinked, hwrite, hfree, hused⟩ := write_run
  have hroot : (rootFs.abs rootSb).Linked := by
    intro x hx
    have hlt : x < rootSb.ninodes := alloc_lt (by rw [AbsFs.Alloc, hx]; decide)
    have hall : ∀ x < rootSb.ninodes, ((rootFs.abs rootSb).node x).type = FileType.T_DIR →
      ((rootFs.abs rootSb).node x).nlink ≠ 0 := by decide +kernel
    exact hall x hlt hx
  exact ⟨s, transactions_fit rootSb_layout (by decide) (by decide)
    (.next (.write 0 (fun _ => 97) 3 0) (.next (.create [47, 102] 2) (.start rootFs_started)
      ⟨trivial, hroot⟩ hcreate) ⟨fun _ => hfile, hlinked⟩ hwrite), hfree, hused⟩

end Xv6fs
