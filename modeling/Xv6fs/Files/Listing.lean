import Xv6fs.Files.Reading
import Xv6fs.Fs.Entries
import Xv6fs.Fs.Check

/-! `op_readdir` takes the loop index from its offset and the entries from the offset of the handle,
which each read moves and nothing sets back.  So a directory with entries is listed at most once
through one handle. -/

namespace Xv6fs

open Program (Runs runs_bind runs_pure runs_get runs_modify runs_assert runs_throw)
open SharedRead (Open lock_valid read_same)

variable {sb : SuperBlock} {fh x : Nat} {s s' s1 s2 : Fs}

/-! ### Reading the next entry -/

/-- The entries of the directory that the handle is open on. -/
def Fs.entries (fh : Nat) (s : Fs) : List DirEntry :=
  entriesAt s.blocks (s.inodes (s.files fh).ip).dinode

/-- The handle is open on a directory of whole entries, at one of them or past them, and no operation
is in progress. -/
structure Lists (fh : Nat) (s : Fs) : Prop extends Open fh s where
  kind : (s.inodes (s.files fh).ip).dinode.type = FileType.T_DIR
  aligned : s.file_size fh % DIRENT_SIZE = 0
  even : (s.files fh).off % DIRENT_SIZE = 0
  outstanding : s.outstanding = 0

/-- The process differs in the offset of the handle, and in other inodes in memory. -/
structure Kept (fh : Nat) (s s' : Fs) : Prop where
  blocks : s'.blocks = s.blocks
  handle : s'.files fh = { s.files fh with off := (s'.files fh).off }
  inode : s'.inodes (s.files fh).ip = s.inodes (s.files fh).ip
  outstanding : s'.outstanding = s.outstanding

namespace Kept

theorem refl (fh : Nat) (s : Fs) : Kept fh s s := ⟨rfl, rfl, rfl, rfl⟩

theorem ip (h : Kept fh s s') : (s'.files fh).ip = (s.files fh).ip := by rw [h.handle]

theorem trans (h1 : Kept fh s s1) (h2 : Kept fh s1 s2) : Kept fh s s2 := by
  refine ⟨h2.blocks.trans h1.blocks, ?_, ?_, h2.outstanding.trans h1.outstanding⟩
  · rw [h2.handle, h1.handle]
  · have := h2.inode
    rw [h1.ip] at this
    exact this.trans h1.inode

theorem size (h : Kept fh s s') : s'.file_size fh = s.file_size fh := by
  rw [Fs.file_size, Fs.file_size, h.ip, h.inode]

theorem entries (h : Kept fh s s') : s'.entries fh = s.entries fh := by
  rw [Fs.entries, Fs.entries, h.ip, h.inode, h.blocks]

theorem lists (h : Kept fh s s') (h0 : Lists fh s)
    (heven : (s'.files fh).off % DIRENT_SIZE = 0) : Lists fh s' := by
  constructor
  · constructor
    · rw [h.handle]
      exact h0.type
    · rw [h.handle]
      exact h0.readable
    · rw [h.ip, h.inode]
      exact h0.ref
    · rw [h.ip, h.inode]
      exact h0.valid
    · rw [h.ip, h.inode]
      exact h0.unlocked
    · rw [h.ip, h.inode, h.blocks]
      exact h0.solid
  · rw [h.ip, h.inode]
    exact h0.kind
  · rw [h.size]
    exact h0.aligned
  · exact heven
  · exact h.outstanding.trans h0.outstanding

end Kept

/-- `OFile::read` moves the offset of the handle by what it has read. -/
theorem read_moves (h : Open fh s) (buf : Bytes.Source) (n : Nat) :
    Runs (OFile.read sb fh buf n) s (fun _ s' => s'.outstanding = s.outstanding ∧
      (s'.files fh).off = (s.files fh).off + min n (s.file_size fh - (s.files fh).off))
      fun _ => True := by
  rw [OFile.read]
  simp only [runs_bind, runs_get]
  rw [if_neg (by rw [h.readable]; decide)]
  simp only [h.type]
  refine Runs.bind (lock_valid h.ref h.valid h.unlocked) ?_
  rintro - s1 rfl
  have hsolid : Solid s.blocks
      (setAt s.inodes (s.files fh).ip { s.inodes (s.files fh).ip with locked := true }
        (s.files fh).ip).dinode := by
    rw [setAt_self]
    exact h.solid
  refine Runs.bind (read_solid hsolid _ _) ?_
  rintro ⟨r, buf'⟩ s2 ⟨rfl, hr, -⟩
  simp only [modify_file, INode.unlock, mtx_unlock, record, modify_inode, runs_bind, runs_get,
    runs_assert, runs_modify, runs_pure]
  simp only [setAt_self] at hr ⊢
  refine ⟨fun _ => ⟨trivial, ?_⟩, fun _ => trivial⟩
  rw [hr, Fs.file_size]
  split <;> omega

theorem DirEntry.load_zero : DirEntry.load (fun _ => 0) = DirEntry.zero := by
  rw [← DirEntry.load_bytes DirEntry.zero]
  refine DirEntry.load_congr fun j _ => ?_
  unfold DirEntry.bytes
  split
  · simp [DirEntry.zero, Bytes.bytes16]
  · simp [DirEntry.zero]

/-- The next entry, or one of zero bytes past the last. -/
theorem read_next (h : Lists fh s) :
    Runs (OFile.read sb fh (fun _ => 0) DIRENT_SIZE) s (fun r s' => Kept fh s s' ∧
      DirEntry.load r.2 = (s.entries fh).getD ((s.files fh).off / DIRENT_SIZE) .zero ∧
      (s'.files fh).off =
        if (s.files fh).off < s.file_size fh then (s.files fh).off + DIRENT_SIZE
        else (s.files fh).off) fun _ => False := by
  have hal := h.aligned
  have hev := h.even
  refine ((read_same sb h.toOpen (fun _ => 0) DIRENT_SIZE).also (read_moves h.toOpen _ _)).imp ?_
  rintro ⟨r, buf⟩ s' ⟨⟨hsame, hserved⟩, hout, hoff⟩
  have hcount : (⟨(s.files fh).off, DIRENT_SIZE, fun _ => 0⟩ : SharedRead.Request).count fh s =
      min DIRENT_SIZE (s.file_size fh - (s.files fh).off) := rfl
  refine ⟨⟨hsame.blocks, hsame.handle, by rw [hsame.inodes], hout⟩, ?_, ?_⟩
  · have hlen : (s.entries fh).length = s.file_size fh / DIRENT_SIZE := by
      simp [Fs.entries, entriesAt, Fs.file_size]
    by_cases hlt : (s.files fh).off < s.file_size fh
    · have hin : (s.files fh).off / DIRENT_SIZE < (s.entries fh).length := by
        rw [hlen]
        simp only [DIRENT_SIZE] at *
        omega
      rw [List.getD_eq_getElem?_getD, List.getElem?_eq_getElem hin, Option.getD_some]
      refine Eq.trans (DirEntry.load_congr fun j hj => ?_) (getElem_entriesAt hin).symm
      have hdiv : (s.files fh).off / DIRENT_SIZE * DIRENT_SIZE + j = (s.files fh).off + j := by
        simp only [DIRENT_SIZE] at *
        omega
      rw [hserved j, hcount, if_pos, hdiv]
      · rfl
      · simp only [DIRENT_SIZE] at *
        omega
    · rw [List.getD_eq_default]
      · rw [← DirEntry.load_zero]
        refine DirEntry.load_congr fun j _ => ?_
        rw [hserved j, hcount, if_neg (by omega)]
      · rw [hlen]
        simp only [DIRENT_SIZE] at *
        omega
  · rw [hoff]
    simp only [DIRENT_SIZE] at *
    split <;> omega

/-! ### One call -/

/-- A call that finds free entries only from the offset of the handle on delivers nothing. -/
theorem readdir_nothing (full : Nat → Bool) {fuel i : Nat} {got : List Filled} (h : Lists fh s)
    (hfree : ∀ k, (s.files fh).off / DIRENT_SIZE ≤ k → ((s.entries fh).getD k .zero).inum = 0) :
    Runs (readdir_loop sb fh full fuel i got) s (fun r s' => r = (0, got) ∧ Kept fh s s' ∧
      Lists fh s' ∧ (s.files fh).off ≤ (s'.files fh).off) fun _ => False := by
  induction fuel generalizing s i with
  | zero => exact ⟨rfl, .refl fh s, h, Nat.le_refl _⟩
  | succ fuel ih =>
    rw [readdir_loop, runs_bind, runs_get]
    split
    · refine (read_next h).bind ?_
      rintro r s1 ⟨hkept, hentry, hoff⟩
      have hev := h.even
      have hle : (s.files fh).off ≤ (s1.files fh).off := by
        rw [hoff]
        split <;> omega
      have h1 : Lists fh s1 := hkept.lists h (by
        rw [hoff]
        simp only [DIRENT_SIZE] at *
        split <;> omega)
      dsimp only
      rw [hentry, if_pos (hfree _ (Nat.le_refl _))]
      refine (ih h1 fun k hk => ?_).imp fun r s2 ⟨hr, hkept2, h2, hle2⟩ =>
        ⟨hr, hkept.trans hkept2, h2, Nat.le_trans hle hle2⟩
      rw [hkept.entries]
      exact hfree k (Nat.le_trans (Nat.div_le_div_right hle) hk)
    · exact ⟨rfl, .refl fh s, h, Nat.le_refl _⟩

/-- `block_free` is refused while no operation is in progress. -/
theorem block_free_outside {Q : PUnit → Fs → Prop} (hout : s.outstanding = 0) (b : Nat) :
    Runs (block_free sb b) s Q fun _ => True := by
  simp only [block_free, modify_block, Fs.log_write, runs_bind, runs_get, runs_assert, runs_modify]
  exact ⟨fun _ => ⟨fun _ => ⟨fun ho => absurd hout (by omega), fun _ => trivial⟩, fun _ => trivial⟩,
    fun _ => trivial⟩

theorem trunc_direct_outside (hout : s.outstanding = 0) (x : Nat) (ks : List Nat) :
    Runs (INode.trunc_direct sb x ks) s (fun _ s' => s'.outstanding = 0) fun _ => True := by
  induction ks with
  | nil => exact hout
  | cons k ks ih =>
    rw [INode.trunc_direct, runs_bind, runs_get]
    dsimp only
    split
    · rw [runs_bind]
      exact block_free_outside hout _
    · exact ih

theorem trunc_indirect_outside (hout : s.outstanding = 0) (ind : Nat) (js : List Nat) :
    Runs (INode.trunc_indirect sb ind js) s (fun _ s' => s'.outstanding = 0) fun _ => True := by
  induction js with
  | nil => exact hout
  | cons j js ih =>
    rw [INode.trunc_indirect, runs_bind, runs_get]
    dsimp only
    split
    · rw [runs_bind]
      exact block_free_outside hout _
    · exact ih

/-- No inode is freed while no operation is in progress. -/
theorem inode_free_outside {Q : PUnit → Fs → Prop} (hout : s.outstanding = 0) (x : Nat) :
    Runs (inode_free sb x) s Q fun _ => True := by
  have htrunc : ∀ (s : Fs) (Q : PUnit → Fs → Prop), s.outstanding = 0 →
      Runs (INode.trunc sb x) s Q fun _ => True := by
    intro s Q hout
    rw [INode.trunc, runs_bind, Xv6fs.record, runs_modify]
    refine (trunc_direct_outside (by exact hout) _ _).bind fun _ s1 h1 => ?_
    refine Runs.bind (Q := fun _ s' => s'.outstanding = 0) ?_ fun _ s2 h2 => ?_
    · rw [INode.trunc_rest, runs_bind, runs_get]
      dsimp only
      split
      · refine (trunc_indirect_outside h1 _ _).bind fun _ s3 h3 => ?_
        rw [runs_bind]
        exact block_free_outside h3 _
      · exact h1
    · simp only [modify_dinode, modify_inode, INode.update, store_dinode, modify_block,
        Xv6fs.record, Fs.log_write, runs_bind, runs_get, runs_assert, runs_modify]
      exact ⟨fun _ => ⟨fun ho => absurd h2 (by omega), fun _ => trivial⟩, fun _ => trivial⟩
  rw [inode_free, runs_bind]
  simp only [mtx_lock, Xv6fs.record, modify_inode, runs_bind, runs_get, runs_assert, runs_modify]
  exact ⟨fun _ => htrunc _ _ hout, fun _ => trivial⟩

/-- What a program that works on inode `x` leaves as it is. -/
structure Aside (x : Nat) (s s' : Fs) : Prop where
  blocks : s'.blocks = s.blocks
  files : s'.files = s.files
  outstanding : s'.outstanding = s.outstanding
  others : ∀ y ≠ x, s'.inodes y = s.inodes y

namespace Aside

theorem of_set {ip : INode} (hblocks : s'.blocks = s.blocks) (hfiles : s'.files = s.files)
    (hout : s'.outstanding = s.outstanding) (hinodes : s'.inodes = setAt s.inodes x ip) :
    Aside x s s' :=
  ⟨hblocks, hfiles, hout, fun y hy => by rw [hinodes, setAt_of_ne hy]⟩

theorem trans (h1 : Aside x s s1) (h2 : Aside x s1 s2) : Aside x s s2 :=
  ⟨h2.blocks.trans h1.blocks, h2.files.trans h1.files, h2.outstanding.trans h1.outstanding,
    fun y hy => (h2.others y hy).trans (h1.others y hy)⟩

end Aside

theorem lock_aside (x : Nat) : Runs (INode.lock sb x) s (fun _ s' => Aside x s s' ∧
    (s.inodes x).locked = false ∧ ((s.inodes x).valid = true →
      s'.inodes x = { s.inodes x with locked := true })) fun _ => True := by
  simp only [INode.lock, mtx_lock, Xv6fs.record, modify_inode, runs_bind, runs_get, runs_assert,
    runs_modify]
  refine ⟨fun _ => ⟨fun hl => ?_, fun _ => trivial⟩, fun _ => trivial⟩
  split
  · next hv =>
    simp only [runs_bind, runs_modify, runs_assert, setAt_setAt]
    refine ⟨fun _ => ⟨.of_set rfl rfl rfl rfl, hl, fun hvalid => ?_⟩, fun _ => trivial⟩
    rw [hvalid] at hv
    cases hv
  · exact ⟨.of_set rfl rfl rfl rfl, hl, fun _ => setAt_self⟩

/-- `inode_put` while no operation is in progress. -/
theorem put_aside (hout : s.outstanding = 0) (x : Nat) :
    Runs (inode_put sb x) s (fun _ s' => Aside x s s' ∧ (1 < (s.inodes x).ref →
      s'.inodes x = { s.inodes x with ref := (s.inodes x).ref - 1 })) fun _ => True := by
  rw [inode_put, runs_bind, runs_get]
  dsimp only
  split
  · rw [runs_bind]
    exact inode_free_outside hout x
  · simp only [inode_drop, modify_inode, runs_modify]
    refine ⟨.of_set rfl rfl rfl rfl, fun href => ?_⟩
    rw [setAt_self, if_neg (by omega)]

/-- A look at the inode that an entry names. -/
theorem visit_aside (hout : s.outstanding = 0) (x : Nat) {Q : StatBuf → Fs → Prop}
    (hQ : ∀ st s', Aside x s s' → (0 < (s.inodes x).ref → (s.inodes x).valid = true →
      (s.inodes x).locked = false → s'.inodes x = s.inodes x) → Q st s') :
    Runs (do
      inode_get x
      INode.lock sb x
      let st ← do_fillstatbuf x
      inode_unlock_put sb x
      pure st) s Q fun _ => True := by
  rw [runs_bind, inode_get, modify_inode, runs_modify]
  refine (lock_aside x).bind ?_
  rintro _ s1 ⟨h1, hl, hlocked⟩
  simp only [setAt_self] at hl hlocked
  rw [runs_bind, do_fillstatbuf, runs_bind, runs_get, runs_bind, runs_assert]
  refine ⟨fun _ => ?_, fun _ => trivial⟩
  rw [runs_pure, inode_unlock_put, INode.unlock, mtx_unlock, Xv6fs.record, modify_inode]
  simp only [runs_bind, runs_get, runs_assert, runs_modify]
  refine ⟨fun _ => ?_, fun _ => trivial⟩
  have hside : Aside x s { s1 with
      trace := .unlock x :: s1.trace
      inodes := setAt s1.inodes x { s1.inodes x with locked := false } } := by
    have hget : Aside x s { s with
        inodes := setAt s.inodes x { s.inodes x with ref := (s.inodes x).ref + 1 } } :=
      .of_set rfl rfl rfl rfl
    exact (hget.trans h1).trans (.of_set rfl rfl rfl rfl)
  refine (put_aside (by rw [hside.outstanding]; exact hout) x).imp ?_
  rintro _ s2 ⟨h2, hput⟩
  refine hQ _ _ (hside.trans h2) fun href hvalid hfree => ?_
  simp only [setAt_self] at hput
  rw [hlocked hvalid] at hput
  rw [hput (by dsimp only; omega)]
  generalize s.inodes x = ip at *
  cases ip
  simp_all

theorem Aside.kept (h : Aside x s s') (hlists : Lists fh s)
    (hsame : 0 < (s.inodes x).ref → (s.inodes x).valid = true → (s.inodes x).locked = false →
      s'.inodes x = s.inodes x) : Kept fh s s' := by
  refine ⟨h.blocks, by rw [h.files], ?_, h.outstanding⟩
  by_cases hx : (s.files fh).ip = x
  · subst hx
    exact hsame hlists.ref hlists.valid hlists.unlocked
  · exact h.others _ hx

/-- A call that returns `0` has moved the offset of the handle as far as the loop index, or to the
end of the directory. -/
theorem readdir_moves (full : Nat → Bool) {fuel i : Nat} {got : List Filled} (h : Lists fh s)
    (hfuel : s.file_size fh ≤ i + fuel) :
    Runs (readdir_loop sb fh full fuel i got) s (fun r s' => r.1 = 0 → Kept fh s s' ∧ Lists fh s' ∧
      (s.file_size fh ≤ (s'.files fh).off ∨
        (s.files fh).off + (s.file_size fh - i) ≤ (s'.files fh).off)) fun _ => True := by
  induction fuel generalizing s i got with
  | zero => exact fun _ => ⟨.refl fh s, h, .inr (by omega)⟩
  | succ fuel ih =>
    have hev := h.even
    have hal := h.aligned
    rw [readdir_loop, runs_bind, runs_get]
    split
    · next hlt =>
      have hlt : i < s.file_size fh := hlt
      refine ((read_next h).any).bind ?_
      rintro r s1 ⟨hkept, hentry, hoff⟩
      have h1 : Lists fh s1 := hkept.lists h (by
        rw [hoff]
        simp only [DIRENT_SIZE] at *
        split <;> omega)
      dsimp only
      have hrest : ∀ {s2 : Fs} {got : List Filled}, Kept fh s1 s2 →
          (s2.files fh).off = (s1.files fh).off →
          Runs (readdir_loop sb fh full fuel (i + DIRENT_SIZE) got) s2 (fun r s' => r.1 = 0 →
            Kept fh s s' ∧ Lists fh s' ∧ (s.file_size fh ≤ (s'.files fh).off ∨
              (s.files fh).off + (s.file_size fh - i) ≤ (s'.files fh).off)) fun _ => True := by
        intro s2 got hkept2 hoff2
        have h2 := hkept2.lists h1 (hoff2 ▸ h1.even)
        have hsize : s2.file_size fh = s.file_size fh := (hkept.trans hkept2).size
        refine (ih h2 (by rw [hsize]; simp only [DIRENT_SIZE]; omega)).imp fun r s3 h3 hr => ?_
        obtain ⟨hkept3, hlists3, hmoved⟩ := h3 hr
        refine ⟨(hkept.trans hkept2).trans hkept3, hlists3, ?_⟩
        rw [hsize, hoff2, hoff] at hmoved
        simp only [DIRENT_SIZE] at *
        split at hmoved <;> omega
      split
      · exact hrest (.refl fh s1) rfl
      · have hvisit := @visit_aside sb s1 h1.outstanding (DirEntry.load r.2).inum.toNat
          (Q := fun _ s2 => Kept fh s1 s2 ∧ (s2.files fh).off = (s1.files fh).off)
          fun _ _ haside hsame => ⟨haside.kept h1 hsame, by rw [haside.files]⟩
        have hrun := hvisit.bind (f := fun st =>
            if full got.length then pure (-ENOMEM, got)
            else readdir_loop sb fh full fuel (i + DIRENT_SIZE)
              (⟨(DirEntry.load r.2).str, st, i + DIRENT_SIZE⟩ :: got)) (R := fun r s' => r.1 = 0 →
            Kept fh s s' ∧ Lists fh s' ∧ (s.file_size fh ≤ (s'.files fh).off ∨
              (s.files fh).off + (s.file_size fh - i) ≤ (s'.files fh).off))
          fun st s2 ⟨hkept2, hoff2⟩ => by
            split
            · exact fun hr => absurd (show (-ENOMEM : Int) = 0 from hr) (by decide)
            · exact hrest hkept2 hoff2
        simpa only [runs_bind, runs_pure] using hrun
    · next hge =>
      have hge : ¬i < s.file_size fh := hge
      exact fun _ => ⟨.refl fh s, h, .inr (by omega)⟩

/-! ### A listing -/

/-- A caller that lists a directory from `offset` on: it repeats `op_readdir`, each time from the
offset attached to the last entry that its filler has accepted, until a call delivers nothing.  The
filler accepts `cap k` entries in call `k` and then refuses.  It delivers what has been accepted, last
first, and nothing when a call does not return `0` or `fuel` runs out. -/
def list_through (sb : SuperBlock) (fh : Nat) (cap : Nat → Nat) :
    (fuel k offset : Nat) → List Filled → Prog (Option (List Filled))
  | 0, _, _, _ => pure none
  | fuel + 1, k, offset, got => do
    let r ← op_readdir sb fh (fun n => decide (cap k ≤ n)) offset
    if r.1 ≠ 0 then pure none
    else
      match r.2 with
      | [] => pure (some got)
      | last :: rest => list_through sb fh cap fuel (k + 1) last.next (last :: rest ++ got)

/-- Two listings from offset `0` through one handle. -/
def list_twice (sb : SuperBlock) (fh : Nat) (cap cap' : Nat → Nat) (fuel : Nat) :
    Prog (Option (List Filled) × Option (List Filled)) := do
  let first ← list_through sb fh cap fuel 0 0 []
  let again ← list_through sb fh cap' fuel 0 0 []
  pure (first, again)

/-- The entries that have been accepted are the live ones in slot order, each with its inode. -/
def Complete (fh : Nat) (s : Fs) (got : Option (List Filled)) : Prop :=
  got.map (fun l => l.reverse.map fun f => (f.name, f.st.st_ino)) =
    some (((s.entries fh).filter fun e => e.inum ≠ 0).map fun e => (e.str, e.inum.toNat))

/-- A listing that finds free entries only from the offset of the handle on delivers nothing. -/
theorem list_nothing (cap : Nat → Nat) {fuel k offset : Nat} {got : List Filled} (h : Lists fh s)
    (hfree : ∀ k, (s.files fh).off / DIRENT_SIZE ≤ k → ((s.entries fh).getD k .zero).inum = 0) :
    Runs (list_through sb fh cap (fuel + 1) k offset got) s (fun r s' =>
      (offset % DIRENT_SIZE = 0 → r = some got) ∧ Kept fh s s' ∧ Lists fh s' ∧
      (s.files fh).off ≤ (s'.files fh).off) fun _ => False := by
  have hcall : Runs (op_readdir sb fh (fun n => decide (cap k ≤ n)) offset) s (fun r s' =>
      (r = (0, []) ∨ r = (-EINVAL, []) ∧ offset % DIRENT_SIZE ≠ 0) ∧ Kept fh s s' ∧ Lists fh s' ∧
      (s.files fh).off ≤ (s'.files fh).off) fun _ => False := by
    rw [op_readdir, runs_bind, runs_get]
    dsimp only
    split
    · exact ⟨.inl rfl, .refl fh s, h, Nat.le_refl _⟩
    · split
      · next hodd => exact ⟨.inr ⟨rfl, hodd⟩, .refl fh s, h, Nat.le_refl _⟩
      · refine (readdir_nothing _ h hfree).imp ?_
        rintro r s' ⟨hr, hrest⟩
        exact ⟨.inl hr, hrest⟩
  rw [list_through]
  refine hcall.bind ?_
  rintro _ s' ⟨rfl | ⟨rfl, hodd⟩, hrest⟩
  · exact ⟨fun _ => rfl, hrest⟩
  · exact ⟨fun heven => absurd heven hodd, hrest⟩

theorem Lists.past_free (hoff : s.file_size fh ≤ (s.files fh).off) (k : Nat)
    (hk : (s.files fh).off / DIRENT_SIZE ≤ k) : ((s.entries fh).getD k .zero).inum = 0 := by
  rw [List.getD_eq_default]
  · rfl
  · have hlen : (s.entries fh).length = s.file_size fh / DIRENT_SIZE := by
      simp [Fs.entries, entriesAt, Fs.file_size]
    rw [hlen]
    exact Nat.le_trans (Nat.div_le_div_right hoff) hk

/-- A listing that ends has moved the offset of the handle past the directory. -/
theorem list_moves (cap : Nat → Nat) {fuel k : Nat} {got : List Filled} (h : Lists fh s) :
    Runs (list_through sb fh cap fuel k 0 got) s (fun r s' => r ≠ none → Kept fh s s' ∧ Lists fh s' ∧
      s.file_size fh ≤ (s'.files fh).off) fun _ => True := by
  cases fuel with
  | zero => exact fun hr => absurd rfl hr
  | succ fuel =>
    have hcall : Runs (op_readdir sb fh (fun n => decide (cap k ≤ n)) 0) s (fun r s' => r.1 = 0 →
        Kept fh s s' ∧ Lists fh s' ∧ s.file_size fh ≤ (s'.files fh).off) fun _ => True := by
      rw [op_readdir, runs_bind, runs_get]
      dsimp only
      rw [if_neg (Nat.not_lt_zero _), if_neg (by decide)]
      refine (readdir_moves _ h (by rw [Nat.zero_add]; exact Nat.le_refl _)).imp
        fun r s' h' hr => ?_
      obtain ⟨hkept, hlists, hmoved⟩ := h' hr
      exact ⟨hkept, hlists, by omega⟩
    rw [list_through]
    refine hcall.bind fun r s1 h1 => ?_
    split
    · exact fun hr => absurd rfl hr
    · next hr =>
      obtain ⟨hkept, hlists, hmoved⟩ := h1 (not_not.mp hr)
      split
      · exact fun _ => ⟨hkept, hlists, hmoved⟩
      · cases fuel with
        | zero => exact fun hr => absurd rfl hr
        | succ fuel =>
          refine (list_nothing cap hlists (Lists.past_free (hkept.size ▸ hmoved))).any.imp ?_
          rintro r s2 ⟨_, hkept2, hlists2, hle⟩ _
          exact ⟨hkept.trans hkept2, hlists2, Nat.le_trans hmoved hle⟩

/-- A directory that is listed twice through one handle has no entries. -/
theorem free_of_list_twice (h : Lists fh s) {cap cap' : Nat → Nat} {fuel : Nat}
    (hruns : Runs (list_twice sb fh cap cap' fuel) s
      (fun r _ => Complete fh s r.1 ∧ Complete fh s r.2) fun _ => False) :
    ∀ e ∈ s.entries fh, e.inum = 0 := by
  obtain ⟨⟨first, again⟩, s', hok, hfirst, hagain⟩ := hruns.returns
  rw [list_twice] at hok
  obtain ⟨first', s1, hok1, hok⟩ := Program.bind_ok.mp hok
  obtain ⟨again', s2, hok2, hok⟩ := Program.bind_ok.mp hok
  cases hok
  have hsome : first ≠ none := by
    rintro rfl
    cases hfirst
  obtain ⟨hkept, hlists, hpast⟩ := (list_moves cap h).of_ok hok1 hsome
  cases fuel with
  | zero =>
    cases hok2
    cases hagain
  | succ fuel =>
    have hnothing := @list_nothing sb fh _ cap' fuel 0 0 [] hlists (Lists.past_free (hkept.size ▸ hpast))
    rw [(hnothing.of_ok hok2).1 rfl] at hagain
    have hnil := List.map_eq_nil_iff.mp (Option.some.inj hagain).symm
    intro e he
    have hlive := List.filter_eq_nil_iff.mp hnil e he
    by_contra hne
    exact hlive (decide_eq_true hne)

/-- Exactly when two listings through one handle are complete and all their calls return `0`. -/
theorem op_readdir_lists (h : Lists fh s) (cap cap' : Nat → Nat) :
    (∃ fuel, Runs (list_twice sb fh cap cap' fuel) s
        (fun r _ => Complete fh s r.1 ∧ Complete fh s r.2) fun _ => False) ↔
      ∀ e ∈ s.entries fh, e.inum = 0 := by
  constructor
  · rintro ⟨fuel, hruns⟩
    exact free_of_list_twice h hruns
  · intro hfree
    have hnone : ∀ k, ((s.entries fh).getD k .zero).inum = 0 := by
      intro k
      rw [List.getD_eq_getElem?_getD]
      cases hk : (s.entries fh)[k]? with
      | none => rfl
      | some e => exact hfree e (List.mem_of_getElem? hk)
    have hcomplete : Complete fh s (some []) := by
      have hnil : (s.entries fh).filter (fun e => e.inum ≠ 0) = [] :=
        List.filter_eq_nil_iff.mpr fun e he => by simp [hfree e he]
      rw [Complete, hnil]
      rfl
    refine ⟨1, ?_⟩
    rw [list_twice]
    refine (list_nothing cap h fun k _ => hnone k).bind ?_
    rintro r s1 ⟨hr, hkept, hlists, _⟩
    refine (list_nothing cap' hlists fun k _ => by rw [hkept.entries]; exact hnone k).bind ?_
    rintro r' s2 ⟨hr', _⟩
    rw [runs_pure, hr rfl, hr' rfl]
    exact ⟨hcomplete, hcomplete⟩

/-- The root directory of two entries, in the blocks given, has been opened for reading. -/
def listFs (blocks : Disk) : Fs := { Fs.boot blocks with
  inodes := setAt (fun _ => .absent) 1 ⟨1, false, true, rootInode⟩
  files := setAt (fun _ => .none) 0 ⟨.FD_INODE, 1, 0, 0, true, false, 1⟩ }

theorem listFs_lists (blocks : Disk) : Lists 0 (listFs blocks) where
  type := rfl
  readable := rfl
  ref := Nat.one_pos
  valid := rfl
  unlocked := rfl
  solid := by
    have hle : rootInode.size.toNat ≤ MAX_SIZE := by decide
    refine ⟨hle, fun n hn => ?_⟩
    obtain rfl : n = 0 := by
      have hn : n * BSIZE < 32 := hn
      simp only [BSIZE] at hn
      omega
    have hslot : slot blocks rootInode 0 = 34 := rfl
    have hne : slot blocks rootInode 0 ≠ 0 := by
      rw [hslot]
      decide
    exact hne
  kind := rfl
  aligned := by
    have hwhole : rootInode.size.toNat % DIRENT_SIZE = 0 := by decide
    exact hwhole
  even := rfl
  outstanding := rfl

/-- Two entries that are free. -/
theorem op_readdir_lists_free : ∃ fuel,
    Runs (list_twice rootSb 0 (fun _ => 1) (fun _ => 1) fuel)
      (listFs fun _ => Bytes.Buffer.zero BSIZE)
      (fun r _ => Complete 0 (listFs fun _ => Bytes.Buffer.zero BSIZE) r.1 ∧
        Complete 0 (listFs fun _ => Bytes.Buffer.zero BSIZE) r.2) fun _ => False :=
  (op_readdir_lists (listFs_lists _) _ _).mpr (by decide +kernel)

set_option maxRecDepth 100000 in
/-- The root directory is not listed a second time, and a call whose filler refuses an entry does not
return `0`. -/
theorem op_readdir_lists_fails : Lists 0 (listFs rootDisk) ∧
    (¬∃ fuel, Runs (list_twice rootSb 0 (fun _ => 2) (fun _ => 2) fuel) (listFs rootDisk)
      (fun r _ => Complete 0 (listFs rootDisk) r.1 ∧ Complete 0 (listFs rootDisk) r.2)
      fun _ => False) ∧
    Runs (op_readdir rootSb 0 (fun n => decide (1 ≤ n)) 0) (listFs rootDisk)
      (fun r _ => r.1 = -ENOMEM) fun _ => False := by
  refine ⟨listFs_lists _, ?_, by decide +kernel⟩
  rintro ⟨fuel, hruns⟩
  have hfree := free_of_list_twice (listFs_lists rootDisk) hruns
  have hlive : ¬∀ e ∈ (listFs rootDisk).entries 0, e.inum = 0 := by decide +kernel
  exact hlive hfree

end Xv6fs
