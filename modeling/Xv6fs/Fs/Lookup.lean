import Xv6fs.Fs.Entries

/-! Lookups in directories and along paths, on the abstract state. -/

namespace Xv6fs

open Program (Runs)

variable {sb : SuperBlock} {s s' : Fs} {x y i : Nat} {name : List UInt8} {dir : List DirEntry}

/-! ### The entries of a directory -/

theorem findEntry_some {i : Nat} (h : findEntry dir name = some i) :
    i < dir.length ∧ (dir.getD i .zero).Live ∧ (dir.getD i .zero).str = name := by
  obtain ⟨hlt, hp, -⟩ := List.findIdx?_eq_some_iff_getElem.mp h
  rw [List.getD_eq_getElem _ _ hlt]
  simp only [Bool.and_eq_true, bne_iff_ne, beq_iff_eq] at hp
  exact ⟨hlt, hp.1, hp.2⟩

/-- The first entry of that name, when those before it have other names. -/
theorem findEntry_eq_some {i : Nat} (hlt : i < dir.length) (hlive : dir[i].Live)
    (hstr : dir[i].str = name)
    (hbefore : ∀ j (hj : j < dir.length), j < i → ¬(dir[j].Live ∧ dir[j].str = name)) :
    findEntry dir name = some i := by
  refine List.findIdx?_eq_some_iff_getElem.mpr ⟨hlt, ?_, fun j hj => ?_⟩
  · simp only [Bool.and_eq_true, bne_iff_ne, beq_iff_eq]
    exact ⟨hlive, hstr⟩
  · have := hbefore j (Nat.lt_trans hj hlt) hj
    simp only [DirEntry.Live] at this
    simpa using this

theorem findEntry_eq_none :
    findEntry dir name = none ↔ ∀ e ∈ dir, ¬(e.Live ∧ e.str = name) := by
  rw [findEntry, List.findIdx?_eq_none_iff]
  simp [DirEntry.Live]

theorem entryInum_lt {n : Nat} (hi : i < dir.length) (h : ∀ e ∈ dir, e.inum.toNat < n) :
    entryInum dir i < n := by
  rw [entryInum, List.getD_eq_getElem _ _ hi]
  exact h _ (List.getElem_mem hi)

/-! ### `dirlookup` and `dirlink` -/

/-- What `dirlookup` finds in directory `x`, with what it leaves. -/
def Looked (sb : SuperBlock) (x : Nat) (name : List UInt8) (s : Fs) (r : Option (Nat × Nat))
    (s' : Fs) : Prop :=
  match r with
  | none => findEntry ((s.abs sb).node x).dir name = none ∧ Reads sb s s' (s.abs sb)
  | some (ip, off) => ∃ i, findEntry ((s.abs sb).node x).dir name = some i ∧
      ip = entryInum ((s.abs sb).node x).dir i ∧ off = i * DIRENT_SIZE ∧ ip < sb.ninodes ∧
      Reads sb s s' ((s.abs sb).get ip)

theorem Wf.dirlookup_loop (h : Wf sb s) (name : List UInt8) (hx : (s.inodes x).dinode.type = FileType.T_DIR)
    (fuel i : Nat) (hfuel : ((s.abs sb).node x).dir.length ≤ i + fuel)
    (hbefore : ∀ j (hj : j < ((s.abs sb).node x).dir.length), j < i →
      ¬((((s.abs sb).node x).dir[j]).Live ∧ (((s.abs sb).node x).dir[j]).str = name)) :
    Does sb (INode.dirlookup_loop sb x name fuel (i * DIRENT_SIZE)) s (Looked sb x name s) := by
  have hnone : ((s.abs sb).node x).dir.length ≤ i →
      findEntry ((s.abs sb).node x).dir name = none := by
    intro hle
    rw [findEntry_eq_none]
    intro e he
    obtain ⟨j, hj, rfl⟩ := List.getElem_of_mem he
    exact hbefore j hj (by omega)
  induction fuel generalizing s i with
  | zero => exact .pure h ⟨hnone (by omega), rfl, rfl⟩
  | succ fuel ih =>
    have hd := h.dir hx
    have hlen := hd.length
    rw [INode.dirlookup_loop]
    refine .get_bind (.ite (fun hlt => ?_) fun hge => ?_)
    · have hi : i < ((s.abs sb).node x).dir.length := by
        have := hd.aligned
        simp only [DIRENT_SIZE] at *
        omega
      refine (h.read_entry hx hi).bind ?_
      rintro ⟨n, buf⟩ s1 h1 ⟨hr, hinodes, hn, hload⟩
      refine .assert_bind ⟨by decide, by decide⟩ fun _ => ?_
      dsimp only at hload ⊢
      rw [hload]
      have hnext : ¬((((s.abs sb).node x).dir[i]).Live ∧
            (((s.abs sb).node x).dir[i]).str = name) →
          Does sb (INode.dirlookup_loop sb x name fuel (i * DIRENT_SIZE + DIRENT_SIZE)) s1
            (Looked sb x name s) := by
        intro hno
        have habs := hr.abs
        have hstep := ih h1 (i := i + 1) (by rw [hinodes]; exact hx) (by rw [habs]; omega)
          (by
            rw [habs]
            intro j hj hji
            by_cases hji' : j = i
            · subst hji'
              exact hno
            · exact hbefore j hj (by omega))
          (by
            rw [habs]
            intro hle
            rw [findEntry_eq_none]
            intro e he
            obtain ⟨j, hj, rfl⟩ := List.getElem_of_mem he
            by_cases hji' : j = i
            · subst hji'
              exact hno
            · exact hbefore j hj (by omega))
        rw [Nat.succ_mul] at hstep
        refine hstep.imp fun r s2 _ hlook => ?_
        unfold Looked at *
        rw [habs] at hlook
        cases r with
        | none => exact ⟨hlook.1, hlook.2.abs, hlook.2.blocks.trans hr.blocks⟩
        | some p =>
          obtain ⟨j, hj1, hj2, hj3, hj4, hj5⟩ := hlook
          exact ⟨j, hj1, hj2, hj3, hj4, hj5.abs, hj5.blocks.trans hr.blocks⟩
      refine .ite (fun h0 => hnext fun hlive => hlive.1 h0) fun hlive => ?_
      have hin := hd.inums _ (List.getElem_mem hi)
      split
      · exact .throw ⟨by decide, by decide⟩
      · next hcmp =>
        have hstr : (((s.abs sb).node x).dir[i]).str = name := by
          unfold strcmp at hcmp
          split at hcmp
          · cases hcmp
          · exact (beq_iff_eq.mp (Option.some.inj hcmp)).symm
        refine (h1.inode_get hin).bind fun _ s2 h2 hr2 => .pure h2 ?_
        refine ⟨i, ?_, ?_, rfl, hin, ?_, hr2.blocks.trans hr.blocks⟩
        · exact findEntry_eq_some hi hlive hstr hbefore
        · rw [entryInum, List.getD_eq_getElem _ _ hi]
        · rw [hr2.abs, hr.abs]
      · next hcmp =>
        refine hnext fun hl => ?_
        unfold strcmp at hcmp
        split at hcmp
        · cases hcmp
        · have hne : name ≠ (((s.abs sb).node x).dir[i]).str := by simpa using hcmp
          exact hne hl.2.symm
    · refine .pure h ⟨hnone ?_, rfl, rfl⟩
      simp only [DIRENT_SIZE] at *
      omega

/-- A directory that has been read, by the abstract state. -/
def AbsFs.OpenDir (a : AbsFs) (x : Nat) : Prop :=
  (a.node x).type = FileType.T_DIR ∧ ∃ n, a.mem x = some n

theorem Wf.open_dir (h : Wf sb s) :
    (s.abs sb).OpenDir x ↔ (s.inodes x).dinode.type = FileType.T_DIR := by
  constructor
  · rintro ⟨ht, n, hm⟩
    rw [h.type_eq (valid_of_mem hm).1, ht]
  · intro ht
    obtain ⟨hv, ht'⟩ := h.dir_valid ht
    exact ⟨ht', _, abs_mem_valid sb hv⟩

theorem Wf.dirlookup (h : Wf sb s) (x : Nat) (name : List UInt8) :
    Does sb (INode.dirlookup sb x name) s fun r s' =>
      (s.abs sb).OpenDir x ∧ Looked sb x name s r s' := by
  refine (h.record (.access x)).bind fun _ s1 h1 hr => .get_bind ?_
  refine .assert_bind ⟨by decide, by decide⟩ fun ht => ?_
  have hopen := h1.open_dir.mpr ht
  have hfuel : ((s1.abs sb).node x).dir.length ≤ 0 + (s1.inodes x).dinode.size.toNat := by
    rw [(h1.dir ht).length, Nat.zero_add]
    exact Nat.div_le_self _ _
  have hloop := h1.dirlookup_loop name ht (s1.inodes x).dinode.size.toNat 0 hfuel
    fun _ _ hj => absurd hj (Nat.not_lt_zero _)
  rw [Nat.zero_mul] at hloop
  refine hloop.imp fun r s2 _ hlook => ⟨hr.abs ▸ hopen, ?_⟩
  unfold Looked at *
  rw [hr.abs] at hlook
  cases r with
  | none => exact ⟨hlook.1, hlook.2.abs, hlook.2.blocks.trans hr.blocks⟩
  | some p =>
    obtain ⟨i, h1, h2, h3, h4, h5⟩ := hlook
    exact ⟨i, h1, h2, h3, h4, h5.abs, h5.blocks.trans hr.blocks⟩

theorem freeSlot_le (dir : List DirEntry) : freeSlot dir ≤ dir.length := List.findIdx_le_length

/-- The first entry that names no inode, when those before it are live. -/
theorem freeSlot_eq (hle : i ≤ dir.length)
    (hbefore : ∀ j (hj : j < dir.length), j < i → dir[j].Live)
    (hfree : ∀ hi : i < dir.length, ¬dir[i].Live) : freeSlot dir = i := by
  have hlive : ∀ j (hj : j < dir.length), j < i → (dir[j].inum == 0) = false := fun j hj hji => by
    have := hbefore j hj hji
    simpa [DirEntry.Live] using this
  obtain hi | rfl := Nat.lt_or_eq_of_le hle
  · refine (List.findIdx_eq hi).mpr ⟨?_, fun j hj => hlive j (Nat.lt_trans hj hi) hj⟩
    have := hfree hi
    simpa [DirEntry.Live] using this
  · refine List.findIdx_eq_length.mpr fun e he => ?_
    obtain ⟨j, hj, rfl⟩ := List.getElem_of_mem he
    exact hlive j hj hj

/-- The loop of `dirlink` finds the first entry that names no inode. -/
theorem Listing.dirlink_slot (sb : SuperBlock) (h : Listing s x dir) (fuel i : Nat) (hfuel : dir.length ≤ i + fuel)
    (hi : i ≤ dir.length) (hbefore : ∀ j (hj : j < dir.length), j < i → dir[j].Live)
    {E : Fault → Prop} :
    Runs (INode.dirlink_slot sb x fuel (i * DIRENT_SIZE)) s (fun off s' =>
      off = freeSlot dir * DIRENT_SIZE ∧ ∃ t, s' = { s with trace := t }) E := by
  induction fuel generalizing s i with
  | zero =>
    refine ⟨?_, s.trace, rfl⟩
    rw [freeSlot_eq hi hbefore fun hlt => absurd hlt (by omega)]
  | succ fuel ih =>
    have hlen := h.length
    have hal := h.aligned
    rw [INode.dirlink_slot, Program.runs_bind, Program.runs_get, Program.runs_ite]
    constructor
    · intro hlt
      have hi' : i < dir.length := by
        simp only [DIRENT_SIZE] at *
        omega
      refine (h.read hi').bind ?_
      rintro ⟨n, buf⟩ s1 ⟨hs1, hn, hload⟩
      dsimp only at hn hload
      rw [Program.runs_bind, Program.runs_assert]
      refine ⟨fun _ => ?_, fun hno => absurd hn hno⟩
      rw [hload, Program.runs_ite]
      constructor
      · intro h0
        refine ⟨?_, _, hs1⟩
        rw [freeSlot_eq hi hbefore fun _ hl => hl h0]
      · intro hlive
        have hstep := ih (s := s1) (by rw [hs1]; exact ⟨h.type, h.solid, h.aligned, h.entries⟩)
          (i + 1) (by omega) (by omega) fun j hj hji => by
            by_cases heq : j = i
            · subst heq
              exact hlive
            · exact hbefore j hj (by omega)
        rw [Nat.succ_mul] at hstep
        refine hstep.imp ?_
        rintro off s2 ⟨hoff, t, hs2⟩
        refine ⟨hoff, t, ?_⟩
        rw [hs2, hs1]
    · intro hge
      refine ⟨?_, s.trace, rfl⟩
      rw [freeSlot_eq hi hbefore fun hlt => absurd hlt (by
        simp only [DIRENT_SIZE] at *
        omega)]

theorem Listing.dirlink_slot_start (h : Listing s x dir) {E : Fault → Prop} :
    Runs (INode.dirlink_slot sb x (s.inodes x).dinode.size.toNat 0) s (fun off s' =>
      off = freeSlot dir * DIRENT_SIZE ∧ ∃ t, s' = { s with trace := t }) E := by
  have hfuel : dir.length ≤ 0 + (s.inodes x).dinode.size.toNat := by
    rw [h.length, Nat.zero_add]
    exact Nat.div_le_self _ _
  have hslot := h.dirlink_slot sb (E := E) (s.inodes x).dinode.size.toNat 0 hfuel
    (Nat.zero_le _) fun _ _ hj => absurd hj (Nat.not_lt_zero _)
  rwa [Nat.zero_mul] at hslot

theorem Wf.dirlink_slot (h : Wf sb s) (hx : (s.inodes x).dinode.type = FileType.T_DIR) :
    Does sb (INode.dirlink_slot sb x (s.inodes x).dinode.size.toNat 0) s fun off s' =>
      off = freeSlot ((s.abs sb).node x).dir * DIRENT_SIZE ∧ Reads sb s s' (s.abs sb) := by
  refine ((h.dir hx).listing hx).dirlink_slot_start.imp ?_
  rintro off s' ⟨hoff, t, hs'⟩
  subst hs'
  exact ⟨h.congr rfl rfl, hoff, rfl, rfl⟩

/-- What `dirlink` of the entry `(name, inum)` in directory `x` does. -/
inductive Linked (sb : SuperBlock) (a : AbsFs) (x : Nat) (name : List UInt8) (inum : Nat) :
    Bool → AbsFs → Prop
  | exists_ {i : Nat} (h : findEntry (a.node x).dir name = some i) :
      Linked sb a x name inum false
        ((a.get (entryInum (a.node x).dir i)).put (entryInum (a.node x).dir i))
  | tried {b : Bool} {a' : AbsFs} (h : findEntry (a.node x).dir name = none)
      (hstep : a.EntryStep sb x (freeSlot (a.node x).dir) ⟨UInt16.ofNat inum, strncpy name⟩ b a') :
      Linked sb a x name inum b a'

theorem Wf.dirlink (hl : Layout sb) (h : Wf sb s) (ho : s.outstanding ≥ 1) (x : Nat)
    (name : List UInt8) {inum : Nat} (hinum : inum < sb.ninodes) :
    Does sb (INode.dirlink sb x name inum) s fun r s' =>
      (s.abs sb).OpenDir x ∧ Linked sb (s.abs sb) x name inum r (s'.abs sb) := by
  refine (h.record (.access x)).bind fun _ s1 h1 hr => ?_
  refine (h1.dirlookup x name).bind ?_
  rintro r s2 h2 ⟨hopen, hlook⟩
  have ho1 : s1.outstanding = s.outstanding := congrArg AbsFs.outstanding hr.abs
  rw [hr.abs] at hopen
  cases r with
  | some p =>
    obtain ⟨ip, off⟩ := p
    obtain ⟨i, hi1, hi2, -, -, hr2⟩ := hlook
    rw [hr.abs] at hi1 hi2
    have ho2 : s2.outstanding = s1.outstanding := congrArg AbsFs.outstanding hr2.abs
    refine (h2.inode_put hl (by omega) ip).bind ?_
    rintro _ s3 h3 ⟨hput, _⟩
    refine .pure h3 ⟨hopen, ?_⟩
    rw [hput, hr2.abs, hr.abs, hi2]
    exact .exists_ hi1
  | none =>
    obtain ⟨hnone, hr2⟩ := hlook
    rw [hr.abs] at hnone
    have ho2 : s2.outstanding = s1.outstanding := congrArg AbsFs.outstanding hr2.abs
    have habs2 : s2.abs sb = s.abs sb := hr2.abs.trans hr.abs
    have hx2 := h2.open_dir.mp (habs2 ▸ hopen)
    dsimp only
    refine .get_bind ?_
    refine (h2.dirlink_slot hx2).bind ?_
    rintro off s3 h3 ⟨hoff, hr3⟩
    have ho3 : s3.outstanding = s2.outstanding := congrArg AbsFs.outstanding hr3.abs
    have habs3 : s3.abs sb = s.abs sb := hr3.abs.trans habs2
    have hx3 := h3.open_dir.mp (habs3 ▸ hopen)
    have hload := DirEntry.load_bytes ⟨UInt16.ofNat inum, strncpy name⟩
    rw [habs2, ← habs3] at hoff
    rw [hoff]
    refine (h3.write_entry hl (by omega) hx3 (freeSlot_le _) (by
      rw [hload]
      exact Nat.lt_of_le_of_lt (by
        rw [UInt16.toNat_ofNat']
        exact Nat.mod_le _ _) hinum)).bind fun n s4 h4 hw => .pure h4 ⟨hopen, ?_⟩
    rw [habs3, hload] at hw
    exact .tried hnone hw

/-! ### Paths -/

theorem Wf.unlock_put (hl : Layout sb) (h : Wf sb s) (ho : s.outstanding ≥ 1) (x : Nat) :
    Does sb (inode_unlock_put sb x) s fun _ s' => s'.abs sb = (s.abs sb).put x ∧
      (¬((s.abs sb).ref x = 1 ∧ (s.abs sb).mem x = some 0) → s'.blocks = s.blocks) := by
  refine (h.unlock x).bind fun _ s1 h1 hr => ?_
  have ho1 : s1.outstanding = s.outstanding := congrArg AbsFs.outstanding hr.abs
  refine (h1.inode_put hl (by omega) x).imp ?_
  rintro _ s2 _ ⟨hput, hb⟩
  rw [hr.abs] at hput hb
  exact ⟨hput, fun hno => (hb hno).trans hr.blocks⟩

/-- The state between two steps of an operation that has changed nothing since `s0`. -/
structure Since (sb : SuperBlock) (s0 s : Fs) (held : List Nat) : Prop where
  during : During (s0.abs sb) (s.abs sb) held
  blocks : (∀ x, ¬(s0.abs sb).Doomed x) → s.blocks = s0.blocks

namespace Since

variable {s0 : Fs} {held : List Nat}

theorem refl (s : Fs) : Since sb s s [] := ⟨.refl _, fun _ => rfl⟩

theorem outstanding (h : Since sb s0 s held) : s.outstanding = s0.outstanding :=
  h.during.outstanding

theorem reads (h : Since sb s0 s held) (hr : Reads sb s s' (s.abs sb)) : Since sb s0 s' held :=
  ⟨hr.abs ▸ h.during, fun hd => hr.blocks.trans (h.blocks hd)⟩

theorem perm {held' : List Nat} (h : Since sb s0 s held) (hp : held.Perm held') :
    Since sb s0 s held' := ⟨h.during.perm hp, h.blocks⟩

theorem get (h : Since sb s0 s held) (hr : Reads sb s s' ((s.abs sb).get x))
    (hx : (s0.abs sb).Reached x) : Since sb s0 s' (x :: held) :=
  ⟨hr.abs ▸ h.during.get hx, fun hd => hr.blocks.trans (h.blocks hd)⟩

theorem put (h : Since sb s0 s held) (h0 : Wf sb s0) (hs : Wf sb s) (hx : x ∈ held)
    (hput : s'.abs sb = (s.abs sb).put x)
    (hb : ¬((s.abs sb).ref x = 1 ∧ (s.abs sb).mem x = some 0) → s'.blocks = s.blocks) :
    Since sb s0 s' (held.erase x) where
  during := hput ▸ h.during.put h0.normal hs.normal hx
  blocks hd := (hb fun hfree =>
    hd x (h.during.doomed h0.normal (hs.normal.alloc x 0 hfree.2) hx hfree).1).trans (h.blocks hd)

/-- The end of the reference that was taken last. -/
theorem put_head (h : Since sb s0 s (x :: held)) (h0 : Wf sb s0) (hs : Wf sb s)
    (hput : s'.abs sb = (s.abs sb).put x)
    (hb : ¬((s.abs sb).ref x = 1 ∧ (s.abs sb).mem x = some 0) → s'.blocks = s.blocks) :
    Since sb s0 s' held := by
  have hs' := h.put h0 hs List.mem_cons_self hput hb
  rwa [List.erase_cons_head] at hs'

/-- The end of the reference before the last. -/
theorem put_second (h : Since sb s0 s (y :: x :: held)) (h0 : Wf sb s0) (hs : Wf sb s)
    (hput : s'.abs sb = (s.abs sb).put x)
    (hb : ¬((s.abs sb).ref x = 1 ∧ (s.abs sb).mem x = some 0) → s'.blocks = s.blocks) :
    Since sb s0 s' (y :: held) :=
  (h.perm (List.Perm.swap x y held)).put_head h0 hs hput hb

/-- `lock` of an inode reads it, and it is as it was. -/
theorem lock (h : Since sb s0 s held) (hs' : Wf sb s')
    (hr : Reads sb s s' ((s.abs sb).load x) ∧ (s'.inodes x).valid = true ∧
      0 < (s.inodes x).ref) :
    Since sb s0 s' held ∧ (s0.abs sb).Alloc x ∧
      (s'.inodes x).dinode.type = ((s0.abs sb).node x).type ∧
      (s'.abs sb).mem x = some ((s0.abs sb).links x) := by
  obtain ⟨hr, hv, -⟩ := hr
  have hmem := abs_mem_valid sb hv
  have halloc := hs'.normal.alloc x _ hmem
  have halloc0 : (s.abs sb).Alloc x := by
    rw [hr.abs] at halloc
    exact halloc
  have hsince : Since sb s0 s' held :=
    ⟨hr.abs ▸ h.during.load halloc0, fun hd => hr.blocks.trans (h.blocks hd)⟩
  refine ⟨hsince, hsince.during.alloc_of halloc, ?_, ?_⟩
  · rw [hs'.type_eq hv, hsince.during.node_eq halloc]
  · rw [hmem, ← hsince.during.mem x _ hmem]

end Since

/-- The end of a walk along a path, while the references `held` are held. -/
structure Walked (sb : SuperBlock) (s0 : Fs) (held : List Nat) (r r' : Option (Nat × List UInt8))
    (s' : Fs) : Prop where
  since : Since sb s0 s' (r.toList.map Prod.fst ++ held)
  result : r = r'
  lt : ∀ p ∈ r, p.1 < sb.ninodes

theorem Wf.inode_name_loop (hl : Layout sb) (h : Wf sb s) {s0 : Fs} (h0 : Wf sb s0)
    {held : List Nat} (nameiparent : Bool) (fuel : Nat) {path name : List UInt8} {ip : Nat}
    (hfuel : path.length < fuel) (ho : s0.outstanding ≥ 1) (hip : ip < sb.ninodes)
    (hs : Since sb s0 s (ip :: held)) :
    Does sb (inode_name_loop sb nameiparent fuel path name ip) s fun r s' =>
      Walked sb s0 held r (resolve_loop (s0.abs sb).node nameiparent fuel path name ip) s' ∧
        (nameiparent = true → ∀ p ∈ r, (s'.abs sb).OpenDir p.1) := by
  induction fuel generalizing s path name ip with
  | zero => omega
  | succ fuel ih =>
    have ho1 : s.outstanding ≥ 1 := by rw [hs.outstanding]; exact ho
    cases hskip : skipelem path with
    | none =>
      simp only [Xv6fs.inode_name_loop, resolve_loop, hskip]
      refine .ite (fun hp => ?_) fun hp => ?_
      · refine (h.inode_put hl ho1 ip).bind ?_
        rintro _ s1 h1 ⟨hput, hb⟩
        refine .pure h1 ?_
        have hs1 := hs.put_head h0 h hput hb
        rw [if_pos hp]
        exact ⟨⟨hs1, rfl, fun p hp => by cases hp⟩, fun _ p hp => by cases hp⟩
      · rw [if_neg hp]
        exact .pure h ⟨⟨hs, rfl, fun p hp => by cases hp; exact hip⟩, fun hp' => absurd hp' hp⟩
    | some e =>
      obtain ⟨name', path'⟩ := e
      have hlen := skipelem_length hskip
      simp only [Xv6fs.inode_name_loop, resolve_loop, hskip]
      refine (h.lock ip).bind fun _ s1 h1 hlock => ?_
      obtain ⟨hs1, halloc, htype, hmem⟩ := hs.lock h1 hlock
      have ho1' : s1.outstanding ≥ 1 := by rw [hs1.outstanding]; exact ho
      refine .get_bind ?_
      rw [htype]
      have putnone : ∀ {s2 : Fs}, Wf sb s2 → s2.outstanding ≥ 1 → Since sb s0 s2 (ip :: held) →
          Does sb (do inode_unlock_put sb ip; pure none) s2 fun r s' =>
            Walked sb s0 held r none s' ∧
              (nameiparent = true → ∀ p ∈ r, (s'.abs sb).OpenDir p.1) := by
        intro s2 h2 ho2 hs2
        refine (h2.unlock_put hl ho2 ip).bind ?_
        rintro _ s3 h3 ⟨hput, hb⟩
        refine .pure h3 ?_
        have hs3 := hs2.put_head h0 h2 hput hb
        exact ⟨⟨hs3, rfl, fun p hp => by cases hp⟩, fun _ p hp => by cases hp⟩
      refine .ite (fun hnd => ?_) fun hdir => ?_
      · rw [if_pos hnd]
        exact putnone h1 ho1' hs1
      · rw [if_neg hdir]
        refine .ite (fun hp => ?_) fun hp => ?_
        · rw [if_pos hp]
          refine (h1.unlock ip).bind fun _ s2 h2 hr => .pure h2 ?_
          refine ⟨⟨hs1.reads hr, rfl, fun p hp => by cases hp; exact hip⟩, fun _ p hp => ?_⟩
          cases hp
          rw [hr.abs]
          exact h1.open_dir.mpr (htype.trans (not_not.mp hdir))
        · rw [if_neg hp]
          refine (h1.dirlookup ip name').bind ?_
          rintro r s2 h2 ⟨_, hlook⟩
          have hnode : (s1.abs sb).node ip = (s0.abs sb).node ip := by
            refine hs1.during.node_eq ?_
            exact h1.normal.alloc ip _ hmem
          cases r with
          | none =>
            obtain ⟨hnone, hr⟩ := hlook
            rw [hnode] at hnone
            rw [hnone]
            have hs2 := hs1.reads hr
            exact putnone h2 (by rw [hs2.outstanding]; exact ho) hs2
          | some p =>
            obtain ⟨next, off⟩ := p
            obtain ⟨i, hi, hnext, -, hlt, hr⟩ := hlook
            rw [hnode] at hi hnext
            rw [hi]
            have hreached : (s0.abs sb).Reached next := by
              rw [hnext]
              exact .entry (hs1.during.reached ip List.mem_cons_self) (not_not.mp hdir) hi
            have hs2 := hs1.get hr hreached
            have ho2 : s2.outstanding ≥ 1 := by rw [hs2.outstanding]; exact ho
            refine (h2.unlock_put hl ho2 ip).bind ?_
            rintro _ s3 h3 ⟨hput, hb⟩
            have hs3 := hs2.put_second h0 h2 hput hb
            dsimp only
            rw [← hnext]
            exact ih h3 (by omega) hlt hs3

theorem Wf.inode_name_x (hl : Layout sb) (h : Wf sb s) (hroot : ROOTINO < sb.ninodes) {s0 : Fs}
    (h0 : Wf sb s0) {held : List Nat} (ho : s0.outstanding ≥ 1) (hs : Since sb s0 s held)
    (path : List UInt8) (nameiparent : Bool) :
    Does sb (inode_name_x sb path nameiparent) s fun r s' =>
      Walked sb s0 held r
        (resolve_loop (s0.abs sb).node nameiparent (path.length + 1) path [] ROOTINO) s' ∧
        (nameiparent = true → ∀ p ∈ r, (s'.abs sb).OpenDir p.1) := by
  refine .assert_bind ⟨by decide, by decide⟩ fun _ => ?_
  refine (h.inode_get hroot).bind fun _ s1 h1 hr => ?_
  exact h1.inode_name_loop hl h0 nameiparent _ (Nat.lt_succ_self _) ho hroot (hs.get hr .root)

/-- `inode_name` finds what the path resolves to. -/
theorem Wf.inode_name (hl : Layout sb) (h : Wf sb s) (hroot : ROOTINO < sb.ninodes) {s0 : Fs}
    (h0 : Wf sb s0) {held : List Nat} (ho : s0.outstanding ≥ 1) (hs : Since sb s0 s held)
    (path : List UInt8) :
    Does sb (inode_name sb path) s fun r s' => r = resolve (s0.abs sb).node path ∧
      Since sb s0 s' (r.toList ++ held) ∧ ∀ x ∈ r, x < sb.ninodes := by
  refine (h.inode_name_x hl hroot h0 ho hs path false).bind ?_
  rintro r s1 h1 ⟨hw, _⟩
  refine .pure h1 ?_
  refine ⟨by rw [resolve, ← hw.result], ?_, fun x hx => ?_⟩
  · have hsince := hw.since
    cases r <;> exact hsince
  · obtain ⟨p, hp, rfl⟩ := Option.map_eq_some_iff.mp hx
    exact hw.lt p hp

/-- `inode_name_parent` finds the directory that the path resolves to, and has read it. -/
theorem Wf.inode_name_parent (hl : Layout sb) (h : Wf sb s) (hroot : ROOTINO < sb.ninodes) {s0 : Fs}
    (h0 : Wf sb s0) {held : List Nat} (ho : s0.outstanding ≥ 1) (hs : Since sb s0 s held)
    (path : List UInt8) :
    Does sb (inode_name_parent sb path) s fun r s' => r = resolveParent (s0.abs sb).node path ∧
      Since sb s0 s' (r.toList.map Prod.fst ++ held) ∧
      ∀ p ∈ r, p.1 < sb.ninodes ∧ (s'.abs sb).OpenDir p.1 := by
  refine (h.inode_name_x hl hroot h0 ho hs path true).imp ?_
  rintro r s1 _ ⟨hw, hopen⟩
  exact ⟨hw.result, hw.since, fun p hp => ⟨hw.lt p hp, hopen rfl p hp⟩⟩

end Xv6fs
