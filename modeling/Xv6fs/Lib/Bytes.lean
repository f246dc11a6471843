import Mathlib

/-! Byte buffers of a fixed length, the copy of a range of bytes into one, and the little-endian
words that a buffer holds.  A source of bytes is a function from offsets, as a pointer is. -/

namespace Bytes

/-- The bytes from a pointer on. -/
abbrev Source := Nat → UInt8

/-- The 16-bit word at the start of `src`. -/
def word16 (src : Source) : UInt16 :=
  UInt16.ofNat ((src 0).toNat + 256 * (src 1).toNat)

/-- The 32-bit word at the start of `src`. -/
def word32 (src : Source) : UInt32 :=
  UInt32.ofNat ((src 0).toNat + 256 * ((src 1).toNat + 256 * ((src 2).toNat + 256 * (src 3).toNat)))

/-- The bytes of a 16-bit word. -/
def bytes16 (v : UInt16) : Source := fun i => UInt8.ofNat (v.toNat / 256 ^ i)

/-- The bytes of a 32-bit word. -/
def bytes32 (v : UInt32) : Source := fun i => UInt8.ofNat (v.toNat / 256 ^ i)

theorem word16_bytes16 (v : UInt16) : word16 (bytes16 v) = v := by
  apply UInt16.toNat_inj.mp
  have hv := v.toNat_lt
  simp only [word16, bytes16, UInt16.toNat_ofNat', UInt8.toNat_ofNat']
  omega

theorem word32_bytes32 (v : UInt32) : word32 (bytes32 v) = v := by
  apply UInt32.toNat_inj.mp
  have hv := v.toNat_lt
  simp only [word32, bytes32, UInt32.toNat_ofNat', UInt8.toNat_ofNat']
  omega

theorem word16_congr {a b : Source} (h : ∀ i < 2, a i = b i) : word16 a = word16 b := by
  simp only [word16, h 0 (by omega), h 1 (by omega)]

theorem word32_congr {a b : Source} (h : ∀ i < 4, a i = b i) : word32 a = word32 b := by
  simp only [word32, h 0 (by omega), h 1 (by omega), h 2 (by omega), h 3 (by omega)]

/-- The bytes `l` after a copy of `len` bytes of `src`, from its offset `k` on, to offset `off`. -/
def overlay (src : Source) : (l : List UInt8) → (off len k : Nat) → List UInt8
  | [], _, _, _ => []
  | a :: l, off + 1, len, k => a :: overlay src l off len k
  | a :: l, 0, 0, _ => a :: l
  | _ :: l, 0, len + 1, k => src k :: overlay src l 0 len (k + 1)

theorem length_overlay (src : Source) (l : List UInt8) (off len k : Nat) :
    (overlay src l off len k).length = l.length := by
  induction l generalizing off len k with
  | nil => rfl
  | cons a l ih =>
    cases off with
    | succ off => simp only [overlay, List.length_cons, ih]
    | zero =>
      cases len with
      | zero => rfl
      | succ len => simp only [overlay, List.length_cons, ih]

theorem getD_overlay (src : Source) (l : List UInt8) (off len k : Nat) {i : Nat}
    (hi : i < l.length) : (overlay src l off len k).getD i 0 =
      if off ≤ i ∧ i < off + len then src (k + (i - off)) else l.getD i 0 := by
  induction l generalizing off len k i with
  | nil => exact absurd hi (Nat.not_lt_zero i)
  | cons a l ih =>
    cases off with
    | succ off =>
      cases i with
      | zero => simp [overlay]
      | succ i =>
        simp only [overlay, List.getD_cons_succ]
        rw [ih off len k (Nat.lt_of_succ_lt_succ hi)]
        simp only [Nat.add_le_add_iff_right, Nat.add_right_comm off 1 len, Nat.add_lt_add_iff_right,
          Nat.add_sub_add_right]
    | zero =>
      cases len with
      | zero => simp [overlay]
      | succ len =>
        cases i with
        | zero => simp [overlay]
        | succ i =>
          simp only [overlay, List.getD_cons_succ]
          rw [ih 0 len (k + 1) (Nat.lt_of_succ_lt_succ hi)]
          simp only [Nat.zero_le, true_and, Nat.zero_add, Nat.sub_zero, Nat.add_lt_add_iff_right]
          rw [Nat.add_assoc, Nat.add_comm 1 i]

/-- A buffer of `n` bytes. -/
@[ext] structure Buffer (n : Nat) where
  data : List UInt8
  length_eq : data.length = n

namespace Buffer

variable {n : Nat}

/-- Byte `i`, and `0` past the end. -/
def get (b : Buffer n) (i : Nat) : UInt8 := b.data.getD i 0

theorem ext_get {a b : Buffer n} (h : ∀ i < n, a.get i = b.get i) : a = b := by
  refine Buffer.ext (List.ext_getElem (a.length_eq.trans b.length_eq.symm) fun i ha hb => ?_)
  have := h i (a.length_eq ▸ ha)
  simpa only [get, List.getD_eq_getElem _ _ ha, List.getD_eq_getElem _ _ hb] using this

/-- The buffer of the first `n` bytes of `src`. -/
def ofSource (n : Nat) (src : Source) : Buffer n :=
  ⟨(List.range' 0 n).map src, by rw [List.length_map, List.length_range']⟩

theorem get_ofSource (src : Source) {i : Nat} (hi : i < n) : (ofSource n src).get i = src i := by
  rw [get, List.getD_eq_getElem _ _ (by rw [(ofSource n src).length_eq]; exact hi)]
  simp [ofSource]

/-- The buffer of zero bytes. -/
def zero (n : Nat) : Buffer n := ⟨List.replicate n 0, List.length_replicate⟩

@[simp] theorem get_zero (i : Nat) : (zero n).get i = 0 := by
  by_cases hi : i < n
  · simp [get, zero, hi]
  · simp [get, zero, hi]

theorem get_of_le (b : Buffer n) {i : Nat} (h : n ≤ i) : b.get i = 0 := by
  rw [get, List.getD_eq_default _ _ (by rw [b.length_eq]; exact h)]

/-- The buffer after a copy of `len` bytes of `src` to offset `off`. -/
def put (b : Buffer n) (off len : Nat) (src : Source) : Buffer n :=
  ⟨overlay src b.data off len 0, by rw [length_overlay, b.length_eq]⟩

theorem get_put (b : Buffer n) (off len : Nat) (src : Source) {i : Nat} (hi : i < n) :
    (b.put off len src).get i =
      if off ≤ i ∧ i < off + len then src (i - off) else b.get i := by
  have := getD_overlay src b.data off len 0 (by rw [b.length_eq]; exact hi)
  rwa [Nat.zero_add] at this

theorem get_put_of_mem (b : Buffer n) {off len : Nat} (src : Source) {i : Nat}
    (hfit : off + len ≤ n) (hi : i < len) : (b.put off len src).get (off + i) = src i := by
  rw [get_put b off len src (by omega), if_pos (by omega), Nat.add_sub_cancel_left]

theorem get_put_of_not_mem (b : Buffer n) {off len : Nat} (src : Source) {i : Nat}
    (h : i < off ∨ off + len ≤ i) : (b.put off len src).get i = b.get i := by
  by_cases hi : i < n
  · rw [get_put b off len src hi, if_neg (by omega)]
  · rw [get_of_le _ (by omega), get_of_le _ (by omega)]

/-- The 16-bit word at offset `off`. -/
def get16 (b : Buffer n) (off : Nat) : UInt16 := word16 fun i => b.get (off + i)

/-- The 32-bit word at offset `off`. -/
def get32 (b : Buffer n) (off : Nat) : UInt32 := word32 fun i => b.get (off + i)

/-- The buffer after a store of a 32-bit word at offset `off`. -/
def put32 (b : Buffer n) (off : Nat) (v : UInt32) : Buffer n := b.put off 4 (bytes32 v)

theorem get32_put32_same (b : Buffer n) {off : Nat} (v : UInt32) (h : off + 4 ≤ n) :
    (b.put32 off v).get32 off = v := by
  rw [get32, put32, word32_congr (b := bytes32 v) fun i hi => get_put_of_mem b _ h hi,
    word32_bytes32]

theorem get32_put_of_disjoint (b : Buffer n) {off off' len : Nat} (src : Source)
    (h : off' + 4 ≤ off ∨ off + len ≤ off') : (b.put off len src).get32 off' = b.get32 off' :=
  word32_congr fun i hi => get_put_of_not_mem b src (by omega)

theorem get32_put32_ne (b : Buffer n) {off off' : Nat} (v : UInt32)
    (h : off' + 4 ≤ off ∨ off + 4 ≤ off') : (b.put32 off v).get32 off' = b.get32 off' :=
  get32_put_of_disjoint b (bytes32 v) h

/-- A store of the word that is there changes nothing. -/
theorem put32_get32 (b : Buffer n) (off : Nat) : b.put32 off (b.get32 off) = b := by
  refine ext_get fun i hi => ?_
  rw [put32, get_put _ _ _ _ hi]
  split
  · next h =>
    obtain ⟨k, rfl⟩ : ∃ k, i = off + k := ⟨i - off, by omega⟩
    have hk : k < 4 := by omega
    have h0 := (b.get (off + 0)).toNat_lt
    have h1 := (b.get (off + 1)).toNat_lt
    have h2 := (b.get (off + 2)).toNat_lt
    have h3 := (b.get (off + 3)).toNat_lt
    apply UInt8.toNat_inj.mp
    simp only [get32, word32, bytes32, Nat.add_sub_cancel_left, UInt8.toNat_ofNat',
      UInt32.toNat_ofNat']
    rcases k with _ | _ | _ | _ | k <;> simp only [Nat.reduceAdd, Nat.reducePow] at * <;> omega
  · rfl

end Buffer

/-! ### Pieces -/

/-- The first `n` bytes from a pointer on. -/
def Source.list (buf : Source) (n : Nat) : List UInt8 := (List.range n).map buf

/-- The bytes `l` with `piece` over them from `off` on. -/
def splice (l : List UInt8) (off : Nat) (piece : List UInt8) : List UInt8 :=
  l.take off ++ piece ++ l.drop (off + piece.length)

theorem splice_nil (l : List UInt8) (off : Nat) : splice l off [] = l := by
  simp [splice]

theorem getD_splice {l piece : List UInt8} {off : Nat} (hoff : off ≤ l.length) (k : Nat) :
    (splice l off piece).getD k 0 =
      if off ≤ k ∧ k < off + piece.length then piece.getD (k - off) 0 else l.getD k 0 := by
  simp only [splice, List.getD_eq_getElem?_getD, List.getElem?_append, List.length_append,
    List.length_take, Nat.min_eq_left hoff, List.getElem?_take, List.getElem?_drop]
  by_cases hlo : k < off
  · rw [if_neg (by omega : ¬(off ≤ k ∧ k < off + piece.length)), if_pos (by omega), if_pos hlo,
      if_pos hlo]
  · by_cases hhi : k < off + piece.length
    · rw [if_pos hhi, if_neg hlo, if_pos ⟨by omega, hhi⟩]
    · rw [if_neg hhi, if_neg (by omega)]
      congr 2
      omega

/-- Where a piece has been put shows when its first byte is new there. -/
theorem splice_off_inj {l piece : List UInt8} {off off' : Nat} (hoff : off ≤ l.length)
    (hoff' : off' ≤ l.length) (hpos : 0 < piece.length)
    (hnew : piece.getD 0 0 ≠ l.getD (min off off') 0)
    (h : splice l off piece = splice l off' piece) : off = off' := by
  have hat := congrArg (fun l => l.getD (min off off') 0) h
  rw [getD_splice hoff, getD_splice hoff'] at hat
  obtain hlt | rfl | hlt := Nat.lt_trichotomy off off'
  · rw [Nat.min_eq_left (Nat.le_of_lt hlt)] at hat hnew
    rw [if_pos (by omega), if_neg (by omega), Nat.sub_self] at hat
    exact absurd hat hnew
  · rfl
  · rw [Nat.min_eq_right (Nat.le_of_lt hlt)] at hat hnew
    rw [if_neg (by omega), if_pos (by omega), Nat.sub_self] at hat
    exact absurd hat.symm hnew

/-- A piece of an array put over it, byte by byte. -/
theorem map_range_splice {f g : Nat → UInt8} {buf : Source} {size off tot : Nat}
    (hoff : off ≤ size) (h : ∀ o < max size (off + tot), g o =
      if off ≤ o ∧ o < off + tot then buf (o - off) else f o) :
    (List.range (max size (off + tot))).map g =
      splice ((List.range size).map f) off (Source.list buf tot) := by
  have hlen : (Source.list buf tot).length = tot := by simp [Source.list]
  refine List.ext_getElem ?_ fun o h1 h2 => ?_
  · simp [splice, hlen]
    omega
  · rw [List.length_map, List.length_range] at h1
    rw [List.getElem_map, List.getElem_range, h o h1]
    simp only [splice, hlen]
    by_cases hlo : o < off
    · rw [if_neg (by omega), List.getElem_append_left (by simp; omega),
        List.getElem_append_left (by simp; omega)]
      simp
    · by_cases hhi : o < off + tot
      · rw [if_pos (by omega), List.getElem_append_left (by simp [hlen]; omega),
          List.getElem_append_right (by simp; omega)]
        simp [Source.list, Nat.min_eq_left hoff]
      · rw [if_neg (by omega), List.getElem_append_right (by simp [hlen]; omega)]
        simp [hlen, Nat.min_eq_left hoff]
        congr 1
        omega

end Bytes
