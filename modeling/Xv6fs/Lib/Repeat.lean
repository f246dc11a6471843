import Xv6fs.Lib.Program

/-! How often in a row a program succeeds. -/

namespace Program

variable {σ ε : Type} {m : StateT σ (Except ε) Bool} {n k : Nat} {s : σ}

/-- From `s` on `n` runs of `m` in a row succeed, and the next one does not. -/
inductive Succeeds (m : StateT σ (Except ε) Bool) : Nat → σ → Prop
  | ends {s : σ} : (∀ s', m s ≠ .ok (true, s')) → Succeeds m 0 s
  | next {n : Nat} {s s' : σ} : m s = .ok (true, s') → Succeeds m n s' → Succeeds m (n + 1) s

theorem Succeeds.unique (h : Succeeds m n s) (h' : Succeeds m k s) : n = k := by
  induction h generalizing k with
  | ends hends =>
    cases h' with
    | ends _ => rfl
    | next hrun _ => exact absurd hrun (hends _)
  | next hrun _ ih =>
    cases h' with
    | ends hends => exact absurd hrun (hends _)
    | next hrun' hrest =>
      rw [hrun] at hrun'
      cases hrun'
      rw [ih hrest]

/-- No more runs succeed than there is of what each of them takes. -/
theorem Succeeds.le_measure (measure : σ → Nat)
    (hm : ∀ s, Runs m s (fun r s' => r = true → measure s' < measure s) fun _ => True)
    (h : Succeeds m n s) : n ≤ measure s := by
  induction h with
  | ends _ => exact Nat.zero_le _
  | @next n s s' hrun _ ih =>
    have hlt := (hm s).of_ok hrun rfl
    omega

/-- As many runs succeed as there is of what each of them takes one of. -/
theorem succeeds_measure (measure : σ → Nat) {P : σ → Prop}
    (hm : ∀ s, P s → Runs m s (fun r s' => P s' ∧
      if r = true then measure s = measure s' + 1 else measure s = 0) fun _ => False)
    (h : P s) : Succeeds m (measure s) s := by
  generalize hn : measure s = n
  induction n generalizing s with
  | zero =>
    apply Succeeds.ends
    intro s' hrun
    have hs' := ((hm s h).of_ok hrun).2
    rw [if_pos rfl] at hs'
    omega
  | succ n ih =>
    obtain ⟨r, s', hrun, h', hs'⟩ := (hm s h).returns
    cases r with
    | false =>
      rw [if_neg Bool.false_ne_true] at hs'
      omega
    | true =>
      rw [if_pos rfl] at hs'
      exact .next hrun (ih h' (by omega))

end Program
