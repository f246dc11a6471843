import Mathlib

/-! Histories of updates of a store by several parties, and the store that the updates of some of
the parties leave, in the order of the history. -/

namespace Replay

open Function (update update_self update_of_ne)

variable {ι κ β : Type*} [DecidableEq κ]

/-- An update of one key by a party. -/
abbrev Event (ι κ β : Type*) := ι × κ × (β → β)

/-- The store after the events of the parties that `P` holds of. -/
def replay (P : ι → Bool) (es : List (Event ι κ β)) (d : κ → β) : κ → β :=
  es.foldl (fun d e => if P e.1 then update d e.2.1 (e.2.2 (d e.2.1)) else d) d

variable {P Q : ι → Bool} {es : List (Event ι κ β)} {e : Event ι κ β} {d : κ → β}

theorem replay_snoc_of_not (h : P e.1 = false) : replay P (es ++ [e]) d = replay P es d := by
  simp [replay, List.foldl_append, h]

theorem replay_snoc_self (h : P e.1 = true) :
    replay P (es ++ [e]) d e.2.1 = e.2.2 (replay P es d e.2.1) := by
  simp [replay, List.foldl_append, h]

theorem replay_snoc_ne {k : κ} (h : k ≠ e.2.1) : replay P (es ++ [e]) d k = replay P es d k := by
  simp only [replay, List.foldl_append, List.foldl_cons, List.foldl_nil]
  split
  · rw [update_of_ne h]
  · rfl

/-- Only the parties of the events matter. -/
theorem replay_congr (h : ∀ e ∈ es, P e.1 = Q e.1) : replay P es d = replay Q es d := by
  induction es generalizing d with
  | nil => rfl
  | cons e es ih =>
    simp only [replay, List.foldl_cons, h e List.mem_cons_self]
    exact ih fun e he => h e (List.mem_cons_of_mem _ he)

/-- Without any of the parties of the events the store is as it was. -/
theorem replay_none (h : ∀ e ∈ es, P e.1 = false) : replay P es d = d := by
  induction es generalizing d with
  | nil => rfl
  | cons e es ih =>
    simp only [replay, List.foldl_cons, h e List.mem_cons_self]
    exact ih fun e he => h e (List.mem_cons_of_mem _ he)

end Replay
