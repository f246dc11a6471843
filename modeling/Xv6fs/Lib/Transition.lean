import Mathlib

/-! Transition systems whose steps are actions: the states that admitted steps reach, the induction
that proves an invariant of them, and runs that compute a reached state. -/

namespace Transition

variable {σ α : Type*}

/-- The states that `step` reaches from `init` by actions that `ok` admits where they are taken. -/
inductive Reach (init : σ → Prop) (step : σ → α → Option σ) (ok : σ → α → Prop) : σ → Prop
  | start {s : σ} : init s → Reach init step ok s
  | next {s s' : σ} (a : α) : Reach init step ok s → ok s a → step s a = some s' →
      Reach init step ok s'

variable {init : σ → Prop} {step : σ → α → Option σ} {ok ok' : σ → α → Prop} {s s' : σ}

/-- A property of the initial states that every admitted step keeps holds wherever a run leads. -/
theorem Reach.invariant (I : σ → Prop) (hInit : ∀ s, init s → I s)
    (hStep : ∀ s a s', I s → ok s a → step s a = some s' → I s') (h : Reach init step ok s) :
    I s := by
  induction h with
  | start h0 => exact hInit _ h0
  | next a _ hok hs ih => exact hStep _ a _ ih hok hs

theorem Reach.mono (hok : ∀ s a, ok s a → ok' s a) (h : Reach init step ok s) :
    Reach init step ok' s := by
  induction h with
  | start h0 => exact .start h0
  | next a _ ha hs ih => exact .next a ih (hok _ _ ha) hs

/-- The state after the actions of a list, if each of them is admitted and can be taken. -/
def run (step : σ → α → Option σ) (ok : σ → α → Prop) [∀ s a, Decidable (ok s a)] :
    σ → List α → Option σ
  | s, [] => some s
  | s, a :: as => if ok s a then (step s a).bind fun s' => run step ok s' as else none

/-- A computed run reaches its last state. -/
theorem Reach.run [∀ s a, Decidable (ok s a)] (h : Reach init step ok s) {as : List α}
    (hrun : run step ok s as = some s') : Reach init step ok s' := by
  induction as generalizing s with
  | nil => cases hrun; exact h
  | cons a as ih =>
    rw [Transition.run, Option.ite_none_right_eq_some, Option.bind_eq_some_iff] at hrun
    obtain ⟨hok, t, ht, hrest⟩ := hrun
    exact ih (.next a h hok ht) hrest

/-- A computed run reaches a state of which `p` holds, if `p` holds of its last state. -/
theorem Reach.of_run [∀ s a, Decidable (ok s a)] (h : Reach init step ok s) (as : List α)
    {p : σ → Bool} (hp : (Transition.run step ok s as).map p = some true) :
    ∃ s', Reach init step ok s' ∧ p s' = true := by
  obtain ⟨s', hs', hps⟩ := Option.map_eq_some_iff.mp hp
  exact ⟨s', h.run hs', hps⟩

end Transition
