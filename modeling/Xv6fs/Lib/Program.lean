import Mathlib

/-! Programs over a state that end normally or with a fault, and what a run of one establishes: a
postcondition of its result and final state, and a condition on the fault it ends with. -/

namespace Program

universe u v

variable {σ α β : Type u} {ε : Type v}

/-- The run of `m` from `s` ends normally in a state that satisfies `Q` with its result, or with a
fault that satisfies `E`. -/
def Runs (m : StateT σ (Except ε) α) (s : σ) (Q : α → σ → Prop) (E : ε → Prop) : Prop :=
  match m s with
  | .ok (a, s') => Q a s'
  | .error e => E e

variable {m : StateT σ (Except ε) α} {f : α → StateT σ (Except ε) β} {s : σ}
  {Q Q' : α → σ → Prop} {E E' : ε → Prop}

instance [∀ a s', Decidable (Q a s')] [∀ e, Decidable (E e)] : Decidable (Runs m s Q E) :=
  match h : m s with
  | .ok (a, s') => decidable_of_iff (Q a s') (by simp [Runs, h])
  | .error e => decidable_of_iff (E e) (by simp [Runs, h])

/-! What a run of each construct amounts to is stated as an equation of propositions, which `simp` and
`rw` use as it stands. -/

@[simp] theorem runs_pure {a : α} : Runs (pure a : StateT σ (Except ε) α) s Q E = Q a s := propext Iff.rfl

@[simp] theorem runs_bind {R : β → σ → Prop} :
    Runs (m >>= f) s R E = Runs m s (fun a s' => Runs (f a) s' R E) E := by
  simp only [Runs, bind, StateT.bind, Except.bind]
  cases m s <;> rfl

@[simp] theorem runs_map {g : α → β} {R : β → σ → Prop} :
    Runs (g <$> m) s R E = Runs m s (fun a s' => R (g a) s') E := by
  simp only [Runs, Functor.map, StateT.map, bind, Except.bind]
  cases m s <;> rfl

@[simp] theorem runs_get {R : σ → σ → Prop} :
    Runs (get : StateT σ (Except ε) σ) s R E = R s s := propext Iff.rfl

@[simp] theorem runs_modify {g : σ → σ} {R : PUnit → σ → Prop} :
    Runs (modify g : StateT σ (Except ε) PUnit) s R E = R ⟨⟩ (g s) := propext Iff.rfl

@[simp] theorem runs_throw {e : ε} : Runs (throw e : StateT σ (Except ε) α) s Q E = E e := propext Iff.rfl

/-- The first two programs of three run as one. -/
theorem runs_bind_assoc {γ : Type u} {g : β → StateT σ (Except ε) γ} {R : γ → σ → Prop} :
    Runs ((m >>= f) >>= g) s R E = Runs (m >>= fun a => f a >>= g) s R E := by
  simp only [runs_bind]

theorem Runs.mono (h : Runs m s Q E) (hQ : ∀ a s', Q a s' → Q' a s') (hE : ∀ e, E e → E' e) :
    Runs m s Q' E' := by
  unfold Runs at h ⊢
  split at h
  · exact hQ _ _ h
  · exact hE _ h

/-- A stronger postcondition is enough. -/
theorem Runs.imp (h : Runs m s Q E) (hQ : ∀ a s', Q a s' → Q' a s') : Runs m s Q' E :=
  h.mono hQ fun _ => id

/-- A program that establishes the precondition of the rest. -/
theorem Runs.bind {R : β → σ → Prop} (h : Runs m s Q E)
    (hf : ∀ a s', Q a s' → Runs (f a) s' R E) : Runs (m >>= f) s R E :=
  runs_bind.mpr (h.imp hf)

/-- What two specifications say of one run. -/
theorem Runs.both (h : Runs m s Q E) (h' : Runs m s Q' E') :
    Runs m s (fun a s' => Q a s' ∧ Q' a s') fun e => E e ∧ E' e := by
  unfold Runs at *
  split at h
  · simp_all
  · simp_all

/-- What is known of a run besides, if it ends normally. -/
theorem Runs.also (h : Runs m s Q E) (h' : Runs m s Q' fun _ => True) :
    Runs m s (fun a s' => Q a s' ∧ Q' a s') E :=
  (h.both h').mono (fun _ _ => id) fun _ he => he.1

/-- A specification whatever the faults are. -/
theorem Runs.any (h : Runs m s Q E) : Runs m s Q fun _ => True :=
  h.mono (fun _ _ => id) fun _ _ => trivial

/-- A run without a fault ends in a state of the postcondition. -/
theorem Runs.returns (h : Runs m s Q fun _ => False) : ∃ a s', m s = .ok (a, s') ∧ Q a s' := by
  unfold Runs at h
  split at h
  · next a s' hrun => exact ⟨a, s', hrun, h⟩
  · exact h.elim

theorem Runs.intro {a : α} {s' : σ} (hok : m s = .ok (a, s')) (h : Q a s') : Runs m s Q E := by
  unfold Runs
  rw [hok]
  exact h

/-- The postcondition of a run that has ended normally. -/
theorem Runs.of_ok {a : α} {s' : σ} (h : Runs m s Q E) (hok : m s = .ok (a, s')) : Q a s' := by
  unfold Runs at h
  rw [hok] at h
  exact h

/-- The condition on the fault of a run. -/
theorem Runs.of_error {e : ε} (h : Runs m s Q E) (herr : m s = .error e) : E e := by
  unfold Runs at h
  rw [herr] at h
  exact h

theorem runs_of {h : ∀ a s', m s = .ok (a, s') → Q a s'} (he : ∀ e, m s = .error e → E e) :
    Runs m s Q E := by
  unfold Runs
  split
  · exact h _ _ ‹_›
  · exact he _ ‹_›

/-- Nothing is asked of the run. -/
theorem runs_true : Runs m s (fun _ _ => True) fun _ => True :=
  runs_of (h := fun _ _ _ => trivial) fun _ _ => trivial

/-- What is known of a run under a condition. -/
theorem runs_imp {C : Prop} (h : C → Runs m s Q fun _ => True) :
    Runs m s (fun a s' => C → Q a s') fun _ => True :=
  runs_of (h := fun _ _ hok hC => (h hC).of_ok hok) fun _ _ => trivial

theorem runs_ite {c : Prop} [Decidable c] {m' : StateT σ (Except ε) α} :
    Runs (if c then m else m') s Q E = ((c → Runs m s Q E) ∧ (¬c → Runs m' s Q E)) := by
  split <;> simp [*]

/-- A program that ends with the fault `e` unless `c` holds. -/
def assert (c : Prop) [Decidable c] (e : ε) : StateT σ (Except ε) PUnit :=
  if c then pure ⟨⟩ else throw e

@[simp] theorem runs_assert {c : Prop} [Decidable c] {e : ε} {R : PUnit → σ → Prop} :
    Runs (assert c e) s R E = ((c → R ⟨⟩ s) ∧ (¬c → E e)) := by
  unfold assert
  split <;> simp [*]

/-- A run of two programs that ends normally. -/
theorem bind_ok {b : β} {s' : σ} : (m >>= f) s = .ok (b, s') ↔
    ∃ a s1, m s = .ok (a, s1) ∧ f a s1 = .ok (b, s') := by
  simp only [bind, StateT.bind, Except.bind]
  cases m s with
  | error e => simp
  | ok r =>
    constructor
    · exact fun h => ⟨r.1, r.2, rfl, h⟩
    · rintro ⟨a, s1, hr, h⟩
      cases hr
      exact h

/-- The run of the second program goes on from where that of the first has ended. -/
theorem runs_seq {R : β → σ → Prop} (h : ∀ a s1, m s = .ok (a, s1) → Runs (f a) s1 R E)
    (he : ∀ e, m s = .error e → E e) : Runs (m >>= f) s R E :=
  runs_bind.mpr (runs_of (h := h) he)

/-! ### Results -/

/-- The run of `m` from `s` ends normally with the result `a`. -/
def Yields (m : StateT σ (Except ε) α) (s : σ) (a : α) : Prop := ∃ s', m s = .ok (a, s')

instance [DecidableEq α] {a : α} : Decidable (Yields m s a) :=
  match h : m s with
  | .ok (b, s') => decidable_of_iff (b = a) (by simp [Yields, h])
  | .error e => isFalse (by simp [Yields, h])

@[simp] theorem yields_pure {a b : α} :
    Yields (pure a : StateT σ (Except ε) α) s b ↔ a = b :=
  ⟨fun ⟨_, h⟩ => by cases h; rfl, fun h => ⟨s, by rw [h]; rfl⟩⟩

theorem yields_bind {a : α} {s1 : σ} {b : β} (h : m s = .ok (a, s1)) :
    Yields (m >>= f) s b ↔ Yields (f a) s1 b := by
  simp only [Yields, bind, StateT.bind, Except.bind, h]

@[simp] theorem yields_get {f : σ → StateT σ (Except ε) β} {b : β} :
    Yields (get >>= f) s b ↔ Yields (f s) s b := yields_bind rfl

/-- A run has one result. -/
theorem Yields.unique {a b : α} (h : Yields m s a) (h' : Yields m s b) : a = b := by
  obtain ⟨s1, h⟩ := h
  obtain ⟨s2, h'⟩ := h'
  rw [h] at h'
  cases h'
  rfl

/-! ### Views

What a program does to a part of the state, whatever the rest of the state is. -/

/-- A run of `m` from a state whose view is `w`, if it ends normally, establishes `Q` of its result
and of the view that it leaves. -/
def Follows {ω : Type*} (view : σ → ω) (m : StateT σ (Except ε) α) (w : ω) (Q : α → ω → Prop) :
    Prop :=
  ∀ s, view s = w → Runs m s (fun a s' => Q a (view s')) fun _ => True

namespace Follows

variable {ω : Type*} {view : σ → ω} {w : ω} {P P' : α → ω → Prop} {R : β → ω → Prop}

theorem imp (h : Follows view m w P) (hP : ∀ a w', P a w' → P' a w') : Follows view m w P' :=
  fun s hs => (h s hs).imp fun a s' => hP a (view s')

theorem bind (h : Follows view m w P) (hf : ∀ a w', P a w' → Follows view (f a) w' R) :
    Follows view (m >>= f) w R :=
  fun s hs => (h s hs).bind fun a s' ha => hf a (view s') ha s' rfl

theorem pure {a : α} (h : P a w) : Follows view (Pure.pure a : StateT σ (Except ε) α) w P := by
  rintro s rfl
  exact h

theorem throw {e : ε} : Follows view (MonadExcept.throw e : StateT σ (Except ε) α) w P :=
  fun _ _ => trivial

theorem get_bind {f : σ → StateT σ (Except ε) β} (h : ∀ s, view s = w → Follows view (f s) w R) :
    Follows view (MonadState.get >>= f) w R :=
  fun s hs => runs_bind.mpr (h s hs s hs)

theorem modify {g : σ → σ} {P : PUnit → ω → Prop} (h : ∀ s, view s = w → P ⟨⟩ (view (g s))) :
    Follows view (modifyThe σ g : StateT σ (Except ε) PUnit) w P := h

theorem assert {p : Prop} [Decidable p] {e : ε} {P : PUnit → ω → Prop} (h : p → P ⟨⟩ w) :
    Follows view (Program.assert p e : StateT σ (Except ε) PUnit) w P := by
  rintro s rfl
  exact runs_assert.mpr ⟨h, fun _ => trivial⟩

theorem assert_bind {p : Prop} [Decidable p] {e : ε} {f : PUnit → StateT σ (Except ε) β}
    (h : p → Follows view (f ⟨⟩) w R) : Follows view (Program.assert p e >>= f) w R :=
  fun s hs => runs_bind.mpr (runs_assert.mpr ⟨fun hp => h hp s hs, fun _ => trivial⟩)

theorem ite {p : Prop} [Decidable p] {m' : StateT σ (Except ε) α}
    (h : p → Follows view m w P) (h' : ¬p → Follows view m' w P) :
    Follows view (if p then m else m') w P := by
  split
  · exact h ‹_›
  · exact h' ‹_›

/-- A run from a state with the view. -/
theorem runs {s : σ} (hs : view s = w) (h : Follows view m w P)
    (hQ : ∀ a s', P a (view s') → Q a s') : Runs m s Q fun _ => True :=
  (h s hs).imp hQ

/-- What holds of the view after a run that has ended normally. -/
theorem of_ok (h : Follows view m w P) {a : α} {s' : σ} (hs : view s = w) (hok : m s = .ok (a, s')) :
    P a (view s') :=
  (h s hs).of_ok hok

end Follows

/-! ### Budgets -/

/-- A run of `m` raises `measure` by at most `c`, and ends with a fault in `short` only when the
limit is less than that away. -/
def Spends (measure : σ → Nat) (short : ε → Prop) (limit : Nat) (m : StateT σ (Except ε) α)
    (c : Nat) : Prop :=
  ∀ s, Runs m s (fun _ s' => measure s' ≤ measure s + c) fun e => short e → limit < measure s + c

namespace Spends

variable {measure : σ → Nat} {short : ε → Prop} {limit c d : Nat}

theorem mono (h : Spends measure short limit m c) (hcd : c ≤ d) : Spends measure short limit m d :=
  fun s => (h s).mono (fun _ _ h => by omega) fun _ h ho => by have := h ho; omega

theorem pure (a : α) : Spends measure short limit (Pure.pure a : StateT σ (Except ε) α) 0 :=
  fun _ => Nat.le_refl _

theorem bind (h : Spends measure short limit m c) (hf : ∀ a, Spends measure short limit (f a) d) :
    Spends measure short limit (m >>= f) (c + d) := fun s => by
  refine runs_bind.mpr (((h s).mono (fun a s' hs => ?_) fun e he ho => ?_))
  · refine (hf a s').mono (fun _ s'' hs' => ?_) fun e he ho => ?_
    · omega
    · have := he ho
      omega
  · have := he ho
    omega

/-- A program that spends nothing goes first. -/
theorem bind_free (h : Spends measure short limit m 0)
    (hf : ∀ a, Spends measure short limit (f a) d) : Spends measure short limit (m >>= f) d :=
  (h.bind hf).mono (Nat.le_of_eq (Nat.zero_add d))

theorem get : Spends measure short limit (MonadState.get : StateT σ (Except ε) σ) 0 :=
  fun _ => Nat.le_refl _

theorem modify {g : σ → σ} (hg : ∀ s, measure (g s) ≤ measure s + c) :
    Spends measure short limit (modifyThe σ g : StateT σ (Except ε) PUnit) c := hg

theorem throw {e : ε} (he : ¬short e) :
    Spends measure short limit (MonadExcept.throw e : StateT σ (Except ε) α) c :=
  fun _ ho => absurd ho he

theorem assert {p : Prop} [Decidable p] {e : ε} (he : ¬short e) :
    Spends measure short limit (Program.assert p e : StateT σ (Except ε) PUnit) 0 :=
  fun _ => runs_assert.mpr ⟨fun _ => Nat.le_refl _, fun _ ho => absurd ho he⟩

theorem ite {p : Prop} [Decidable p] {m' : StateT σ (Except ε) α}
    (h : p → Spends measure short limit m c) (h' : ¬p → Spends measure short limit m' c) :
    Spends measure short limit (if p then m else m') c := by
  split
  · exact h ‹_›
  · exact h' ‹_›

end Spends

end Program
