import Mathlib

/-! Resources that slots hold: every used resource is held by exactly one slot, but for those in
`extra`, which are used while no slot holds them yet, or no slot holds them any more. -/

namespace Ownership

variable {σ β : Type*}

/-- The used resources are those that exactly one slot holds and those in `extra`. -/
structure Partition (own : σ → β → Prop) (used extra : β → Prop) : Prop where
  inj : ∀ {i j b}, own i b → own j b → i = j
  apart : ∀ {i b}, extra b → ¬own i b
  used_iff : ∀ b, used b ↔ extra b ∨ ∃ i, own i b

namespace Partition

variable {own own' : σ → β → Prop} {used used' extra extra' : β → Prop} {b : β}

theorem congr (h : Partition own used extra) (hown : ∀ i c, own' i c ↔ own i c)
    (hused : ∀ c, used' c ↔ used c) (hextra : ∀ c, extra' c ↔ extra c) :
    Partition own' used' extra' where
  inj hi hj := h.inj ((hown _ _).mp hi) ((hown _ _).mp hj)
  apart he ho := h.apart ((hextra _).mp he) ((hown _ _).mp ho)
  used_iff c := by simp only [hused, hextra, hown, h.used_iff]

theorem used_of_extra (h : Partition own used extra) (hb : extra b) : used b :=
  (h.used_iff b).mpr (.inl hb)

theorem used_of_own (h : Partition own used extra) {i : σ} (hi : own i b) : used b :=
  (h.used_iff b).mpr (.inr ⟨i, hi⟩)

/-- A free resource is taken, before a slot holds it. -/
theorem take (h : Partition own used extra) (hb : ¬used b) :
    Partition own (fun c => used c ∨ c = b) (fun c => extra c ∨ c = b) where
  inj := h.inj
  apart he ho := by
    rcases he with he | rfl
    · exact h.apart he ho
    · exact hb (h.used_of_own ho)
  used_iff c := by
    rw [h.used_iff c]
    exact or_right_comm

/-- Slot `k` comes to hold a resource that was taken. -/
theorem hold (h : Partition own used extra) (hb : extra b) (k : σ)
    (hown : ∀ i c, own' i c ↔ own i c ∨ i = k ∧ c = b) :
    Partition own' used (fun c => extra c ∧ c ≠ b) where
  inj hi hj := by
    rcases (hown _ _).mp hi with hi | ⟨rfl, hi⟩ <;> rcases (hown _ _).mp hj with hj | ⟨rfl, hj⟩
    · exact h.inj hi hj
    · exact absurd hi (h.apart (hj ▸ hb))
    · exact absurd hj (h.apart (hi ▸ hb))
    · rfl
  apart he ho := by
    rcases (hown _ _).mp ho with ho | ⟨-, rfl⟩
    · exact h.apart he.1 ho
    · exact he.2 rfl
  used_iff c := by
    by_cases hc : c = b
    · subst hc
      exact ⟨fun _ => .inr ⟨k, (hown k c).mpr (.inr ⟨rfl, rfl⟩)⟩, fun _ => h.used_of_extra hb⟩
    · rw [h.used_iff c]
      simp only [hown, hc, and_false, or_false, ne_eq, not_false_eq_true, and_true]

/-- The slots in `P` give up what they hold, before it is freed. -/
theorem drop (h : Partition own used extra) (P : σ → Prop)
    (hown : ∀ i c, own' i c ↔ own i c ∧ ¬P i) :
    Partition own' used (fun c => extra c ∨ ∃ i, P i ∧ own i c) where
  inj hi hj := h.inj ((hown _ _).mp hi).1 ((hown _ _).mp hj).1
  apart he ho := by
    obtain ⟨ho, hp⟩ := (hown _ _).mp ho
    rcases he with he | ⟨j, hj, hjc⟩
    · exact h.apart he ho
    · exact hp (h.inj hjc ho ▸ hj)
  used_iff c := by
    rw [h.used_iff c]
    constructor
    · rintro (he | ⟨i, hi⟩)
      · exact .inl (.inl he)
      · by_cases hp : P i
        · exact .inl (.inr ⟨i, hp, hi⟩)
        · exact .inr ⟨i, (hown _ _).mpr ⟨hi, hp⟩⟩
    · rintro ((he | ⟨i, -, hi⟩) | ⟨i, hi⟩)
      · exact .inl he
      · exact .inr ⟨i, hi⟩
      · exact .inr ⟨i, ((hown _ _).mp hi).1⟩

/-- A resource that no slot holds is freed. -/
theorem free (h : Partition own used extra) (hb : extra b) :
    Partition own (fun c => used c ∧ c ≠ b) (fun c => extra c ∧ c ≠ b) where
  inj := h.inj
  apart he := h.apart he.1
  used_iff c := by
    rw [h.used_iff c]
    constructor
    · rintro ⟨he | ⟨i, hi⟩, hc⟩
      · exact .inl ⟨he, hc⟩
      · exact .inr ⟨i, hi⟩
    · rintro (⟨he, hc⟩ | ⟨i, hi⟩)
      · exact ⟨.inl he, hc⟩
      · exact ⟨.inr ⟨i, hi⟩, fun hc => h.apart hb (hc ▸ hi)⟩

/-- When the slots keep what they hold, the resources that come into use are those that they come to
hold. -/
theorem newly_used_iff (h : Partition own used fun _ => False)
    (h' : Partition own' used' fun _ => False) (hkeep : ∀ i b, own i b → own' i b) :
    used' b ∧ ¬used b ↔ ∃ i, own' i b ∧ ¬own i b := by
  rw [h.used_iff, h'.used_iff]
  constructor
  · rintro ⟨hf | ⟨i, hi⟩, hnot⟩
    · exact hf.elim
    · exact ⟨i, hi, fun ho => hnot (.inr ⟨i, ho⟩)⟩
  · rintro ⟨i, hi, hnot⟩
    refine ⟨.inr ⟨i, hi⟩, ?_⟩
    rintro (hf | ⟨j, hj⟩)
    · exact hf
    · exact hnot (h'.inj hi (hkeep j b hj) ▸ hj)

end Partition

end Ownership
