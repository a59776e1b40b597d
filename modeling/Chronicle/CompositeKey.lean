import Chronicle.SortedMap

/-!
# Composite keys

A key made of two parts is ordered by the first part, and by the second where the first is the same.
A part may count downwards.
-/
namespace Chronicle

universe u v

/-- A key of two parts, in lexicographic order. -/
structure KeyPair (α : Type u) (β : Type v) where
  fst : α
  snd : β
  deriving DecidableEq, Repr

namespace KeyPair

variable {α : Type u} {β : Type v} [LT α] [LT β]

instance : LT (KeyPair α β) := ⟨fun a b => a.fst < b.fst ∨ (a.fst = b.fst ∧ a.snd < b.snd)⟩

instance : LE (KeyPair α β) := ⟨fun a b => a < b ∨ a = b⟩

theorem lt_def {a b : KeyPair α β} :
    a < b ↔ a.fst < b.fst ∨ (a.fst = b.fst ∧ a.snd < b.snd) := Iff.rfl

instance [DecidableEq α] [DecidableLT α] [DecidableLT β] : DecidableLT (KeyPair α β) := fun a b =>
  inferInstanceAs (Decidable (a.fst < b.fst ∨ (a.fst = b.fst ∧ a.snd < b.snd)))

section Order

variable [LE α] [LE β] [Std.IsLinearOrder α] [Std.LawfulOrderLT α] [Std.IsLinearOrder β]
  [Std.LawfulOrderLT β]

omit [Std.IsLinearOrder α] [Std.IsLinearOrder β] in
theorem lt_irrefl (a : KeyPair α β) : ¬ a < a := by
  intro h
  rcases h with h | ⟨-, h⟩
  · exact Std.lt_irrefl h
  · exact Std.lt_irrefl h

theorem lt_trans {a b c : KeyPair α β} (hab : a < b) (hbc : b < c) : a < c := by
  rcases hab with hab | ⟨hab, hab'⟩
  · rcases hbc with hbc | ⟨hbc, -⟩
    · exact .inl (Std.lt_trans hab hbc)
    · exact .inl (hbc ▸ hab)
  · rcases hbc with hbc | ⟨hbc, hbc'⟩
    · exact .inl (hab ▸ hbc)
    · exact .inr ⟨hab.trans hbc, Std.lt_trans hab' hbc'⟩

theorem lt_or_eq_or_gt (a b : KeyPair α β) : a < b ∨ a = b ∨ b < a := by
  by_cases hlt : a.fst < b.fst
  · exact .inl (.inl hlt)
  by_cases hgt : b.fst < a.fst
  · exact .inr (.inr (.inl hgt))
  have hfst : a.fst = b.fst := SortedMap.eq_of_not_lt hlt hgt
  by_cases hlt' : a.snd < b.snd
  · exact .inl (.inr ⟨hfst, hlt'⟩)
  by_cases hgt' : b.snd < a.snd
  · exact .inr (.inr (.inr ⟨hfst.symm, hgt'⟩))
  have hsnd : a.snd = b.snd := SortedMap.eq_of_not_lt hlt' hgt'
  cases a
  cases b
  cases hfst
  cases hsnd
  exact .inr (.inl rfl)

instance : Std.IsLinearOrder (KeyPair α β) where
  le_refl _ := .inr rfl
  le_trans a b c hab hbc := by
    rcases hab with hab | rfl
    · rcases hbc with hbc | rfl
      · exact .inl (lt_trans hab hbc)
      · exact .inl hab
    · exact hbc
  le_antisymm a b hab hba := by
    rcases hab with hab | hab
    · rcases hba with hba | hba
      · exact absurd (lt_trans hab hba) (lt_irrefl a)
      · exact hba.symm
    · exact hab
  le_total a b := by
    rcases lt_or_eq_or_gt a b with h | h | h
    · exact .inl (.inl h)
    · exact .inl (.inr h)
    · exact .inr (.inl h)

instance : Std.LawfulOrderLT (KeyPair α β) where
  lt_iff a b := by
    constructor
    · intro hab
      refine ⟨.inl hab, fun hba => ?_⟩
      rcases hba with hba | rfl
      · exact lt_irrefl a (lt_trans hab hba)
      · exact lt_irrefl b hab
    · intro h
      rcases h.1 with hab | rfl
      · exact hab
      · exact absurd (.inr rfl) h.2

end Order

end KeyPair

/-- A part of a key that counts downwards. -/
structure Descending (α : Type u) where
  value : α
  deriving DecidableEq, Repr

namespace Descending

variable {α : Type u}

instance [LT α] : LT (Descending α) := ⟨fun a b => b.value < a.value⟩
instance [LE α] : LE (Descending α) := ⟨fun a b => b.value ≤ a.value⟩

theorem lt_def [LT α] {a b : Descending α} : a < b ↔ b.value < a.value := Iff.rfl

instance [LT α] [DecidableLT α] : DecidableLT (Descending α) := fun a b =>
  inferInstanceAs (Decidable (b.value < a.value))

instance [LE α] [Std.IsLinearOrder α] : Std.IsLinearOrder (Descending α) where
  le_refl a := Std.le_refl a.value
  le_trans a b c hab hbc := Std.le_trans (a := c.value) (b := b.value) (c := a.value) hbc hab
  le_antisymm a b hab hba := by
    have h : a.value = b.value := Std.le_antisymm hba hab
    cases a
    cases b
    cases h
    rfl
  le_total a b := Std.le_total (a := b.value) (b := a.value)

instance [LT α] [LE α] [Std.LawfulOrderLT α] : Std.LawfulOrderLT (Descending α) where
  lt_iff a b := Std.LawfulOrderLT.lt_iff b.value a.value

end Descending

end Chronicle
