import Mathlib.Order.Monotone.Monovary

/-!
# Strict Weak Orders

What a container that is ordered by a comparison asks of it, on the values it holds:
nothing comes before itself, no two values come before each other, and both coming
before and being apart from each other go on from value to value.

A comparison by two keys is one if the second key only decides where the first one does
not. A comparison that takes either key as enough is one only on values whose keys never
disagree, and is the comparison by two keys there.

## Main definitions

* `StrictWeakOn`: A strict weak order of the values in a set.
* `Lex`, `Either`: The comparison by one key and then the other, and by either of them.

## Theorems

* `lex_strictWeakOn`: The one is a strict weak order.
* `either_iff_lex`: Where the keys agree, the other is the same comparison.
* `either_strictWeakOn_iff`: The other is a strict weak order where the keys agree.
-/

namespace BlogSample

namespace WeakOrder

universe u v w

variable {γ : Type u} {α : Type v} {β : Type w} {r r' : γ → γ → Prop} {S : Set γ}

/-- A strict weak order of the values in a set. -/
structure StrictWeakOn (r : γ → γ → Prop) (S : Set γ) : Prop where
  irrefl : ∀ a ∈ S, ¬ r a a
  asymm : ∀ a ∈ S, ∀ b ∈ S, r a b → ¬ r b a
  trans : ∀ a ∈ S, ∀ b ∈ S, ∀ c ∈ S, r a b → r b c → r a c
  incomp_trans : ∀ a ∈ S, ∀ b ∈ S, ∀ c ∈ S, ¬ r a b ∧ ¬ r b a → ¬ r b c ∧ ¬ r c b →
    ¬ r a c ∧ ¬ r c a

theorem StrictWeakOn.congr (h : StrictWeakOn r S)
    (hiff : ∀ a ∈ S, ∀ b ∈ S, (r' a b ↔ r a b)) : StrictWeakOn r' S where
  irrefl := fun a ha => by
    rw [hiff a ha a ha]
    exact h.irrefl a ha
  asymm := fun a ha b hb => by
    rw [hiff a ha b hb, hiff b hb a ha]
    exact h.asymm a ha b hb
  trans := fun a ha b hb c hc => by
    rw [hiff a ha b hb, hiff b hb c hc, hiff a ha c hc]
    exact h.trans a ha b hb c hc
  incomp_trans := fun a ha b hb c hc => by
    rw [hiff a ha b hb, hiff b hb a ha, hiff b hb c hc, hiff c hc b hb, hiff a ha c hc,
      hiff c hc a ha]
    exact h.incomp_trans a ha b hb c hc

variable [LinearOrder α] [LinearOrder β] {f : γ → α} {g : γ → β}

/-- Comparing by one key, and by the other one where the first does not decide. -/
def Lex (f : γ → α) (g : γ → β) (a b : γ) : Prop :=
  f a < f b ∨ (f a = f b ∧ g a < g b)

/-- Comparing by two keys, either of which is enough. -/
def Either (f : γ → α) (g : γ → β) (a b : γ) : Prop :=
  f a < f b ∨ g a < g b

/-- Neither of two values comes before the other only if both keys are the same. -/
theorem lex_incomp_iff {a b : γ} :
    ¬ Lex f g a b ∧ ¬ Lex f g b a ↔ f a = f b ∧ g a = g b := by
  unfold Lex
  constructor
  · rintro ⟨hab, hba⟩
    rw [not_or, not_lt] at hab hba
    have hf : f a = f b := le_antisymm hba.1 hab.1
    refine ⟨hf, le_antisymm (not_lt.mp fun hlt => hba.2 ⟨hf.symm, hlt⟩) ?_⟩
    exact not_lt.mp fun hlt => hab.2 ⟨hf, hlt⟩
  · rintro ⟨hf, hg⟩
    rw [hf, hg]
    simp only [lt_irrefl, and_false, or_self, not_false_eq_true, and_self]

/-- The comparison by one key and then the other is a strict weak order. -/
theorem lex_strictWeakOn (f : γ → α) (g : γ → β) (S : Set γ) : StrictWeakOn (Lex f g) S where
  irrefl := fun a _ => (lex_incomp_iff.mpr ⟨rfl, rfl⟩).1
  asymm := by
    rintro a - b - (hf | ⟨hf, hg⟩) (hf' | ⟨hf', hg'⟩)
    · exact lt_asymm hf hf'
    · exact hf.ne' hf'
    · exact hf'.ne' hf
    · exact lt_asymm hg hg'
  trans := by
    rintro a - b - c - (hf | ⟨hf, hg⟩) (hf' | ⟨hf', hg'⟩)
    · exact .inl (hf.trans hf')
    · exact .inl (hf.trans_eq hf')
    · exact .inl (hf.trans_lt hf')
    · exact .inr ⟨hf.trans hf', hg.trans hg'⟩
  incomp_trans := by
    intro a _ b _ c _ hab hbc
    rw [lex_incomp_iff] at hab hbc ⊢
    exact ⟨hab.1.trans hbc.1, hab.2.trans hbc.2⟩

/-- Where the keys never disagree, either of them being enough is the comparison by both. -/
theorem either_iff_lex (h : MonovaryOn g f S) {a b : γ} (ha : a ∈ S) (hb : b ∈ S) :
    Either f g a b ↔ Lex f g a b := by
  constructor
  · rintro (hf | hg)
    · exact .inl hf
    · rcases (h.symm ha hb hg).lt_or_eq with hlt | heq
      · exact .inl hlt
      · exact .inr ⟨heq, hg⟩
  · rintro (hf | ⟨-, hg⟩)
    · exact .inl hf
    · exact .inr hg

/-- The comparison by either key is a strict weak order exactly where the keys never disagree:
    two values on which they do come before each other. -/
theorem either_strictWeakOn_iff : StrictWeakOn (Either f g) S ↔ MonovaryOn g f S := by
  constructor
  · intro h a ha b hb hf
    exact not_lt.mp fun hg => h.asymm a ha b hb (.inl hf) (.inr hg)
  · exact fun h => (lex_strictWeakOn f g S).congr fun a ha b hb => either_iff_lex h ha hb

end WeakOrder

end BlogSample
