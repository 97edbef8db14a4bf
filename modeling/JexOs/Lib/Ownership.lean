import Mathlib.Logic.Basic

/-!
# Ownership of allocated units

The accounting is sound when what is referred to is used and nothing is referred to twice. A unit that is used but
referred to by no holder is lost.
-/

namespace Ownership

variable {κ β : Type}

structure Owned (ref : κ → β → Prop) (used : β → Prop) : Prop where
  used_of_ref : ∀ k b, ref k b → used b
  holder_unique : ∀ k k' b, ref k b → ref k' b → k = k'

def Lost (ref : κ → β → Prop) (used : β → Prop) (b : β) : Prop := used b ∧ ∀ k, ¬ref k b

variable {ref ref' : κ → β → Prop} {used used' : β → Prop} {b₀ : β}

variable (h : Owned ref used)

include h

theorem Owned.congr (href : ∀ k b, ref' k b ↔ ref k b) (hused : ∀ b, used' b ↔ used b) :
    Owned ref' used' ∧ ∀ b, Lost ref' used' b ↔ Lost ref used b := by
  have hrefs : ref' = ref := by
    funext k b
    exact propext (href k b)
  have huse : used' = used := by
    funext b
    exact propext (hused b)
  subst hrefs huse
  exact ⟨h, fun b => Iff.rfl⟩

theorem Owned.grow {k₀ : κ} (hfree : ¬used b₀) (href : ∀ k b, ref' k b ↔ ref k b ∨ (k = k₀ ∧ b = b₀))
    (hused : ∀ b, used' b ↔ used b ∨ b = b₀) : Owned ref' used' ∧ ∀ b, Lost ref' used' b →
    Lost ref used b := by
  have hunheld : ∀ k, ¬ref k b₀ := fun k hk => hfree (h.used_of_ref k b₀ hk)
  refine ⟨⟨fun k b hk => ?_, fun k k' b hk hk' => ?_⟩, ?_⟩
  · rcases (href k b).mp hk with hold | ⟨-, rfl⟩
    · exact (hused b).mpr (.inl (h.used_of_ref k b hold))
    · exact (hused b).mpr (.inr rfl)
  · rcases (href k b).mp hk with hold | ⟨rfl, rfl⟩
    · rcases (href k' b).mp hk' with hold' | ⟨-, rfl⟩
      · exact h.holder_unique k k' b hold hold'
      · exact absurd hold (hunheld k)
    · rcases (href k' b).mp hk' with hold' | ⟨rfl, -⟩
      · exact absurd hold' (hunheld k')
      · rfl
  · rintro b ⟨hb, hnone⟩
    rcases (hused b).mp hb with hold | rfl
    · exact ⟨hold, fun k hk => hnone k ((href k b).mpr (.inl hk))⟩
    · exact absurd ((href k₀ b).mpr (.inr ⟨rfl, rfl⟩)) (hnone k₀)

theorem Owned.leak (hused : ∀ b, used' b ↔ used b ∨ b = b₀) : Owned ref used' :=
  ⟨fun k b hk => (hused b).mpr (.inl (h.used_of_ref k b hk)), h.holder_unique⟩

theorem Owned.drop (hsub : ∀ k b, ref' k b → ref k b) : Owned ref' used :=
  ⟨fun k b hk => h.used_of_ref k b (hsub k b hk),
    fun k k' b hk hk' => h.holder_unique k k' b (hsub k b hk) (hsub k' b hk')⟩

theorem Owned.release {keep : κ → Prop} (href : ∀ k b, ref' k b ↔ ref k b ∧ keep k)
    (hused : ∀ b, used' b ↔ used b ∧ ∀ k, ref k b → keep k) :
    Owned ref' used' ∧ ∀ b, Lost ref' used' b → Lost ref used b := by
  refine ⟨⟨fun k b hk => ?_, fun k k' b hk hk' => ?_⟩, ?_⟩
  · obtain ⟨hold, hkeep⟩ := (href k b).mp hk
    refine (hused b).mpr ⟨h.used_of_ref k b hold, fun k' hk' => ?_⟩
    rwa [h.holder_unique k' k b hk' hold]
  · exact h.holder_unique k k' b ((href k b).mp hk).1 ((href k' b).mp hk').1
  · rintro b ⟨hb, hnone⟩
    obtain ⟨hold, hkeep⟩ := (hused b).mp hb
    exact ⟨hold, fun k hk => hnone k ((href k b).mpr ⟨hk, hkeep k hk⟩)⟩

theorem Owned.free (hunheld : ∀ k, ¬ref k b₀) (hused : ∀ b, used' b ↔ used b ∧ b ≠ b₀) :
    Owned ref used' ∧ ∀ b, Lost ref used' b → Lost ref used b ∧ b ≠ b₀ := by
  refine ⟨⟨fun k b hk => (hused b).mpr ⟨h.used_of_ref k b hk, ?_⟩, h.holder_unique⟩, ?_⟩
  · rintro rfl
    exact hunheld k hk
  · rintro b ⟨hb, hnone⟩
    obtain ⟨hold, hne⟩ := (hused b).mp hb
    exact ⟨⟨hold, hnone⟩, hne⟩

end Ownership
