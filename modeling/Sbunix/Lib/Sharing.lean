import Mathlib.Tactic.Common

/-!
# Shared frames

Users have frames at places, each with or without the right to write. The discipline of
copy-on-write is that a frame is found at one place only, and that whoever may write to it is its
only user (`Exclusive`). Forking a user keeps it (`Exclusive.fork`), and so does giving a user a
frame of its own (`Exclusive.set`).
-/

namespace Sharing

variable {α π φ : Type*} {has has' : α → π → φ → Bool → Prop} {a b parent child : α} {p q : π}
  {f g : φ} {x y : Bool}

/-- **Exclusive rights.** `has a p f x` means that user `a` has frame `f` at place `p`, and may
write to it if `x` is set. -/
def Exclusive (has : α → π → φ → Bool → Prop) : Prop :=
  ∀ ⦃a b p q f x y⦄, has a p f x → has b q f y → p = q ∧ (a ≠ b → x = false ∧ y = false)

/-- Who may write to a frame is alone with it. -/
theorem Exclusive.alone (h : Exclusive has) (hf : has a p f true) (hb : has b q f y) :
    b = a ∧ q = p := by
  obtain ⟨hpq, hrights⟩ := h hf hb
  refine ⟨?_, hpq.symm⟩
  by_contra hne
  exact absurd (hrights (Ne.symm hne)).1 (by simp)

/-- **Forking.** The child gets the frames of its parent at the places `shared`, neither of them
with the right to write, and frames that nobody has at one other place. -/
theorem Exclusive.fork (h : Exclusive has) {shared : π → Prop} {own : π} {new : φ → Prop}
    (hold : ∀ a p f x, a ≠ child → has' a p f x → ∃ x', has a p f x' ∧ (x = true → x' = true))
    (hparent : ∀ p f x, has' parent p f x → shared p → x = false)
    (hchild : ∀ p f x, has' child p f x →
      (x = false ∧ shared p ∧ ∃ x', has parent p f x') ∨ (new f ∧ p = own))
    (hnew : ∀ a p f x, has a p f x → ¬ new f) : Exclusive has' := by
  -- an old user and the child
  have hmixed : ∀ {a p q f x y}, a ≠ child → has' a p f x → has' child q f y →
      p = q ∧ x = false ∧ y = false := by
    intro a p q f x y ha h₁ h₂
    obtain ⟨x', h₁', hx⟩ := hold a p f x ha h₁
    obtain ⟨rfl, hq, y', hy⟩ | ⟨hf, -⟩ := hchild q f y h₂
    · obtain ⟨rfl, hrights⟩ := h h₁' hy
      refine ⟨rfl, ?_, rfl⟩
      by_cases hap : a = parent
      · exact hparent p f x (hap ▸ h₁) hq
      · cases x with
        | false => rfl
        | true => exact absurd (hx rfl) (by simp [(hrights hap).1])
    · exact absurd hf (hnew a p f x' h₁')
  intro a b p q f x y h₁ h₂
  by_cases ha : a = child
  · by_cases hb : b = child
    · subst ha hb
      refine ⟨?_, fun hne => absurd rfl hne⟩
      rcases hchild p f x h₁ with ⟨-, -, x', hx'⟩ | ⟨hf, rfl⟩
      · rcases hchild q f y h₂ with ⟨-, -, y', hy'⟩ | ⟨hf, -⟩
        · exact (h hx' hy').1
        · exact absurd hf (hnew _ _ _ _ hx')
      · rcases hchild q f y h₂ with ⟨-, -, y', hy'⟩ | ⟨-, rfl⟩
        · exact absurd hf (hnew _ _ _ _ hy')
        · rfl
    · obtain ⟨hqp, hy, hx⟩ := hmixed hb h₂ (ha ▸ h₁)
      exact ⟨hqp.symm, fun _ => ⟨hx, hy⟩⟩
  · by_cases hb : b = child
    · obtain ⟨hpq, hx, hy⟩ := hmixed ha h₁ (hb ▸ h₂)
      exact ⟨hpq, fun _ => ⟨hx, hy⟩⟩
    · obtain ⟨x', h₁', hx⟩ := hold a p f x ha h₁
      obtain ⟨y', h₂', hy⟩ := hold b q f y hb h₂
      obtain ⟨hpq, hrights⟩ := h h₁' h₂'
      refine ⟨hpq, fun hne => ?_⟩
      obtain ⟨rfl, rfl⟩ := hrights hne
      exact ⟨by simpa using hx, by simpa using hy⟩

/-- **A frame of its own** for user `a` at place `p`. -/
theorem Exclusive.set (h : Exclusive has) (hself : ∀ f x, has' a p f x → f = g)
    (hother : ∀ b q f x, has' b q f x → ¬ (b = a ∧ q = p) → has b q f x)
    (hnone : ∀ b q x, has b q g x → b = a ∧ q = p) : Exclusive has' := by
  intro b c q r f x y h₁ h₂
  by_cases hb : b = a ∧ q = p
  · obtain ⟨rfl, rfl⟩ := hb
    obtain rfl := hself f x h₁
    by_cases hc : c = b ∧ r = q
    · exact ⟨hc.2.symm, fun hne => absurd hc.1.symm hne⟩
    · exact absurd (hnone c r y (hother c r _ y h₂ hc)) hc
  · have h₁' := hother b q f x h₁ hb
    by_cases hc : c = a ∧ r = p
    · obtain ⟨rfl, rfl⟩ := hc
      obtain rfl := hself f y h₂
      exact absurd (hnone b q x h₁') hb
    · exact h h₁' (hother c r f y h₂ hc)

end Sharing
