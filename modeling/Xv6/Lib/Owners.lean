import Mathlib

/-!
# Exclusive ownership of resources

Places `κ` hold resources `β`, and `0` is the empty place. A resource in the pool `D` is held in at
most one place, and a mark says whether it is held (`Exact`). Taking an unmarked resource into an
empty place, and giving one back, keep this up.
-/

variable {κ β : Type _} [Zero β]

/-- Every resource that is held is in the pool and held in one place only, and exactly the resources
of the pool that are held are marked. -/
structure Exact (D : β → Prop) (own : κ → β) (used : β → Bool) : Prop where
  pool : ∀ {x}, own x ≠ 0 → D (own x)
  inj : ∀ {x y}, own x ≠ 0 → own x = own y → x = y
  used_iff : ∀ {b}, D b → (used b = true ↔ ∃ x, own x = b)

namespace Exact

variable {D : β → Prop} {own own' : κ → β} {used used' : β → Bool} {x : κ} {b : β}

theorem ne_of_unused (h : Exact D own used) (hb : D b) (hu : used b = false) (x : κ) :
    own x ≠ b := by
  intro hx
  rw [(h.used_iff hb).mpr ⟨x, hx⟩] at hu
  cases hu

theorem congr (h : Exact D own used) (hown : ∀ x, own' x = own x)
    (hused : ∀ b, D b → used' b = used b) : Exact D own' used' := by
  obtain rfl : own' = own := funext hown
  exact ⟨h.pool, h.inj, fun hb => by rw [hused _ hb]; exact h.used_iff hb⟩

theorem take [DecidableEq κ] [DecidableEq β] (h : Exact D own used) (h0 : ¬D 0) (hx : own x = 0)
    (hb : D b) (hu : used b = false) (hown : ∀ y, own' y = if y = x then b else own y)
    (hused : ∀ c, D c → used' c = (decide (c = b) || used c)) : Exact D own' used' := by
  have hne := h.ne_of_unused hb hu
  refine ⟨?_, ?_, ?_⟩
  · intro y hy
    rw [hown] at hy ⊢
    split
    · exact hb
    next hyx => exact h.pool (by rwa [if_neg hyx] at hy)
  · intro y z hy hyz
    rw [hown] at hy
    rw [hown, hown] at hyz
    split at hyz <;> split at hyz
    next h1 h2 => rw [h1, h2]
    next h1 h2 => exact absurd hyz.symm (hne z)
    next h1 h2 => exact absurd hyz (hne y)
    next h1 h2 => exact h.inj (by rwa [if_neg h1] at hy) hyz
  · intro c hc
    rw [hused c hc, Bool.or_eq_true, decide_eq_true_iff, h.used_iff hc]
    constructor
    · rintro (rfl | ⟨y, hy⟩)
      · exact ⟨x, by rw [hown, if_pos rfl]⟩
      · have hyx : y ≠ x := by
          rintro rfl
          rw [← hy, hx] at hc
          exact h0 hc
        exact ⟨y, by rw [hown, if_neg hyx, hy]⟩
    · rintro ⟨y, hy⟩
      rw [hown] at hy
      split at hy
      · exact .inl hy.symm
      · exact .inr ⟨y, hy⟩

theorem give [DecidableEq κ] [DecidableEq β] (h : Exact D own used) (h0 : ¬D 0) (hx : own x ≠ 0)
    (hown : ∀ y, own' y = if y = x then 0 else own y)
    (hused : ∀ c, D c → used' c = (!decide (c = own x) && used c)) : Exact D own' used' := by
  refine ⟨?_, ?_, ?_⟩
  · intro y hy
    rw [hown] at hy ⊢
    split at hy
    · exact absurd rfl hy
    next hyx =>
      rw [if_neg hyx]
      exact h.pool hy
  · intro y z hy hyz
    rw [hown] at hy
    rw [hown y, hown z] at hyz
    split at hy
    · exact absurd rfl hy
    next hyx =>
      rw [if_neg hyx] at hyz
      split at hyz
      · exact absurd hyz hy
      · exact h.inj hy hyz
  · intro c hc
    rw [hused c hc, Bool.and_eq_true, Bool.not_eq_true', decide_eq_false_iff_not, h.used_iff hc]
    constructor
    · rintro ⟨hcx, y, rfl⟩
      have hyx : y ≠ x := fun hyx => hcx (by rw [hyx])
      exact ⟨y, by rw [hown, if_neg hyx]⟩
    · rintro ⟨y, rfl⟩
      rw [hown] at hc ⊢
      split at hc
      · exact absurd hc h0
      next hyx =>
        rw [if_neg hyx]
        exact ⟨fun heq => hyx (h.inj (heq ▸ hx) heq), y, rfl⟩

end Exact
