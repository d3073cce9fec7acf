import Mathlib

/-!
# Objects with two ends

An object that is in use has two ends, each of them open or closed. A holder may be an end of an
object. `Ended` says that the open ends are those that have a holder, which is then the only one, and
that an object is in use as long as one of its ends is open. A holder that goes closes its end, and
ends the use of the object if the other end is closed.
-/

variable {φ π : Type}

/-- The ends `ends` of the objects in use are open if they have a holder. -/
structure Ended (isEnd : φ → π → Bool → Prop) (ends : π → Option (Bool → Bool)) : Prop where
  isOpen : ∀ p e, ends p = some e → ∃ w, e w = true
  held : ∀ p e w, ends p = some e → (e w = true ↔ ∃ f, isEnd f p w)
  used : ∀ f p w, isEnd f p w → ends p ≠ none
  unique : ∀ f g p w, isEnd f p w → isEnd g p w → f = g

namespace Ended

variable {isEnd isEnd' : φ → π → Bool → Prop} {ends : π → Option (Bool → Bool)}

theorem congr (h : Ended isEnd ends) (hE : ∀ f p w, isEnd' f p w ↔ isEnd f p w) :
    Ended isEnd' ends := by
  have heq : isEnd' = isEnd := by
    funext f p w
    exact propext (hE f p w)
  rwa [heq]

theorem of_none (hE : ∀ f p w, ¬isEnd f p w) (hends : ∀ p, ends p = none) : Ended isEnd ends where
  isOpen p e he := by
    rw [hends p] at he
    cases he
  held p e w he := by
    rw [hends p] at he
    cases he
  used f p w hf := absurd hf (hE f p w)
  unique f g p w hf := absurd hf (hE f p w)

theorem used_iff (h : Ended isEnd ends) {p : π} : ends p ≠ none ↔ ∃ f w, isEnd f p w := by
  refine ⟨fun hp => ?_, fun ⟨f, w, hf⟩ => h.used f p w hf⟩
  obtain ⟨e, he⟩ := Option.ne_none_iff_exists'.mp hp
  obtain ⟨w, hw⟩ := h.isOpen p e he
  obtain ⟨f, hf⟩ := (h.held p e w he).mp hw
  exact ⟨f, w, hf⟩

section
variable {f : φ} {p : π} {w : Bool} {e : Bool → Bool}

theorem held_close (h : Ended isEnd ends) (hf : ∀ q v, isEnd f q v ↔ q = p ∧ v = w)
    (he : ends p = some e) (hE : ∀ g q v, isEnd' g q v ↔ g ≠ f ∧ isEnd g q v) {v : Bool} :
    Function.update e w false v = true ↔ ∃ g, isEnd' g p v := by
  simp only [hE]
  by_cases hvw : v = w
  · subst hvw
    rw [Function.update_self]
    refine ⟨nofun, fun ⟨g, hgf, hg⟩ => ?_⟩
    exact absurd (h.unique g f p v hg ((hf p v).mpr ⟨rfl, rfl⟩)) hgf
  · rw [Function.update_of_ne hvw, h.held p e v he]
    refine exists_congr fun g => ⟨fun hg => ⟨?_, hg⟩, And.right⟩
    rintro rfl
    exact hvw ((hf p v).mp hg).2

theorem held_other (h : Ended isEnd ends) (hf : ∀ q v, isEnd f q v ↔ q = p ∧ v = w)
    (hE : ∀ g q v, isEnd' g q v ↔ g ≠ f ∧ isEnd g q v) {q : π} (hq : q ≠ p) {e' : Bool → Bool}
    (he' : ends q = some e') {v : Bool} : e' v = true ↔ ∃ g, isEnd' g q v := by
  simp only [hE]
  rw [h.held q e' v he']
  refine exists_congr fun g => ⟨fun hg => ⟨?_, hg⟩, And.right⟩
  rintro rfl
  exact hq ((hf q v).mp hg).1

variable [DecidableEq π]

theorem close (h : Ended isEnd ends) (hf : ∀ q v, isEnd f q v ↔ q = p ∧ v = w)
    (he : ends p = some e) (hE : ∀ g q v, isEnd' g q v ↔ g ≠ f ∧ isEnd g q v)
    (hopen : ∃ v, Function.update e w false v = true) :
    Ended isEnd' (Function.update ends p (some (Function.update e w false))) := by
  refine ⟨fun q e' hq => ?_, fun q e' v hq => ?_, fun g q v hg => ?_, fun g g' q v hg hg' => ?_⟩
  · by_cases hqp : q = p
    · rw [hqp, Function.update_self] at hq
      cases hq
      exact hopen
    · rw [Function.update_of_ne hqp] at hq
      exact h.isOpen q e' hq
  · by_cases hqp : q = p
    · subst hqp
      rw [Function.update_self] at hq
      cases hq
      exact h.held_close hf he hE
    · rw [Function.update_of_ne hqp] at hq
      exact h.held_other hf hE hqp hq
  · by_cases hqp : q = p
    · rw [hqp, Function.update_self]
      exact Option.some_ne_none _
    · rw [Function.update_of_ne hqp]
      exact h.used g q v ((hE g q v).mp hg).2
  · exact h.unique g g' q v ((hE g q v).mp hg).2 ((hE g' q v).mp hg').2

theorem drop (h : Ended isEnd ends) (hf : ∀ q v, isEnd f q v ↔ q = p ∧ v = w)
    (he : ends p = some e) (hE : ∀ g q v, isEnd' g q v ↔ g ≠ f ∧ isEnd g q v)
    (hopen : ∀ v, Function.update e w false v = false) :
    Ended isEnd' (Function.update ends p none) := by
  have hp : ∀ q e', Function.update ends p none q = some e' → q ≠ p ∧ ends q = some e' := by
    intro q e' hq
    by_cases hqp : q = p
    · rw [hqp, Function.update_self] at hq
      cases hq
    · rw [Function.update_of_ne hqp] at hq
      exact ⟨hqp, hq⟩
  refine ⟨fun q e' hq => h.isOpen q e' (hp q e' hq).2, fun q e' v hq => ?_, fun g q v hg => ?_,
    fun g g' q v hg hg' => h.unique g g' q v ((hE g q v).mp hg).2 ((hE g' q v).mp hg').2⟩
  · exact h.held_other hf hE (hp q e' hq).1 (hp q e' hq).2
  · by_cases hqp : q = p
    · subst hqp
      have hclosed := hopen v
      rw [(h.held_close hf he hE).mpr ⟨g, hg⟩] at hclosed
      cases hclosed
    · rw [Function.update_of_ne hqp]
      exact h.used g q v ((hE g q v).mp hg).2

end

theorem add [DecidableEq π] (h : Ended isEnd ends) {f : Bool → φ} {p : π} (hp : ends p = none)
    (hE : ∀ g q v, isEnd' g q v ↔ isEnd g q v ∨ q = p ∧ g = f v) :
    Ended isEnd' (Function.update ends p (some fun _ => true)) := by
  have hnone : ∀ g v, ¬isEnd g p v := fun g v hg => h.used g p v hg hp
  refine ⟨fun q e hq => ?_, fun q e v hq => ?_, fun g q v hg => ?_, fun g g' q v hg hg' => ?_⟩
  · by_cases hqp : q = p
    · rw [hqp, Function.update_self] at hq
      cases hq
      exact ⟨true, rfl⟩
    · rw [Function.update_of_ne hqp] at hq
      exact h.isOpen q e hq
  · by_cases hqp : q = p
    · subst hqp
      rw [Function.update_self] at hq
      cases hq
      exact iff_of_true rfl ⟨f v, (hE _ _ _).mpr (.inr ⟨rfl, rfl⟩)⟩
    · rw [Function.update_of_ne hqp] at hq
      rw [h.held q e v hq]
      refine exists_congr fun g => ?_
      rw [hE]
      exact ⟨.inl, fun hg => hg.resolve_right fun hnew => hqp hnew.1⟩
  · by_cases hqp : q = p
    · rw [hqp, Function.update_self]
      exact Option.some_ne_none _
    · rw [Function.update_of_ne hqp]
      exact h.used g q v (((hE g q v).mp hg).resolve_right fun hnew => hqp hnew.1)
  · rcases (hE g q v).mp hg with hold | ⟨hqp, hnew⟩ <;>
      rcases (hE g' q v).mp hg' with hold' | ⟨hqp', hnew'⟩
    · exact h.unique g g' q v hold hold'
    · exact absurd (hqp' ▸ hold) (hnone g v)
    · exact absurd (hqp ▸ hold') (hnone g' v)
    · rw [hnew, hnew']

end Ended
