import Xv6.Lib.Ends
import Xv6.Vm.Kernel

/-!
# The ends of pipes

A pipe has two ends, each open as long as there is a file for it. `Files` says so for the table of
files and the pipes, and is kept by what the calls do with files.
-/

namespace Xv6.Vm

/-- The file `x` is the end of the pipe in page `p` that is written, or read. -/
def File.IsEnd (x : File) (p : Nat) (w : Bool) : Prop :=
  0 < x.ref ∧ x.type = .pipe ∧ x.pipe = p ∧ x.writable = w

def Ends.isOpen (e : Ends) (w : Bool) : Bool := if w then e.writeopen else e.readopen

/-- The ends after one of them is closed. -/
def Ends.close (e : Ends) (w : Bool) : Ends :=
  if w then { e with writeopen := false } else { e with readopen := false }

theorem Ends.isOpen_close {e : Ends} {w : Bool} : (e.close w).isOpen = update e.isOpen w false := by
  funext v
  cases v <;> cases w <;> rfl

theorem File.IsEnd.iff {x : File} {p q : Nat} {v w : Bool} (h : x.IsEnd p w) :
    x.IsEnd q v ↔ q = p ∧ v = w :=
  ⟨fun h' => ⟨h'.2.2.1.symm.trans h.2.2.1, h'.2.2.2.symm.trans h.2.2.2⟩,
    fun ⟨hq, hv⟩ => hq ▸ hv ▸ h⟩

/-- Each pipe has an open end, and the open ends are those of one file each. -/
structure Files (file : FileId → File) (pipe : Nat → Option Ends) : Prop where
  ends : Ended (fun f => (file f).IsEnd) (Option.map Ends.isOpen ∘ pipe)
  idle : ∀ f, (file f).ref = 0 → (file f).type ≠ .pipe

namespace Files

variable {file file' : FileId → File} {pipe : Nat → Option Ends} {f : FileId} {p : Nat} {w : Bool}

theorem used (h : Files file pipe) (hf : (file f).IsEnd p w) : pipe p ≠ none :=
  fun hp => h.ends.used f p w hf (congrArg (Option.map Ends.isOpen) hp)

theorem isOpen (h : Files file pipe) {e : Ends} (he : pipe p = some e) :
    e.readopen = true ∨ e.writeopen = true := by
  obtain ⟨w, hw⟩ := h.ends.isOpen p e.isOpen (congrArg (Option.map Ends.isOpen) he)
  cases w
  · exact .inl hw
  · exact .inr hw

/-- The number of references to a file changes, but not whether there are any. -/
theorem set_ref (h : Files file pipe) {n : Nat} (hn : 0 < n)
    (hf : 0 < (file f).ref ∨ (file f).type ≠ .pipe) :
    Files (update file f { file f with ref := n }) pipe := by
  refine ⟨h.ends.congr fun g p w => ?_, fun g hg => ?_⟩
  · by_cases hgf : g = f
    · simp only [File.IsEnd]
      grind
    · rw [update_of_ne hgf]
  · by_cases hgf : g = f
    · subst hgf
      rw [update_self] at hg
      exact absurd hg (Nat.pos_iff_ne_zero.mp hn)
    · rw [update_of_ne hgf] at hg ⊢
      exact h.idle g hg

theorem close (h : Files file pipe) (hf : (file f).type ≠ .pipe) :
    Files (update file f { file f with ref := 0, type := .none }) pipe := by
  refine ⟨h.ends.congr fun g p w => ?_, fun g hg => ?_⟩
  · by_cases hgf : g = f
    · subst hgf
      simp [File.IsEnd, hf]
    · rw [update_of_ne hgf]
  · by_cases hgf : g = f
    · subst hgf
      simp [update_self]
    · rw [update_of_ne hgf] at hg ⊢
      exact h.idle g hg

theorem isEnd_shut {g : FileId} {q : Nat} {v : Bool} :
    (update file f { file f with ref := 0, type := .none } g).IsEnd q v ↔
      g ≠ f ∧ (file g).IsEnd q v := by
  by_cases hgf : g = f
  · subst hgf
    simp [File.IsEnd]
  · simp [hgf]

theorem idle_shut (h : Files file pipe) (g : FileId)
    (hg : (update file f { file f with ref := 0, type := .none } g).ref = 0) :
    (update file f { file f with ref := 0, type := .none } g).type ≠ .pipe := by
  by_cases hgf : g = f
  · subst hgf
    simp [update_self]
  · rw [update_of_ne hgf] at hg ⊢
    exact h.idle g hg

theorem shut_set {e : Ends} (h : Files file pipe) (hf : (file f).IsEnd p w) (he : pipe p = some e)
    (hopen : (e.close w).readopen = true ∨ (e.close w).writeopen = true) :
    Files (update file f { file f with ref := 0, type := .none })
      (update pipe p (some (e.close w))) := by
  refine ⟨?_, h.idle_shut⟩
  rw [Function.comp_update, Option.map_some, Ends.isOpen_close]
  refine h.ends.close (fun _ _ => hf.iff) (congrArg _ he) (fun _ _ _ => isEnd_shut) ?_
  rw [← Ends.isOpen_close]
  exact hopen.elim (fun hr => ⟨false, hr⟩) fun hw => ⟨true, hw⟩

theorem shut_none {e : Ends} (h : Files file pipe) (hf : (file f).IsEnd p w) (he : pipe p = some e)
    (hread : (e.close w).readopen = false) (hwrite : (e.close w).writeopen = false) :
    Files (update file f { file f with ref := 0, type := .none })
      (update pipe p none) := by
  refine ⟨?_, h.idle_shut⟩
  rw [Function.comp_update]
  refine h.ends.drop (fun _ _ => hf.iff) (congrArg _ he) (fun _ _ _ => isEnd_shut) fun v => ?_
  rw [← Ends.isOpen_close]
  cases v
  · exact hread
  · exact hwrite

theorem addPipe (h : Files file pipe) {f₀ f₁ : FileId} {x₀ x₁ : File} (hp : pipe p = none)
    (hne : f₀ ≠ f₁) (hf₀ : (file f₀).type ≠ .pipe) (hf₁ : (file f₁).type ≠ .pipe)
    (hx₀ : x₀.IsEnd p false) (hx₁ : x₁.IsEnd p true) :
    Files (update (update file f₀ x₀) f₁ x₁)
      (update pipe p (some ⟨true, true⟩)) := by
  have hopen : Ends.isOpen ⟨true, true⟩ = fun _ => true := by
    funext v
    cases v <;> rfl
  refine ⟨?_, fun g hg => ?_⟩
  · rw [Function.comp_update, Option.map_some, hopen]
    refine h.ends.add (f := fun v => if v then f₁ else f₀) (congrArg _ hp) fun g q v => ?_
    by_cases hg₁ : g = f₁
    · have hold : ¬(file f₁).IsEnd q v := fun hend => hf₁ hend.2.1
      rw [hg₁, update_self, hx₁.iff]
      cases v <;> simp [hold, hne.symm]
    · rw [update_of_ne hg₁]
      by_cases hg₀ : g = f₀
      · have hold : ¬(file f₀).IsEnd q v := fun hend => hf₀ hend.2.1
        rw [hg₀, update_self, hx₀.iff]
        cases v <;> simp [hold, hne]
      · cases v <;> simp [hg₀, hg₁]
  · by_cases hg₁ : g = f₁
    · rw [hg₁, update_self] at hg
      exact absurd hg (Nat.pos_iff_ne_zero.mp hx₁.1)
    · rw [update_of_ne hg₁] at hg ⊢
      by_cases hg₀ : g = f₀
      · rw [hg₀, update_self] at hg
        exact absurd hg (Nat.pos_iff_ne_zero.mp hx₀.1)
      · rw [update_of_ne hg₀] at hg ⊢
        exact h.idle g hg

end Files

end Xv6.Vm
