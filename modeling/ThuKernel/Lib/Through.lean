-- The states that a program passes through, when it is built from given steps.
import ThuKernel.Lib.Prog

namespace ThuKernel

/-- The program is built from the steps in `A`, and from `s` on it is in `P` before and
after each of them. -/
inductive Through {σ : Type} (A : (α : Type) → Prog σ α → Prop) (P : σ → Prop) :
    {α : Type} → Prog σ α → σ → Prop
  | step {α : Type} {f : Prog σ α} {s : σ} : A α f → P s → (∀ a s', f s = .ok (a, s') → P s') →
      Through A P f s
  | bind {α β : Type} {f : Prog σ α} {g : α → Prog σ β} {s : σ} : Through A P f s →
      (∀ a s', f s = .ok (a, s') → Through A P (g a) s') → Through A P (f >>= g) s

variable {σ α : Type} {A : (α : Type) → Prog σ α → Prop} {P P' : σ → Prop} {f : Prog σ α} {s : σ}

theorem Through.mono (h : Through A P f s) (hP : ∀ t, P t → P' t) : Through A P' f s := by
  induction h with
  | step hA hs hnext => exact .step hA (hP _ hs) fun a s' hok => hP _ (hnext a s' hok)
  | bind _ _ ihf ihg => exact .bind ihf fun a s' hok => ihg a s' hok

end ThuKernel
