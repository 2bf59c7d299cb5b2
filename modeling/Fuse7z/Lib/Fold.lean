/-
  Fuse7z.Lib.Fold

  Loops that stop at the first failure: `foldlM` into `Except`.

  A loop that gets through has kept what every turn keeps (`foldlM_ok`); one
  that does not stopped at one element, behind others it got through
  (`foldlM_error`).
-/
import Mathlib.Data.List.Basic

namespace Lib

variable {S : Type} {E : Type} {X : Type} {f : S → E → Except X S}

theorem foldlM_cons_ok {s s' : S} {e : E} (h : f s e = .ok s') (es : List E) :
    (e :: es).foldlM f s = es.foldlM f s' := by
  rw [List.foldlM_cons, h]
  rfl

theorem foldlM_cons_error {s : S} {e : E} {x : X} (h : f s e = .error x) (es : List E) :
    (e :: es).foldlM f s = .error x := by
  rw [List.foldlM_cons, h]
  rfl

/-- What holds of the elements taken and the state they led to, with every
    turn, holds when the loop is through. -/
theorem foldlM_ok {I : List E → S → Prop} (hstep : ∀ a s e s', I a s → f s e = .ok s' →
      I (a ++ [e]) s') {a es : List E} {s s' : S} (h0 : I a s) (h : es.foldlM f s = .ok s') :
    I (a ++ es) s' := by
  induction es generalizing a s with
  | nil =>
      obtain rfl := Except.ok.inj h
      rw [List.append_nil]
      exact h0
  | cons e es ih =>
      cases hf : f s e with
      | error x => exact absurd ((foldlM_cons_error hf es).symm.trans h) (by simp)
      | ok s₁ =>
          rw [foldlM_cons_ok hf] at h
          rw [List.append_cons]
          exact ih (hstep a s e s₁ h0 hf) h

/-- Where the loop stopped. -/
theorem foldlM_error {es : List E} {s : S} {x : X} (h : es.foldlM f s = .error x) :
    ∃ a e b s', es = a ++ e :: b ∧ a.foldlM f s = .ok s' ∧ f s' e = .error x := by
  induction es generalizing s with
  | nil => exact absurd h (by simp [pure, Except.pure])
  | cons e es ih =>
      cases hf : f s e with
      | error y =>
          obtain rfl := Except.error.inj ((foldlM_cons_error hf es).symm.trans h)
          exact ⟨[], e, es, s, rfl, rfl, hf⟩
      | ok s₁ =>
          rw [foldlM_cons_ok hf] at h
          obtain ⟨a, d, b, s', rfl, ha, hd⟩ := ih h
          exact ⟨e :: a, d, b, s', rfl, (foldlM_cons_ok hf a).trans ha, hd⟩

end Lib
