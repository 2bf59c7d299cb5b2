/-
  Fuse7z.Lib.Run

  Runs of a deterministic machine that answers every event:
  `step s e` is the reply and the state after the event `e`.

  `Along step P s es` says that every step the run of `es` from `s` takes
  meets `P`.  The rules are the usual ones: what every step keeps, the run
  keeps (`run_invariant`), and properties of a step that agree under an
  invariant hold along the same runs (`Along.iff_of_invariant`).
-/
import Mathlib.Data.List.Basic

namespace Lib

variable {S : Type _} {E : Type _} {R : Type _}

/-- The state after the events. -/
def run (step : S → E → R × S) : S → List E → S
  | s, [] => s
  | s, e :: es => run step (step s e).2 es

/-- The events of a run with the replies they got. -/
def transcript (step : S → E → R × S) : S → List E → List (E × R)
  | _, [] => []
  | s, e :: es => (e, (step s e).1) :: transcript step (step s e).2 es

/-- Every step of the run meets `P`. -/
def Along (step : S → E → R × S) (P : S → E → Prop) : S → List E → Prop
  | _, [] => True
  | s, e :: es => P s e ∧ Along step P (step s e).2 es

variable {step : S → E → R × S} {I : S → Prop} {P Q : S → E → Prop}

@[simp] theorem run_nil (s : S) : run step s [] = s := rfl

@[simp] theorem run_cons (s : S) (e : E) (es : List E) :
    run step s (e :: es) = run step (step s e).2 es := rfl

theorem run_append (s : S) (es es' : List E) :
    run step s (es ++ es') = run step (run step s es) es' := by
  induction es generalizing s with
  | nil => rfl
  | cons e es ih => exact ih (step s e).2

@[simp] theorem transcript_nil (s : S) : transcript step s [] = [] := rfl

@[simp] theorem transcript_cons (s : S) (e : E) (es : List E) :
    transcript step s (e :: es) = (e, (step s e).1) :: transcript step (step s e).2 es := rfl

@[simp] theorem along_nil (s : S) : Along step P s [] := trivial

@[simp] theorem along_cons (s : S) (e : E) (es : List E) :
    Along step P s (e :: es) ↔ P s e ∧ Along step P (step s e).2 es := Iff.rfl

theorem along_of_forall (h : ∀ s e, P s e) (s : S) (es : List E) : Along step P s es := by
  induction es generalizing s with
  | nil => trivial
  | cons e es ih => exact ⟨h s e, ih (step s e).2⟩

theorem Along.and {s : S} {es : List E} (hP : Along step P s es) (hQ : Along step Q s es) :
    Along step (fun s e => P s e ∧ Q s e) s es := by
  induction es generalizing s with
  | nil => trivial
  | cons e es ih => exact ⟨⟨hP.1, hQ.1⟩, ih hP.2 hQ.2⟩

/-- A property the steps that meet `P` keep holds at the end of a run of them. -/
theorem run_invariant (hstep : ∀ s e, I s → P s e → I (step s e).2)
    {s : S} {es : List E} (h0 : I s) (hP : Along step P s es) : I (run step s es) := by
  induction es generalizing s with
  | nil => exact h0
  | cons e es ih => exact ih (hstep s e h0 hP.1) hP.2

/-- A property every step keeps holds at the end of every run. -/
theorem run_invariant' (hstep : ∀ s e, I s → I (step s e).2)
    {s : S} (es : List E) (h0 : I s) : I (run step s es) := by
  induction es generalizing s with
  | nil => exact h0
  | cons e es ih => exact ih (hstep s e h0)

/-- What every step does to a part of the state, the run does: the part is a
    machine of its own that gets some of the events. -/
theorem run_view {S' : Type _} {E' : Type _} {R' : Type _} {step' : S' → E' → R' × S'}
    (view : S → S') {calls : E → List E'} (hstep : ∀ s e, I s → P s e → I (step s e).2)
    (hview : ∀ s e, I s → P s e → view (step s e).2 = run step' (view s) (calls e)) {s : S}
    {es : List E} (h0 : I s) (hP : Along step P s es) :
    view (run step s es) = run step' (view s) (es.flatMap calls) := by
  induction es generalizing s with
  | nil => rfl
  | cons e es ih =>
      rw [run_cons, ih (hstep s e h0 hP.1) hP.2, hview s e h0 hP.1, List.flatMap_cons, run_append]

/-- Two step properties that agree at every state of an invariant the first
    one keeps hold along the same runs. -/
theorem Along.iff_of_invariant {C : S → E → Prop}
    (hiff : ∀ s e, I s → P s e → (Q s e ↔ C s e))
    (hstep : ∀ s e, I s → P s e → Q s e → I (step s e).2) {s : S} {es : List E} (h0 : I s)
    (hP : Along step P s es) : Along step Q s es ↔ Along step C s es := by
  induction es generalizing s with
  | nil => exact Iff.rfl
  | cons e es ih =>
      obtain ⟨hPe, hPes⟩ := hP
      -- at the first step the two agree, and the invariant reaches the second
      rw [along_cons, along_cons, ← hiff s e h0 hPe]
      refine ⟨?_, ?_⟩
      · rintro ⟨hQe, hQes⟩
        exact ⟨hQe, (ih (hstep s e h0 hPe hQe) hPes).mp hQes⟩
      · rintro ⟨hQe, hCes⟩
        exact ⟨hQe, (ih (hstep s e h0 hPe hQe) hPes).mpr hCes⟩

/-- The same without a condition on the steps. -/
theorem along_congr {C : S → E → Prop} (hiff : ∀ s e, I s → (Q s e ↔ C s e))
    (hstep : ∀ s e, I s → I (step s e).2) {s : S} (es : List E) (h0 : I s) :
    Along step Q s es ↔ Along step C s es := by
  induction es generalizing s with
  | nil => exact Iff.rfl
  | cons e es ih => rw [along_cons, along_cons, hiff s e h0, ih (hstep s e h0)]

end Lib
