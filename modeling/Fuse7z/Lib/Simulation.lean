/-
  Fuse7z.Lib.Simulation

  Two machines that answer the same events.

  `Simulates Rel Fits` says that from related states every event is answered
  by replies that fit, and leads to related states.  Then whole runs do:
  the replies fit one by one (`Simulates.replies`) and the last states are
  related (`Simulates.run`).  One of the machines may be the purpose of the
  other, or the other with different inputs.
-/
import Fuse7z.Lib.Run
import Mathlib.Data.List.Forall2

namespace Lib

variable {S S' : Type _} {E : Type _} {R R' : Type _}

/-- The replies of a run, in order. -/
def replies (step : S → E → R × S) : S → List E → List R
  | _, [] => []
  | s, e :: es => (step s e).1 :: replies step (step s e).2 es

@[simp] theorem replies_nil (step : S → E → R × S) (s : S) : replies step s [] = [] := rfl

@[simp] theorem replies_cons (step : S → E → R × S) (s : S) (e : E) (es : List E) :
    replies step s (e :: es) = (step s e).1 :: replies step (step s e).2 es := rfl

/-- A property of the replies is one of the steps. -/
theorem forall_mem_replies_iff {step : S → E → R × S} {Q : R → Prop} {s : S} {es : List E} :
    (∀ r ∈ replies step s es, Q r) ↔ Along step (fun s e => Q (step s e).1) s es := by
  induction es generalizing s with
  | nil => exact iff_of_true (fun r hr => absurd hr List.not_mem_nil) trivial
  | cons e es ih => rw [replies_cons, List.forall_mem_cons, ih, along_cons]

/-- The event that got the first reply of a kind. -/
theorem findSome?_replies_eq_some_iff {X : Type _} {step : S → E → R × S} {g : R → Option X} {s : S}
    {es : List E} {x : X} :
    (replies step s es).findSome? g = some x ↔
      ∃ front e back, es = front ++ e :: back ∧ (replies step s front).findSome? g = none ∧
        g (step (run step s front) e).1 = some x := by
  induction es generalizing s with
  | nil => exact iff_of_false (by simp) (by simp)
  | cons e es ih =>
      rw [replies_cons, List.findSome?_cons]
      cases hg : g (step s e).1 with
      | some y =>
          refine ⟨?_, ?_⟩
          · intro h
            obtain rfl := Option.some.inj h
            exact ⟨[], e, es, rfl, rfl, hg⟩
          · rintro ⟨front, d, back, hsplit, hfront, hd⟩
            cases front with
            | nil =>
                obtain ⟨rfl, -⟩ := List.cons.inj hsplit
                exact hg.symm.trans hd
            | cons d' front =>
                obtain ⟨rfl, -⟩ := List.cons.inj hsplit
                rw [replies_cons, List.findSome?_cons, hg] at hfront
                exact absurd hfront (by simp)
      | none =>
          simp only [ih]
          refine ⟨?_, ?_⟩
          · rintro ⟨front, d, back, rfl, hfront, hd⟩
            refine ⟨e :: front, d, back, rfl, ?_, hd⟩
            rw [replies_cons, List.findSome?_cons, hg]
            exact hfront
          · rintro ⟨front, d, back, hsplit, hfront, hd⟩
            cases front with
            | nil =>
                obtain ⟨rfl, -⟩ := List.cons.inj hsplit
                exact absurd (hg.symm.trans hd) (by simp)
            | cons d' front =>
                obtain ⟨rfl, rfl⟩ := List.cons.inj hsplit
                rw [replies_cons, List.findSome?_cons, hg] at hfront
                exact ⟨front, d, back, rfl, hfront, hd⟩

/-- A part of the state that along a run is what another machine makes of it,
    with the replies of that one. -/
theorem Along.view_eq {S' : Type _} {step : S → E → R × S} {step' : S' → E → R × S'} (view : S → S')
    {s : S} {es : List E}
    (h : Along step (fun s e => (step s e).1 = (step' (view s) e).1 ∧
      view (step s e).2 = (step' (view s) e).2) s es) :
    replies step s es = replies step' (view s) es ∧ view (run step s es) = run step' (view s) es := by
  induction es generalizing s with
  | nil => exact ⟨rfl, rfl⟩
  | cons e es ih =>
      obtain ⟨⟨hreply, hview⟩, hrest⟩ := h
      obtain ⟨hreplies, hrun⟩ := ih hrest
      rw [replies_cons, replies_cons, run_cons, run_cons, hreplies, hrun, hreply, hview]
      exact ⟨rfl, rfl⟩

/-- Every event takes related states to related states, with replies that fit. -/
structure Simulates (step : S → E → R × S) (step' : S' → E → R' × S') (Rel : S → S' → Prop)
    (Fits : R → R' → Prop) : Prop where
  reply : ∀ {s : S} {s' : S'} (e : E), Rel s s' → Fits (step s e).1 (step' s' e).1
  next : ∀ {s : S} {s' : S'} (e : E), Rel s s' → Rel (step s e).2 (step' s' e).2

variable {step : S → E → R × S} {step' : S' → E → R' × S'} {Rel : S → S' → Prop}
  {Fits : R → R' → Prop}

/-- **Related states stay related** over a run. -/
theorem Simulates.run (h : Simulates step step' Rel Fits) {s : S} {s' : S'} (h0 : Rel s s')
    (es : List E) : Rel (Lib.run step s es) (Lib.run step' s' es) := by
  induction es generalizing s s' with
  | nil => exact h0
  | cons e es ih => exact ih (h.next e h0)

/-- **The replies of a run fit**, one by one. -/
theorem Simulates.replies (h : Simulates step step' Rel Fits) {s : S} {s' : S'} (h0 : Rel s s')
    (es : List E) : List.Forall₂ Fits (Lib.replies step s es) (Lib.replies step' s' es) := by
  induction es generalizing s s' with
  | nil => exact List.Forall₂.nil
  | cons e es ih => exact List.Forall₂.cons (h.reply e h0) (ih (h.next e h0))

end Lib
