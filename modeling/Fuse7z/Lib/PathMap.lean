/-
  Fuse7z.Lib.PathMap

  Prefix-closed maps from label lists to values: the meaning of a directory
  tree, without its nodes.

  Putting a value at a path overrides what the path had and gives every
  prefix of it that had nothing yet an `implied` value.  `build_eq` is the
  closed form after any sequence of puts: a path holds the value put there
  last, or else the implied value when something was put below it.
-/
import Mathlib.Data.List.Basic
import Mathlib.Data.List.Infix
import Mathlib.Data.List.Induction

namespace Lib

namespace PathMap

variable {K : Type _} {V : Type _} [DecidableEq K]

/-- The map of a tree that is only its root. -/
def root (implied : V) : List K → Option V := fun p => if p = [] then some implied else none

/-- Put `v` at `ks`, and `implied` at the prefixes of `ks` that have nothing. -/
def put (implied : V) (m : List K → Option V) (ks : List K) (v : V) : List K → Option V :=
  fun p => if p = ks then some v else if p <+: ks then some ((m p).getD implied) else m p

/-- Puts in the order of the list. -/
def build (implied : V) (es : List (List K × V)) : List K → Option V :=
  es.foldl (fun m e => put implied m e.1 e.2) (root implied)

/-- The value put at `p` last. -/
def lastAt (es : List (List K × V)) (p : List K) : Option V :=
  (es.reverse.find? fun e => e.1 = p).map Prod.snd

theorem put_self (implied : V) (m : List K → Option V) (ks : List K) (v : V) :
    put implied m ks v ks = some v := if_pos rfl

theorem put_implied (implied : V) (m : List K → Option V) {ks p : List K} (v : V)
    (hne : p ≠ ks) (h : p <+: ks) : put implied m ks v p = some ((m p).getD implied) := by
  rw [put, if_neg hne, if_pos h]

theorem put_other (implied : V) (m : List K → Option V) {ks p : List K} (v : V)
    (h : ¬ p <+: ks) : put implied m ks v p = m p := by
  have hne : p ≠ ks := fun heq => h (heq ▸ List.prefix_rfl)
  rw [put, if_neg hne, if_neg h]

theorem build_concat (implied : V) (es : List (List K × V)) (e : List K × V) :
    build implied (es ++ [e]) = put implied (build implied es) e.1 e.2 := by
  rw [build, List.foldl_append]
  rfl

theorem lastAt_concat (es : List (List K × V)) (e : List K × V) (p : List K) :
    lastAt (es ++ [e]) p = if e.1 = p then some e.2 else lastAt es p := by
  rw [lastAt, List.reverse_append, List.reverse_singleton, List.singleton_append,
    List.find?_cons]
  by_cases h : e.1 = p
  · simp [h]
  · simp [h, lastAt]

/-- **Closed form of a sequence of puts.** -/
theorem build_eq (implied : V) (es : List (List K × V)) (p : List K) :
    build implied es p =
      match lastAt es p with
      | some v => some v
      | none => if p = [] ∨ ∃ e ∈ es, p <+: e.1 then some implied else none := by
  induction es using List.reverseRecOn with
  | nil => simp [build, root, lastAt]
  | append_singleton es e ih =>
      rw [build_concat, lastAt_concat]
      by_cases hself : e.1 = p
      · rw [if_pos hself, ← hself, put_self]
      · rw [if_neg hself]
        by_cases hpre : p <+: e.1
        · rw [put_implied _ _ _ (Ne.symm hself) hpre, ih]
          -- above the new path: what was there, else implied from now on
          have hex : p = [] ∨ ∃ e' ∈ es ++ [e], p <+: e'.1 :=
            Or.inr ⟨e, List.mem_concat_self, hpre⟩
          cases lastAt es p with
          | some v => rfl
          | none =>
              simp only [if_pos hex]
              split_ifs <;> rfl
        · rw [put_other _ _ _ hpre, ih]
          -- not above it: the new path is no reason for `p` to be there
          have hiff : (∃ e' ∈ es ++ [e], p <+: e'.1) ↔ ∃ e' ∈ es, p <+: e'.1 := by
            simp [hpre]
          simp only [hiff]

end PathMap
end Lib
