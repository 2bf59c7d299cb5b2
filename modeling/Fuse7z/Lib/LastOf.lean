/-
  Fuse7z.Lib.LastOf

  The last occurrence of an element in a list.

  A list that has the element is `a ++ c :: b` with no `c` in `b`
  (`exists_last`), and in that form the index of the last occurrence is the
  length of `a` (`lastIndex_append`) and what is behind it is `b`
  (`afterLast_append`).  A name is cut at its last separator like this.
-/
import Mathlib.Data.List.DropRight

namespace Lib

variable {α : Type _}

theorem exists_last {c : α} {s : List α} (h : c ∈ s) : ∃ a b, s = a ++ c :: b ∧ c ∉ b := by
  -- the first occurrence from behind
  obtain ⟨b, a, hrev, hb⟩ := List.eq_append_cons_of_mem (List.mem_reverse.mpr h)
  refine ⟨a.reverse, b.reverse, ?_, ?_⟩
  · calc s = s.reverse.reverse := (List.reverse_reverse s).symm
      _ = (b ++ c :: a).reverse := by rw [hrev]
      _ = a.reverse ++ c :: b.reverse := by simp
  · rw [List.mem_reverse]
    exact hb

variable [DecidableEq α]

/-- The last index of an element. -/
def lastIndex (c : α) : List α → Option Nat
  | [] => none
  | x :: xs =>
      match lastIndex c xs with
      | some i => some (i + 1)
      | none => if x = c then some 0 else none

/-- What is behind the last `c`; everything where there is none. -/
def afterLast (c : α) (s : List α) : List α := s.rtakeWhile fun x => x ≠ c

theorem lastIndex_of_not_mem {c : α} {s : List α} (h : c ∉ s) : lastIndex c s = none := by
  induction s with
  | nil => rfl
  | cons x xs ih =>
      rw [List.mem_cons, not_or] at h
      rw [lastIndex, ih h.2]
      exact if_neg (Ne.symm h.1)

theorem lastIndex_append {c : α} (a : List α) {b : List α} (h : c ∉ b) :
    lastIndex c (a ++ c :: b) = some a.length := by
  induction a with
  | nil =>
      rw [List.nil_append, lastIndex, lastIndex_of_not_mem h]
      exact if_pos rfl
  | cons x a ih => rw [List.cons_append, lastIndex, ih, List.length_cons]

theorem afterLast_of_not_mem {c : α} {s : List α} (h : c ∉ s) : afterLast c s = s := by
  rw [afterLast, List.rtakeWhile_eq_self_iff]
  intro x hx
  have hne : x ≠ c := ne_of_mem_of_not_mem hx h
  exact decide_eq_true hne

theorem afterLast_append {c : α} (a : List α) {b : List α} (h : c ∉ b) :
    afterLast c (a ++ c :: b) = b := by
  have hrev : (a ++ c :: b).reverse = b.reverse ++ c :: a.reverse := by simp
  have hall : ∀ x ∈ b.reverse, decide (x ≠ c) = true := by
    intro x hx
    have hne : x ≠ c := ne_of_mem_of_not_mem (List.mem_reverse.mp hx) h
    exact decide_eq_true hne
  -- from behind, `b` is taken and `c` is not
  have hstop : (c :: a.reverse).takeWhile (fun x => decide (x ≠ c)) = [] := by
    rw [List.takeWhile_cons, if_neg (by simp)]
  rw [afterLast, List.rtakeWhile, hrev, List.takeWhile_append_of_pos hall, hstop, List.append_nil,
    List.reverse_reverse]

end Lib
