/-
  Fuse7z.Lib.RefCount

  Objects that are deleted when the last reference to them is given up.

  Objects are numbered in the order they are made.  `RefCounts` is what a
  program keeps of them: a count for each, and which ones it has deleted.
  `Owned t refs` says that this is right when there are `refs a` references to
  the object `a`: then an object has been deleted, once, just when there is
  none.  The rules are one for each thing that can be done to a reference, in
  terms of the references there are afterwards.
-/
import Mathlib.Data.List.Nodup

namespace Lib

/-- The counts of the objects made so far. -/
structure RefCounts where
  made : Nat
  count : Nat → Nat
  deleted : List Nat

namespace RefCounts

/-- No object yet. -/
def empty : RefCounts := { made := 0, count := fun _ => 0, deleted := [] }

/-- One more object, with `n` references. -/
def make (t : RefCounts) (n : Nat) : RefCounts :=
  { t with made := t.made + 1, count := fun b => if b = t.made then n else t.count b }

/-- `++count` -/
def addRef (t : RefCounts) (a : Nat) : RefCounts :=
  { t with count := fun b => if b = a then t.count b + 1 else t.count b }

/-- `if (--count == 0) delete` -/
def release (t : RefCounts) (a : Nat) : RefCounts :=
  { t with
    count := fun b => if b = a then t.count b - 1 else t.count b
    deleted := if t.count a - 1 = 0 then t.deleted ++ [a] else t.deleted }

/-- The object is there. -/
def Live (t : RefCounts) (a : Nat) : Prop := a < t.made ∧ a ∉ t.deleted

instance (t : RefCounts) (a : Nat) : Decidable (t.Live a) := inferInstanceAs (Decidable (_ ∧ _))

/-- The counts are right for `refs a` references to every object `a`. -/
structure Owned (t : RefCounts) (refs : Nat → Nat) : Prop where
  count_eq : ∀ a, t.count a = refs a
  mem_deleted : ∀ a, a ∈ t.deleted ↔ a < t.made ∧ refs a = 0
  nodup : t.deleted.Nodup
  beyond : ∀ a, t.made ≤ a → refs a = 0

variable {t : RefCounts} {refs refs' : Nat → Nat} {a : Nat}

theorem owned_empty : empty.Owned fun _ => 0 where
  count_eq := fun _ => rfl
  mem_deleted := fun a => iff_of_false List.not_mem_nil fun h => Nat.not_lt_zero a h.1
  nodup := List.nodup_nil
  beyond := fun _ _ => rfl

theorem Owned.congr (h : t.Owned refs) (hrefs : ∀ b, refs' b = refs b) : t.Owned refs' := by
  have heq : refs' = refs := funext hrefs
  rw [heq]
  exact h

/-- An object with a reference to it is there. -/
theorem Owned.live (h : t.Owned refs) (ha : 0 < refs a) : t.Live a := by
  have hmade : a < t.made := by
    by_contra hover
    have hzero := h.beyond a (Nat.le_of_not_lt hover)
    omega
  refine ⟨hmade, ?_⟩
  rw [h.mem_deleted]
  omega

theorem Owned.live_iff (h : t.Owned refs) : t.Live a ↔ 0 < refs a := by
  refine ⟨?_, h.live⟩
  rintro ⟨hmade, hdeleted⟩
  rw [h.mem_deleted] at hdeleted
  by_contra hnone
  exact hdeleted ⟨hmade, by omega⟩

/-! ## Rules -/

/-- A new object, with the references it starts with. -/
theorem Owned.make (h : t.Owned refs) {n : Nat} (hn : 0 < n)
    (hrefs : ∀ b, refs' b = refs b + if b = t.made then n else 0) : (t.make n).Owned refs' where
  count_eq := by
    intro b
    show (if b = t.made then n else t.count b) = refs' b
    have hb := hrefs b
    have hcount := h.count_eq b
    split_ifs at hb ⊢ with hnew
    · have hzero := h.beyond b (by omega)
      omega
    · omega
  mem_deleted := by
    intro b
    show b ∈ t.deleted ↔ b < t.made + 1 ∧ refs' b = 0
    have hb := hrefs b
    rw [h.mem_deleted]
    split_ifs at hb with hnew
    · omega
    · omega
  nodup := h.nodup
  beyond := by
    intro b hover
    have hover' : t.made + 1 ≤ b := hover
    have hzero := h.beyond b (by omega)
    rw [hrefs, if_neg (by omega), hzero]

/-- One more reference to an object that has one. -/
theorem Owned.addRef (h : t.Owned refs) (ha : 0 < refs a)
    (hrefs : ∀ b, refs' b = refs b + if b = a then 1 else 0) : (t.addRef a).Owned refs' where
  count_eq := by
    intro b
    show (if b = a then t.count b + 1 else t.count b) = refs' b
    have hcount := h.count_eq b
    rw [hrefs]
    split_ifs with hb
    · omega
    · omega
  mem_deleted := by
    intro b
    show b ∈ t.deleted ↔ b < t.made ∧ refs' b = 0
    have hb := hrefs b
    rw [h.mem_deleted]
    split_ifs at hb with hba
    · rw [hba] at hb ⊢
      exact iff_of_false (by omega) (by omega)
    · rw [hb, Nat.add_zero]
  nodup := h.nodup
  beyond := by
    intro b hover
    have hzero := h.beyond b hover
    have hb : b ≠ a := by
      rintro rfl
      omega
    rw [hrefs, if_neg hb, hzero]

/-- A reference is given up; the last one takes the object with it. -/
theorem Owned.release (h : t.Owned refs) (ha : 0 < refs a)
    (hrefs : ∀ b, refs b = refs' b + if b = a then 1 else 0) : (t.release a).Owned refs' where
  count_eq := by
    intro b
    show (if b = a then t.count b - 1 else t.count b) = refs' b
    have hcount := h.count_eq b
    have hb := hrefs b
    split_ifs at hb ⊢ with hba
    · omega
    · omega
  mem_deleted := by
    intro b
    show b ∈ (if t.count a - 1 = 0 then t.deleted ++ [a] else t.deleted) ↔
      b < t.made ∧ refs' b = 0
    have hlive := h.live ha
    have hcount := h.count_eq a
    have hrefa := hrefs a
    have hrefb := hrefs b
    rw [if_pos rfl] at hrefa
    split_ifs with hlast
    · rw [List.mem_append, List.mem_singleton, h.mem_deleted]
      by_cases hb : b = a
      · rw [hb]
        exact iff_of_true (Or.inr rfl) ⟨hlive.1, by omega⟩
      · rw [if_neg hb] at hrefb
        rw [or_iff_left hb]
        omega
    · rw [h.mem_deleted]
      by_cases hb : b = a
      · rw [hb]
        omega
      · rw [if_neg hb] at hrefb
        omega
  nodup := by
    show (if t.count a - 1 = 0 then t.deleted ++ [a] else t.deleted).Nodup
    split_ifs with hlast
    · rw [List.nodup_append]
      refine ⟨h.nodup, List.nodup_singleton a, ?_⟩
      intro b hb c hc heq
      rw [List.mem_singleton.mp hc] at heq
      exact (h.live ha).2 (heq ▸ hb)
    · exact h.nodup
  beyond := by
    intro b hover
    have hzero := h.beyond b hover
    have hb := hrefs b
    omega

/-- When no reference is left every object has been deleted, once. -/
theorem Owned.all_deleted (h : t.Owned refs) (hnone : ∀ a, refs a = 0) :
    t.deleted.Perm (List.range t.made) := by
  rw [List.perm_ext_iff_of_nodup h.nodup List.nodup_range]
  intro a
  rw [h.mem_deleted, List.mem_range, and_iff_left (hnone a)]

end RefCounts

end Lib
