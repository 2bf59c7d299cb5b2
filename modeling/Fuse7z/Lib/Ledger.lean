/-
  Fuse7z.Lib.Ledger

  Accounting for resources that are made in order and kept in slots.

  A resource is known by how many were made before it.  At any time it is in
  one slot, or it was given back, or it is lost, because something else was
  put in its slot.  `Balanced` says just that, as a permutation of all that was
  made: nothing is in two slots, nothing is given back twice, and what is
  given back is in no slot.  The rules are one for each thing that can be done
  to a slot.
-/
import Mathlib.Data.List.Basic
import Mathlib.Data.List.Nodup
import Mathlib.Data.List.Range
import Mathlib.Data.List.Perm.Basic

namespace Lib

/-- What the slots below `n` hold. -/
def held (slot : Nat → Option Nat) (n : Nat) : List Nat := (List.range n).filterMap slot

/-- Of `made` resources, each one is in one slot below `n`, or was given back
    once, or is lost. -/
def Balanced (slot : Nat → Option Nat) (n made : Nat) (given lost : List Nat) : Prop :=
  (held slot n ++ given ++ lost).Perm (List.range made)

variable {slot slot' : Nat → Option Nat} {n made : Nat} {given lost : List Nat}

theorem held_congr (h : ∀ b < n, slot' b = slot b) : held slot' n = held slot n :=
  List.filterMap_congr fun b hb => h b (List.mem_range.mp hb)

theorem mem_held {r : Nat} : r ∈ held slot n ↔ ∃ a < n, slot a = some r := by
  simp only [held, List.mem_filterMap, List.mem_range]

/-- One slot split off from the others. -/
theorem held_perm_cons (slot : Nat → Option Nat) {a : Nat} (ha : a < n) :
    (held slot n).Perm ((slot a).toList ++ ((List.range n).erase a).filterMap slot) := by
  have hsplit : (List.range n).Perm (a :: (List.range n).erase a) :=
    List.perm_cons_erase (List.mem_range.mpr ha)
  have hmap := hsplit.filterMap slot
  rw [List.filterMap_cons] at hmap
  cases hslot : slot a with
  | none =>
      rw [hslot] at hmap
      exact hmap
  | some r =>
      rw [hslot] at hmap
      exact hmap

/-- Filling one slot anew exchanges what it held for what it holds. -/
theorem held_update {a : Nat} (ha : a < n) (hother : ∀ b < n, b ≠ a → slot' b = slot b) :
    (held slot' n ++ (slot a).toList).Perm (held slot n ++ (slot' a).toList) := by
  have hrest : ((List.range n).erase a).filterMap slot' = ((List.range n).erase a).filterMap slot := by
    apply List.filterMap_congr
    intro b hb
    obtain ⟨hne, hb⟩ := (List.nodup_range.mem_erase_iff).mp hb
    exact hother b (List.mem_range.mp hb) hne
  -- both sides are the two contents of the slot and what the others hold
  rw [List.perm_iff_count]
  intro r
  have hnew := (held_perm_cons slot' ha).count_eq r
  have hold := (held_perm_cons slot ha).count_eq r
  rw [List.count_append, hrest] at hnew
  rw [List.count_append] at hold
  rw [List.count_append, List.count_append]
  omega

/-! ## Rules -/

/-- Nothing was made yet. -/
theorem Balanced.start (h : ∀ b < n, slot b = none) : Balanced slot n 0 [] [] := by
  have hnone : held slot n = [] := by
    rw [held, List.filterMap_eq_nil_iff]
    exact fun b hb => h b (List.mem_range.mp hb)
  rw [Balanced, hnone]
  exact List.Perm.refl _

/-- No slot changes. -/
theorem Balanced.keep (h : Balanced slot n made given lost) (hsame : ∀ b < n, slot' b = slot b) :
    Balanced slot' n made given lost := by
  rw [Balanced, held_congr hsame]
  exact h

/-- What a slot holds is given back. -/
theorem Balanced.give (h : Balanced slot n made given lost) {a : Nat} (ha : a < n)
    (hnone : slot' a = none) (hother : ∀ b < n, b ≠ a → slot' b = slot b) :
    Balanced slot' n made (given ++ (slot a).toList) lost := by
  rw [Balanced, List.perm_iff_count]
  intro r
  have hbefore := h.count_eq r
  have hswap := (held_update ha hother).count_eq r
  simp only [List.count_append, hnone, Option.toList_none, List.count_nil] at hbefore hswap ⊢
  omega

/-- A new resource is put in a slot, over what it held. -/
theorem Balanced.make (h : Balanced slot n made given lost) {a : Nat} (ha : a < n)
    (hnew : slot' a = some made) (hother : ∀ b < n, b ≠ a → slot' b = slot b) :
    Balanced slot' n (made + 1) given (lost ++ (slot a).toList) := by
  rw [Balanced, List.perm_iff_count]
  intro r
  have hbefore := h.count_eq r
  have hswap := (held_update ha hother).count_eq r
  simp only [List.range_succ, List.count_append, hnew, Option.toList_some] at hbefore hswap ⊢
  omega

/-- A slot takes over what another one holds. -/
theorem Balanced.move (h : Balanced slot n made given lost) {a c : Nat} (ha : a < n) (hc : c < n)
    (hac : a ≠ c) (hempty : slot a = none) (hnew : slot' a = slot c) (hnone : slot' c = none)
    (hother : ∀ b < n, b ≠ a → b ≠ c → slot' b = slot b) : Balanced slot' n made given lost := by
  -- first the one slot is filled, then the other one is emptied
  have hfilled : ∀ b < n, b ≠ a → (fun b => if b = a then slot c else slot b) b = slot b :=
    fun b _ hb => if_neg hb
  have hdrained : ∀ b < n, b ≠ c → slot' b = (fun b => if b = a then slot c else slot b) b := by
    intro b hb hbc
    by_cases hba : b = a
    · rw [hba, hnew]
      exact (if_pos rfl).symm
    · rw [hother b hb hba hbc]
      exact (if_neg hba).symm
  have hfill := held_update ha hfilled
  have hdrain := held_update hc hdrained
  rw [Balanced, List.perm_iff_count]
  intro r
  have hbefore := h.count_eq r
  have hgot := hfill.count_eq r
  have hleft := hdrain.count_eq r
  simp only [List.count_append, hempty, hnone, if_neg (Ne.symm hac), if_true, Option.toList_none,
    List.count_nil] at hbefore hgot hleft ⊢
  omega

/-! ## What a balanced ledger rules out -/

/-- Nothing is given back twice, or while it is in a slot. -/
theorem Balanced.nodup (h : Balanced slot n made given lost) : (held slot n ++ given).Nodup :=
  (h.nodup_iff.mpr List.nodup_range).of_append_left

/-- What is in a slot was made, and not given back. -/
theorem Balanced.of_slot (h : Balanced slot n made given lost) {a r : Nat} (ha : a < n)
    (hr : slot a = some r) : r < made ∧ r ∉ given := by
  have hheld : r ∈ held slot n := mem_held.mpr ⟨a, ha, hr⟩
  refine ⟨?_, ?_⟩
  · have hall : r ∈ held slot n ++ given ++ lost :=
      List.mem_append_left _ (List.mem_append_left _ hheld)
    exact List.mem_range.mp (h.mem_iff.mp hall)
  · intro hgiven
    exact (List.nodup_append.mp h.nodup).2.2 r hheld r hgiven rfl

/-- Everything is in a slot or was given back just when nothing is lost. -/
theorem Balanced.lost_eq_nil_iff (h : Balanced slot n made given lost) :
    (held slot n ++ given).Perm (List.range made) ↔ lost = [] := by
  refine ⟨?_, ?_⟩
  · intro hall
    have hlen := hall.length_eq.trans h.length_eq.symm
    have hsplit : (held slot n ++ given ++ lost).length = (held slot n ++ given).length + lost.length :=
      List.length_append
    exact List.eq_nil_of_length_eq_zero (by omega)
  · rintro rfl
    rw [Balanced, List.append_nil] at h
    exact h

end Lib
