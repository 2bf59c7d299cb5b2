/-
  Fuse7z.Lib.OrdMap

  A map kept in the order of a comparator, the way an ordered associative
  container is: the entries stand in strictly ascending key order, two keys
  the comparator cannot tell apart are one key, and iteration visits the
  entries in that order.

  The order of the entries is a field of the map, so every map that can be
  built is sorted and no lemma below has a well-formedness hypothesis.
-/
import Mathlib.Data.List.Basic
import Mathlib.Data.List.Nodup
import Mathlib.Order.Defs.Unbundled

namespace Lib

variable {κ : Type _} {ν : Type _}

/-- Entries in strictly ascending key order. -/
structure OrdMap (κ : Type _) (ν : Type _) (lt : κ → κ → Prop) where
  entries : List (κ × ν)
  sorted : entries.Pairwise fun a b => lt a.1 b.1

namespace OrdMap

variable {lt : κ → κ → Prop}

/-- The map without entries. -/
def empty : OrdMap κ ν lt := ⟨[], List.Pairwise.nil⟩

/-- The number of entries. -/
def size (m : OrdMap κ ν lt) : Nat := m.entries.length

/-- Iteration visits the keys in ascending order. -/
theorem keys_ascending (m : OrdMap κ ν lt) : (m.entries.map Prod.fst).Pairwise lt :=
  List.pairwise_map.mpr m.sorted

@[simp] theorem entries_empty : (empty : OrdMap κ ν lt).entries = [] := rfl

section Lookup

variable [DecidableRel lt]

/-- The value at the key the comparator cannot tell from `k`. -/
def find? (m : OrdMap κ ν lt) (k : κ) : Option ν :=
  (m.entries.find? fun e => !decide (lt e.1 k) && !decide (lt k e.1)).map Prod.snd

@[simp] theorem find?_empty (k : κ) : (empty : OrdMap κ ν lt).find? k = none := rfl

/-- Put `v` at `k` in an ascending entry list, over the value `k` has there. -/
def insertEntries (lt : κ → κ → Prop) [DecidableRel lt] (k : κ) (v : ν) :
    List (κ × ν) → List (κ × ν)
  | [] => [(k, v)]
  | e :: es =>
      if lt k e.1 then (k, v) :: e :: es
      else if lt e.1 k then e :: insertEntries lt k v es
      else (e.1, v) :: es

end Lookup

section Keys

variable [IsStrictTotalOrder κ lt]

/-- The keys iteration visits are pairwise different. -/
theorem keys_nodup (m : OrdMap κ ν lt) : (m.entries.map Prod.fst).Nodup := by
  rw [List.Nodup, List.pairwise_map]
  apply m.sorted.imp
  intro a b hab heq
  rw [heq] at hab
  exact irrefl _ hab

/-- No two entries share a key. -/
theorem entries_unique (m : OrdMap κ ν lt) {k : κ} {v w : ν}
    (hv : (k, v) ∈ m.entries) (hw : (k, w) ∈ m.entries) : v = w :=
  (Prod.mk.inj (List.inj_on_of_nodup_map m.keys_nodup hv hw rfl)).2

end Keys

variable [DecidableRel lt] [IsStrictTotalOrder κ lt]

/-! ## Lookup -/

/-- The comparator cannot tell two keys apart exactly when they are equal. -/
theorem indistinct_iff {a b : κ} : (!decide (lt a b) && !decide (lt b a)) = true ↔ a = b := by
  rw [Bool.and_eq_true, Bool.not_eq_true', Bool.not_eq_true', decide_eq_false_iff_not,
    decide_eq_false_iff_not]
  refine ⟨?_, ?_⟩
  · rintro ⟨hab, hba⟩
    exact Std.Trichotomous.trichotomous a b hab hba
  · rintro rfl
    exact ⟨irrefl a, irrefl a⟩

theorem find?_eq_some_iff (m : OrdMap κ ν lt) {k : κ} {v : ν} :
    m.find? k = some v ↔ (k, v) ∈ m.entries := by
  have hkey : ∀ e, (m.entries.find? fun e => !decide (lt e.1 k) && !decide (lt k e.1)) = some e →
      e.1 = k := by
    intro e he
    have hp := List.find?_some he
    exact indistinct_iff.mp hp
  rw [find?, Option.map_eq_some_iff]
  refine ⟨?_, ?_⟩
  · rintro ⟨⟨k', v'⟩, hfind, rfl⟩
    rw [← hkey _ hfind]
    exact List.mem_of_find?_eq_some hfind
  · intro hmem
    -- the search finds some entry at that key, and a key has one entry only
    have hsome : (m.entries.find? fun e => !decide (lt e.1 k) && !decide (lt k e.1)).isSome :=
      List.find?_isSome.mpr ⟨(k, v), hmem, indistinct_iff.mpr rfl⟩
    obtain ⟨⟨k', v'⟩, hfind⟩ := Option.isSome_iff_exists.mp hsome
    obtain rfl : k' = k := hkey _ hfind
    exact ⟨_, hfind, (m.entries_unique hmem (List.mem_of_find?_eq_some hfind)).symm⟩

/-- The keys are those at which lookup finds a value. -/
theorem mem_keys_iff (m : OrdMap κ ν lt) {k : κ} :
    k ∈ m.entries.map Prod.fst ↔ (m.find? k).isSome := by
  rw [List.mem_map, Option.isSome_iff_exists]
  refine ⟨?_, ?_⟩
  · rintro ⟨⟨k', v⟩, hmem, rfl⟩
    exact ⟨v, m.find?_eq_some_iff.mpr hmem⟩
  · rintro ⟨v, hv⟩
    exact ⟨(k, v), m.find?_eq_some_iff.mp hv, rfl⟩

/-! ## Insertion -/

/-- The entries after an insertion: the new one and those at other keys. -/
theorem mem_insertEntries {k : κ} {v : ν} {es : List (κ × ν)}
    (hs : es.Pairwise fun a b => lt a.1 b.1) {e : κ × ν} :
    e ∈ insertEntries lt k v es ↔ e = (k, v) ∨ (e ∈ es ∧ e.1 ≠ k) := by
  induction es with
  | nil => simp [insertEntries]
  | cons d ds ih =>
      obtain ⟨hd, hds⟩ := List.pairwise_cons.mp hs
      -- what stands behind an entry at or above `k` is strictly above `k`
      have hne : ∀ e ∈ ds, lt k d.1 ∨ k = d.1 → e.1 ≠ k := by
        rintro e he (h | h) rfl
        · exact irrefl _ (IsTrans.trans _ _ _ h (hd e he))
        · exact irrefl _ (h ▸ hd e he)
      rw [insertEntries]
      split_ifs with h1 h2
      · have hdk : d.1 ≠ k := fun e => irrefl _ (e ▸ h1)
        simp only [List.mem_cons]
        refine ⟨?_, ?_⟩
        · rintro (rfl | rfl | he)
          · exact Or.inl rfl
          · exact Or.inr ⟨Or.inl rfl, hdk⟩
          · exact Or.inr ⟨Or.inr he, hne e he (Or.inl h1)⟩
        · rintro (rfl | ⟨he, -⟩)
          · exact Or.inl rfl
          · exact Or.inr he
      · have hdk : d.1 ≠ k := fun e => irrefl _ (e ▸ h2)
        simp only [List.mem_cons, ih hds]
        refine ⟨?_, ?_⟩
        · rintro (rfl | rfl | ⟨he, hk⟩)
          · exact Or.inr ⟨Or.inl rfl, hdk⟩
          · exact Or.inl rfl
          · exact Or.inr ⟨Or.inr he, hk⟩
        · rintro (rfl | ⟨rfl | he, hk⟩)
          · exact Or.inr (Or.inl rfl)
          · exact Or.inl rfl
          · exact Or.inr (Or.inr ⟨he, hk⟩)
      · have hdk : k = d.1 := Std.Trichotomous.trichotomous k d.1 h1 h2
        simp only [List.mem_cons, ← hdk]
        refine ⟨?_, ?_⟩
        · rintro (rfl | he)
          · exact Or.inl rfl
          · exact Or.inr ⟨Or.inr he, hne e he (Or.inr hdk)⟩
        · rintro (rfl | ⟨rfl | he, hk⟩)
          · exact Or.inl rfl
          · exact absurd hdk.symm hk
          · exact Or.inr he

theorem pairwise_insertEntries {k : κ} {v : ν} {es : List (κ × ν)}
    (h : es.Pairwise fun a b => lt a.1 b.1) :
    (insertEntries lt k v es).Pairwise fun a b => lt a.1 b.1 := by
  induction es with
  | nil => exact List.pairwise_singleton _ _
  | cons d ds ih =>
      obtain ⟨hd, hds⟩ := List.pairwise_cons.mp h
      rw [insertEntries]
      split_ifs with h1 h2
      · refine List.pairwise_cons.mpr ⟨?_, h⟩
        intro e he
        rcases List.mem_cons.mp he with rfl | he
        · exact h1
        · exact IsTrans.trans _ _ _ h1 (hd e he)
      · refine List.pairwise_cons.mpr ⟨?_, ih hds⟩
        intro e he
        rcases (mem_insertEntries hds).mp he with rfl | ⟨he, -⟩
        · exact h2
        · exact hd e he
      · exact List.pairwise_cons.mpr ⟨hd, hds⟩

/-- `m[k] = v`. -/
def insert (m : OrdMap κ ν lt) (k : κ) (v : ν) : OrdMap κ ν lt :=
  ⟨insertEntries lt k v m.entries, pairwise_insertEntries m.sorted⟩

@[simp] theorem find?_insert_self (m : OrdMap κ ν lt) (k : κ) (v : ν) :
    (m.insert k v).find? k = some v :=
  (find?_eq_some_iff _).mpr ((mem_insertEntries m.sorted).mpr (Or.inl rfl))

theorem find?_insert_of_ne (m : OrdMap κ ν lt) {k k' : κ} (v : ν) (h : k' ≠ k) :
    (m.insert k v).find? k' = m.find? k' := by
  ext w
  rw [find?_eq_some_iff, find?_eq_some_iff, insert, mem_insertEntries m.sorted]
  refine ⟨?_, ?_⟩
  · rintro (he | ⟨he, -⟩)
    · exact absurd (Prod.mk.inj he).1 h
    · exact he
  · exact fun he => Or.inr ⟨he, h⟩

/-- A new key is found besides the old ones. -/
theorem find?_insert_new {m : OrdMap κ ν lt} {k k' : κ} {v w : ν} (h : m.find? k = none) :
    (m.insert k v).find? k' = some w ↔ m.find? k' = some w ∨ (k' = k ∧ w = v) := by
  by_cases hk : k' = k
  · subst hk
    rw [find?_insert_self, h]
    simp [eq_comm]
  · rw [find?_insert_of_ne m v hk]
    simp [hk]

end OrdMap
end Lib
