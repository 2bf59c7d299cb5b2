/-
  Fuse7z.Lib.Heap

  A heap of cells handed out in order and never given back.

  An address is the position of its cell, so the next address `alloc` hands
  out is `size`, and an address once valid stays valid.  A program that keeps
  pointers to objects it allocates is modelled with one `Heap` of its objects:
  what an operation leaves alone is then a statement about `get?`.
-/
import Mathlib.Data.List.Basic

namespace Lib

/-- The cells allocated so far, the oldest first. -/
structure Heap (α : Type _) where
  cells : List α
deriving Repr, DecidableEq

/-- The position of a cell in its heap. -/
abbrev Addr := Nat

namespace Heap

variable {α : Type _}

/-- The heap nothing was allocated in. -/
def empty : Heap α := ⟨[]⟩

/-- The number of cells, and the address `alloc` hands out next. -/
def size (h : Heap α) : Nat := h.cells.length

/-- The object at an address. -/
def get? (h : Heap α) (a : Addr) : Option α := h.cells[a]?

/-- Allocate a cell holding `x`, at address `h.size`. -/
def alloc (h : Heap α) (x : α) : Heap α := ⟨h.cells ++ [x]⟩

/-- Change the object at `a`; nothing happens at an address not handed out. -/
def modify (h : Heap α) (a : Addr) (f : α → α) : Heap α := ⟨h.cells.modify a f⟩

/-! ## Sizes -/

@[simp] theorem size_empty : (empty : Heap α).size = 0 := rfl

@[simp] theorem size_alloc (h : Heap α) (x : α) : (h.alloc x).size = h.size + 1 := by
  simp [size, alloc]

@[simp] theorem size_modify (h : Heap α) (a : Addr) (f : α → α) :
    (h.modify a f).size = h.size := by
  simp [size, modify]

/-- An address holds an object exactly when it lies below `size`. -/
theorem get?_isSome_iff {h : Heap α} {a : Addr} : (h.get? a).isSome ↔ a < h.size := by
  simp [get?, size]

theorem lt_size_of_get? {h : Heap α} {a : Addr} {x : α} (hx : h.get? a = some x) :
    a < h.size :=
  get?_isSome_iff.mp (by rw [hx]; rfl)

theorem get?_eq_none_iff {h : Heap α} {a : Addr} : h.get? a = none ↔ h.size ≤ a := by
  simp [get?, size]

/-! ## Reading after an operation -/

theorem get?_alloc (h : Heap α) (x : α) (a : Addr) :
    (h.alloc x).get? a = if a = h.size then some x else h.get? a := by
  by_cases ha : a = h.size
  · rw [if_pos ha, ha]
    exact List.getElem?_concat_length
  · rw [if_neg ha]
    rcases Nat.lt_or_ge a h.size with hlt | hge
    · exact List.getElem?_append_left hlt
    · have hout : (h.alloc x).size ≤ a := by
        rw [size_alloc]
        exact Nat.lt_of_le_of_ne hge (Ne.symm ha)
      rw [get?_eq_none_iff.mpr hge, get?_eq_none_iff.mpr hout]

theorem get?_modify (h : Heap α) (a b : Addr) (f : α → α) :
    (h.modify a f).get? b = if a = b then (h.get? b).map f else h.get? b := by
  simp only [get?, modify, List.getElem?_modify]
  by_cases hab : a = b
  · simp [hab]
  · simp [hab]

@[simp] theorem get?_modify_self (h : Heap α) (a : Addr) (f : α → α) :
    (h.modify a f).get? a = (h.get? a).map f := by
  rw [get?_modify, if_pos rfl]

/-- A change at one address is not seen at another. -/
theorem get?_modify_ne (h : Heap α) {a b : Addr} (f : α → α) (hab : a ≠ b) :
    (h.modify a f).get? b = h.get? b := by
  rw [get?_modify, if_neg hab]

end Heap
end Lib
