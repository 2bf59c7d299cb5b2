/-
  Fuse7z.Lib.Window

  Windows of a fixed-size buffer: overwriting one, reading one.

  `overwrite buf pos data` is the buffer after a copy of `data` to index `pos`
  that keeps inside the buffer; `filled pad n d` is a buffer of `n` elements
  whose first ones are `d` and whose rest is still `pad`.  Copying the next
  chunk behind the filled part extends it (`overwrite_filled`), and
  consecutive windows join (`window_append`).
-/
import Mathlib.Data.List.Basic

namespace Lib

variable {α : Type _}

/-- `buf` with `data` copied over it from `pos` on; what would land outside
    `buf` is dropped. -/
def overwrite (buf : List α) (pos : Nat) (data : List α) : List α :=
  buf.take pos ++ data.take (buf.length - pos) ++ buf.drop (pos + data.length)

/-- The same, as long as all of it lands in `buf`. -/
def overwrite? (buf : List α) (pos : Nat) (data : List α) : Option (List α) :=
  if pos + data.length ≤ buf.length then some (overwrite buf pos data) else none

/-- A buffer of `n` elements that starts with `d` and holds `pad` behind it. -/
def filled (pad : α) (n : Nat) (d : List α) : List α :=
  d ++ List.replicate (n - d.length) pad

/-- The `len` elements of `buf` from index `off` on, as far as they exist. -/
def window (buf : List α) (off len : Nat) : List α := (buf.drop off).take len

/-! ## Overwriting -/

@[simp] theorem length_overwrite (buf : List α) (pos : Nat) (data : List α) :
    (overwrite buf pos data).length = buf.length := by
  simp only [overwrite, List.length_append, List.length_take, List.length_drop]
  omega

@[simp] theorem filled_nil (pad : α) (n : Nat) : filled pad n [] = List.replicate n pad := by
  simp [filled]

/-- A buffer exactly as long as what was copied into it is that. -/
theorem filled_self (pad : α) {n : Nat} {d : List α} (h : d.length = n) :
    filled pad n d = d := by
  rw [filled, h, Nat.sub_self, List.replicate_zero, List.append_nil]

theorem length_filled (pad : α) {n : Nat} {d : List α} (h : d.length ≤ n) :
    (filled pad n d).length = n := by
  rw [filled, List.length_append, List.length_replicate]
  omega

theorem le_length_filled (pad : α) (n : Nat) (d : List α) : n ≤ (filled pad n d).length := by
  rw [filled, List.length_append, List.length_replicate]
  omega

/-- The next chunk, copied right behind the filled part, extends it. -/
theorem overwrite_filled (pad : α) {n : Nat} {d e : List α} (h : d.length + e.length ≤ n) :
    overwrite (filled pad n d) d.length e = filled pad n (d ++ e) := by
  -- the parts of the overwritten buffer: what was filled, the chunk, the rest
  have htake : (filled pad n d).take d.length = d := List.take_left
  have hchunk : e.take ((filled pad n d).length - d.length) = e := by
    rw [length_filled pad (by omega)]
    exact List.take_of_length_le (by omega)
  have hrest : (filled pad n d).drop (d.length + e.length)
      = List.replicate (n - (d ++ e).length) pad := by
    rw [← List.drop_drop, filled, List.drop_left, List.drop_replicate, List.length_append]
    congr 1
    omega
  rw [overwrite, htake, hchunk, hrest, filled]

/-- What lands behind the first part replaces the start of the rest. -/
theorem overwrite?_append {d rest data : List α} (h : data.length ≤ rest.length) :
    overwrite? (d ++ rest) d.length data = some (d ++ (data ++ rest.drop data.length)) := by
  have hfits : d.length + data.length ≤ (d ++ rest).length := by
    rw [List.length_append]
    omega
  have hchunk : data.take ((d ++ rest).length - d.length) = data := by
    rw [List.length_append]
    exact List.take_of_length_le (by omega)
  rw [overwrite?, if_pos hfits, overwrite, hchunk, List.take_left, ← List.drop_drop, List.drop_left,
    List.append_assoc]

theorem overwrite?_eq_none {buf data : List α} {pos : Nat} (h : buf.length < pos + data.length) :
    overwrite? buf pos data = none :=
  if_neg (Nat.not_le.mpr h)

/-! ## Reading -/

/-- Two consecutive windows are one. -/
theorem window_append (buf : List α) (off len len' : Nat) :
    window buf off len ++ window buf (off + len) len' = window buf off (len + len') := by
  rw [window, window, window, List.take_add, List.drop_drop]

theorem window_all (buf : List α) : window buf 0 buf.length = buf := by
  rw [window, List.drop_zero, List.take_length]

/-- Reading index by index inside the buffer reads the window. -/
theorem map_getElem?_eq_window (buf : List α) {off len : Nat} (h : off + len ≤ buf.length)
    (out : Nat → α) :
    ((List.range len).map fun i => (buf[off + i]?).getD (out (off + i)))
      = window buf off len := by
  apply List.ext_getElem?
  intro i
  rw [List.getElem?_map, window, List.getElem?_take, List.getElem?_drop]
  by_cases hi : i < len
  · have hin : off + i < buf.length := by omega
    simp [hi, hin]
  · simp [hi]

end Lib
