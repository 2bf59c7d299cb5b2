/-
  Fuse7z.Lib.File

  A file as its one user sees it: the content, and the position the next
  operation starts from.

  `read` delivers what remains, at most what is asked for.  `write` overwrites
  inside the file, `setSize` cuts it or pads it.  `seek?` moves the position
  by an offset from one of three places, anywhere but in front of the start.
  These are the operations a stream of bytes is compared with.
-/
import Fuse7z.Lib.Window

namespace Lib

/-- The places a seek counts from. -/
inductive Whence where
  | start
  | current
  | finish
deriving DecidableEq, Repr

structure File (α : Type _) where
  content : List α
  position : Nat
deriving DecidableEq, Repr

namespace File

variable {α : Type _}

/-- The number of elements behind the position. -/
def remaining (f : File α) : Nat := f.content.length - f.position

/-- Read up to `n` elements from the position on, and move behind them. -/
def read (f : File α) (n : Nat) : List α × File α :=
  (window f.content f.position n, { f with position := f.position + min n f.remaining })

/-- Write over the elements from the position on, and move behind them. -/
def write (f : File α) (data : List α) : File α :=
  { content := overwrite f.content f.position data, position := f.position + data.length }

/-- Cut the content to `n` elements, or pad it to that. -/
def setSize (f : File α) (pad : α) (n : Nat) : File α :=
  { f with content := f.content.take n ++ List.replicate (n - f.content.length) pad }

/-- The position a seek counts from. -/
def base (f : File α) : Whence → Nat
  | .start => 0
  | .current => f.position
  | .finish => f.content.length

/-- Move by `offset` from a place, but not in front of the start. -/
def seek? (f : File α) (offset : Int) (w : Whence) : Option (File α) :=
  if 0 ≤ (f.base w : Int) + offset then
    some { f with position := ((f.base w : Int) + offset).toNat }
  else none

/-! ## Spec lemmas -/

theorem length_read (f : File α) (n : Nat) : (f.read n).1.length = min n f.remaining := by
  show (window f.content f.position n).length = min n f.remaining
  rw [window, remaining, List.length_take, List.length_drop]

theorem seek?_eq_some_iff {f f' : File α} {offset : Int} {w : Whence} :
    f.seek? offset w = some f' ↔
      f'.content = f.content ∧ (f'.position : Int) = (f.base w : Int) + offset := by
  rw [seek?]
  refine ⟨?_, ?_⟩
  · intro h
    split_ifs at h with hpos
    obtain rfl := Option.some.inj h
    exact ⟨rfl, Int.toNat_of_nonneg hpos⟩
  · obtain ⟨content, position⟩ := f'
    rintro ⟨rfl, hposition⟩
    have hposition' : (position : Int) = (f.base w : Int) + offset := hposition
    have hpos : 0 ≤ (f.base w : Int) + offset := by omega
    rw [if_pos hpos, ← hposition', Int.toNat_natCast]

end File
end Lib
