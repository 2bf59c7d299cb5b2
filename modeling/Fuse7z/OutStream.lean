/-
  Fuse7z.OutStream

  `Fuse7zOutStream`: the buffer an item is extracted into, as the extractor
  fills it.

  `Write` copies its chunk to `&buffer[position]` without looking at the
  length of the vector.  The model keeps the indices every `Write` stores to
  (`WriteReply.stores`), inside the vector or not; a store outside of it hits
  no vector.  Whether the program survives it is not in the source: `fill` is
  told so, and knows that an empty vector has no memory at all.
-/
import Fuse7z.Bytes
import Fuse7z.Lib.File
import Fuse7z.Lib.Run

namespace Fuse7z

open Lib

/-! ## Memory -/

/-- The exceptions the modelled code can meet. -/
inductive Exn where
  | badAlloc
  | lengthError
  | runtimeError
deriving DecidableEq, Repr

/-- Why a callback does not come back with an answer. -/
inductive Fault where
  /-- A store to `pouet[index]`, past the end of the array. -/
  | stackSmash (index : Nat)
  | nullDeref
  | danglingPointer
  /-- A load or a store where there is no memory, or a store that hits memory
      in use elsewhere. -/
  | segfault
  /-- An exception that leaves the callback. -/
  | uncaught (e : Exn)
deriving DecidableEq, Repr

/-- What one `std::vector<char>::resize` meets: the vector's `max_size()`, and
    whether a vector that is to become longer gets its place.  Inside the
    capacity it always does, nothing is asked of the allocator; the source
    shows no capacity, so `grants` is the outcome in either case. -/
structure Allocator where
  maxSize : Nat
  grants : Bool
deriving DecidableEq, Repr

/-- `std::vector<char>::resize`: shrinking needs nothing, growing past
    `max_size()` throws `std::length_error`, growing otherwise fills with
    zeros, in place or in memory that was just allocated, or throws
    `std::bad_alloc`. -/
def resize (al : Allocator) (buffer : Bytes) (size : Nat) : Except Exn Bytes :=
  if size ≤ buffer.length then .ok (buffer.take size)
  else if al.maxSize < size then .error .lengthError
  else if al.grants then .ok (buffer ++ List.replicate (size - buffer.length) 0)
  else .error .badAlloc

/-- `resize` takes an empty vector to `size` without throwing. -/
def Allocator.Serves (al : Allocator) (size : UInt64) : Prop :=
  size = 0 ∨ (size.toNat ≤ al.maxSize ∧ al.grants = true)

instance (al : Allocator) (size : UInt64) : Decidable (al.Serves size) :=
  inferInstanceAs (Decidable (size = 0 ∨ _))

/-! ## The stream -/

/-- The data of one `Write`; its size is an `unsigned int`. -/
structure Chunk where
  data : Bytes
  size_lt : data.length < 2 ^ 32

/-- The `size` argument of a `Write`. -/
def Chunk.size (c : Chunk) : UInt32 := UInt32.ofNat c.data.length

/-- `addr` is the address `new` returned, by which `node->buffer` knows the
    stream. -/
structure Fuse7zOutStream where
  addr : Nat
  position : UInt64
  buffer : Bytes
deriving DecidableEq, Repr

/-- What a `Write` answers, and the buffer indices it stores to. -/
structure WriteReply where
  ret : Int32
  processedSize : UInt32
  stores : List Nat
deriving DecidableEq, Repr

/-- `FILE_BEGIN`, `FILE_CURRENT` and `FILE_END`, which are the `SEEK_SET`,
    `SEEK_CUR` and `SEEK_END` of stdio. -/
def whenceOf (seekOrigin : UInt32) : Option Whence :=
  if seekOrigin = 0 then some .start
  else if seekOrigin = 1 then some .current
  else if seekOrigin = 2 then some .finish
  else none

namespace Fuse7zOutStream

/-- `new Fuse7zOutStream` -/
def new (addr : Nat) : Fuse7zOutStream := { addr, position := 0, buffer := [] }

/-- `Fuse7zOutStream::Write` -/
def write (s : Fuse7zOutStream) (c : Chunk) : WriteReply × Fuse7zOutStream :=
  ({ ret := 0
     processedSize := c.size
     stores := List.range' s.position.toNat c.data.length },
   { s with
     buffer := overwrite s.buffer s.position.toNat c.data
     position := s.position + c.size.toUInt64 })

/-- `Fuse7zOutStream::Seek`.  The offset is not looked at, nothing is stored
    through `newPosition`, and the position becomes the number of the origin. -/
def seek (s : Fuse7zOutStream) (_offset : Int64) (seekOrigin : UInt32) :
    Int32 × Fuse7zOutStream :=
  (0, { s with position := seekOrigin.toUInt64 })

/-- `Fuse7zOutStream::SetSize`; it returns 0 when `resize` does not throw. -/
def setSize (s : Fuse7zOutStream) (al : Allocator) (size : UInt64) :
    Except Exn Fuse7zOutStream :=
  match resize al s.buffer size.toNat with
  | .ok buffer => .ok { s with buffer }
  | .error e => .error e

/-- The `Write` calls of an extraction, in order. -/
def writes (s : Fuse7zOutStream) (cs : List Chunk) : Fuse7zOutStream := run write s cs

/-- The program survives the `memcpy` of a `Write`: the chunk fits, or what is
    stored behind the vector does no harm.  An empty vector has no memory,
    its `&buffer[0]` is NULL. -/
def survives (overrunOk : Bool) (s : Fuse7zOutStream) (c : Chunk) : Bool :=
  c.data.isEmpty || s.position.toNat + c.data.length ≤ s.buffer.length ||
    (!s.buffer.isEmpty && overrunOk)

/-- The `Write` calls of an extraction, up to one the program does not
    survive. -/
def fill (overrunOk : Bool) (s : Fuse7zOutStream) : List Chunk → Except Fault Unit × Fuse7zOutStream
  | [] => (.ok (), s)
  | c :: cs =>
      if s.survives overrunOk c then fill overrunOk (s.write c).2 cs else (.error .segfault, s)

end Fuse7zOutStream

/-! ## Spec lemmas -/

/-- A `resize` that gets its place cuts the vector or fills it up. -/
theorem resize_eq (al : Allocator) (buffer : Bytes) (size : Nat) :
    resize al buffer size =
      if size ≤ buffer.length ∨ (size ≤ al.maxSize ∧ al.grants = true) then
        .ok (buffer.take size ++ List.replicate (size - buffer.length) 0)
      else if al.maxSize < size then .error .lengthError
      else .error .badAlloc := by
  rw [resize]
  by_cases hcut : size ≤ buffer.length
  · -- nothing to pad
    have hnone : size - buffer.length = 0 := by omega
    rw [if_pos hcut, if_pos (Or.inl hcut), hnone, List.replicate_zero, List.append_nil]
  · -- nothing to cut
    have hall : buffer.take size = buffer := List.take_of_length_le (by omega)
    rw [if_neg hcut, hall]
    by_cases hmax : al.maxSize < size
    · have hno : ¬ (size ≤ buffer.length ∨ (size ≤ al.maxSize ∧ al.grants = true)) := by
        rintro (h | ⟨h, -⟩)
        · omega
        · omega
      rw [if_pos hmax, if_neg hno, if_pos hmax]
    · have hgrants : size ≤ buffer.length ∨ (size ≤ al.maxSize ∧ al.grants = true) ↔
          al.grants = true := by
        rw [or_iff_right hcut, and_iff_right (by omega)]
      rw [if_neg hmax, if_neg hmax]
      simp only [hgrants]

theorem Chunk.size_toNat (c : Chunk) : c.size.toUInt64.toNat = c.data.length := by
  rw [UInt32.toNat_toUInt64]
  exact UInt32.toNat_ofNat_of_lt' c.size_lt

/-- The bytes a sequence of chunks carries, in order. -/
def delivered (cs : List Chunk) : Bytes := (cs.map Chunk.data).flatten

@[simp] theorem delivered_nil : delivered [] = [] := rfl

@[simp] theorem delivered_cons (c : Chunk) (cs : List Chunk) :
    delivered (c :: cs) = c.data ++ delivered cs := rfl

namespace Fuse7zOutStream

@[simp] theorem write_length (s : Fuse7zOutStream) (c : Chunk) :
    (s.write c).2.buffer.length = s.buffer.length := length_overwrite _ _ _

@[simp] theorem write_addr (s : Fuse7zOutStream) (c : Chunk) : (s.write c).2.addr = s.addr := rfl

/-- The position advances by the chunk, unless it wraps. -/
theorem write_position (s : Fuse7zOutStream) (c : Chunk)
    (h : s.position.toNat + c.data.length < 2 ^ 64) :
    (s.write c).2.position.toNat = s.position.toNat + c.data.length := by
  have hadd : (s.position + c.size.toUInt64).toNat
      = (s.position.toNat + c.data.length) % 2 ^ 64 := by
    rw [UInt64.toNat_add, Chunk.size_toNat]
  exact hadd.trans (Nat.mod_eq_of_lt h)

theorem fill_length (overrunOk : Bool) (s : Fuse7zOutStream) (cs : List Chunk) :
    (s.fill overrunOk cs).2.buffer.length = s.buffer.length := by
  induction cs generalizing s with
  | nil => rfl
  | cons c cs ih =>
      rw [fill]
      split_ifs
      · exact (ih (s.write c).2).trans (write_length s c)
      · rfl

theorem fill_addr (overrunOk : Bool) (s : Fuse7zOutStream) (cs : List Chunk) :
    (s.fill overrunOk cs).2.addr = s.addr := by
  induction cs generalizing s with
  | nil => rfl
  | cons c cs ih =>
      rw [fill]
      split_ifs
      · exact (ih (s.write c).2).trans (write_addr s c)
      · rfl

/-- The program is lost to a store outside the vector only. -/
theorem fill_fst (overrunOk : Bool) (s : Fuse7zOutStream) (cs : List Chunk) :
    (s.fill overrunOk cs).1 = .ok () ∨ (s.fill overrunOk cs).1 = .error .segfault := by
  induction cs generalizing s with
  | nil => exact Or.inl rfl
  | cons c cs ih =>
      rw [fill]
      split_ifs
      · exact ih (s.write c).2
      · exact Or.inr rfl

/-- An extraction the program survives makes all its `Write` calls. -/
theorem fill_writes {overrunOk : Bool} {s : Fuse7zOutStream} {cs : List Chunk}
    (h : (s.fill overrunOk cs).1 = .ok ()) : (s.fill overrunOk cs).2 = s.writes cs := by
  induction cs generalizing s with
  | nil => rfl
  | cons c cs ih =>
      rw [fill] at h ⊢
      split_ifs at h ⊢
      exact ih h

/-- Behind a vector that has memory there is room for everything. -/
theorem fill_overrun {s : Fuse7zOutStream} (hne : s.buffer.length ≠ 0) (cs : List Chunk) :
    (s.fill true cs).1 = .ok () := by
  induction cs generalizing s with
  | nil => rfl
  | cons c cs ih =>
      have hmem : s.buffer.isEmpty = false := by
        rw [List.isEmpty_eq_false_iff, ← List.length_pos_iff]
        omega
      have hsurvives : s.survives true c = true := by simp [survives, hmem]
      rw [fill, if_pos hsurvives]
      exact ih (by rw [write_length]; exact hne)

/-- **Which extractions the program survives**: those that fit, and those that
    run over the end of a vector that has memory and do no harm there. -/
theorem fill_ok_iff {overrunOk : Bool} {s : Fuse7zOutStream} (cs : List Chunk)
    (hpos : s.position.toNat ≤ s.buffer.length) (hlen : s.buffer.length < 2 ^ 64) :
    (s.fill overrunOk cs).1 = .ok () ↔
      s.position.toNat + (delivered cs).length ≤ s.buffer.length ∨
        (s.buffer.length ≠ 0 ∧ overrunOk = true) := by
  by_cases hover : s.buffer.length ≠ 0 ∧ overrunOk = true
  · obtain ⟨hne, rfl⟩ := hover
    exact iff_of_true (fill_overrun hne cs) (Or.inr ⟨hne, rfl⟩)
  · rw [or_iff_left hover]
    induction cs generalizing s with
    | nil => exact iff_of_true rfl hpos
    | cons c cs ih =>
        have happend : (delivered (c :: cs)).length = c.data.length + (delivered cs).length := by
          rw [delivered_cons, List.length_append]
        -- nothing but room lets the program go on
        have hsurvives : s.survives overrunOk c = true ↔
            s.position.toNat + c.data.length ≤ s.buffer.length := by
          have hharm : (!s.buffer.isEmpty && overrunOk) = false := by
            rw [Bool.and_eq_false_iff, Bool.not_eq_false', List.isEmpty_iff,
              ← List.length_eq_zero_iff]
            by_contra hno
            exact hover (by simpa using hno)
          rw [survives, hharm, Bool.or_false, Bool.or_eq_true, List.isEmpty_iff,
            ← List.length_eq_zero_iff, decide_eq_true_iff]
          omega
        rw [fill, happend]
        by_cases hfit : s.position.toNat + c.data.length ≤ s.buffer.length
        · have hmoved : (s.write c).2.position.toNat = s.position.toNat + c.data.length :=
            write_position s c (by omega)
          have hsame : (s.write c).2.buffer.length = s.buffer.length := write_length s c
          rw [if_pos (hsurvives.mpr hfit), ih (by omega) (by omega) (by rw [hsame]; exact hover),
            hmoved, hsame]
          omega
        · rw [if_neg (mt hsurvives.mp hfit)]
          refine iff_of_false (by simp) ?_
          omega

/-- The stream holds `d` from its start, zeros behind it, and stands at the
    end of `d`: where an extraction that delivered `d` so far leaves a stream
    of size `n`. -/
structure Holds (s : Fuse7zOutStream) (n : Nat) (d : Bytes) : Prop where
  buffer_eq : s.buffer = filled 0 n d
  position_eq : s.position.toNat = d.length

/-- One `Write` that fits behind what the stream holds appends its chunk. -/
theorem Holds.write {s : Fuse7zOutStream} {n : Nat} {d : Bytes} (h : s.Holds n d) (c : Chunk)
    (hfit : d.length + c.data.length ≤ n) (hn : n < 2 ^ 64) :
    (s.write c).2.Holds n (d ++ c.data) where
  buffer_eq := by
    show overwrite s.buffer s.position.toNat c.data = filled 0 n (d ++ c.data)
    rw [h.buffer_eq, h.position_eq, overwrite_filled 0 hfit]
  position_eq := by
    have hnowrap : s.position.toNat + c.data.length < 2 ^ 64 := by
      rw [h.position_eq]
      omega
    rw [write_position s c hnowrap, h.position_eq, List.length_append]

/-- Any chunking of data that fits leaves the same buffer. -/
theorem Holds.writes {s : Fuse7zOutStream} {n : Nat} {d : Bytes} (h : s.Holds n d)
    (cs : List Chunk) (hfit : d.length + (delivered cs).length ≤ n) (hn : n < 2 ^ 64) :
    (s.writes cs).Holds n (d ++ delivered cs) := by
  induction cs generalizing s d with
  | nil => simpa [Fuse7zOutStream.writes] using h
  | cons c cs ih =>
      rw [delivered_cons, List.length_append] at hfit
      -- the first chunk lands behind `d`, the others behind that
      have hc : (s.write c).2.Holds n (d ++ c.data) := h.write c (by omega) hn
      have hrest := ih hc (by rw [List.length_append]; omega)
      rw [List.append_assoc] at hrest
      exact hrest

/-- `SetSize` on a new stream: all zeros, or the exception of `resize`. -/
theorem setSize_new (addr : Nat) (al : Allocator) (size : UInt64) :
    (new addr).setSize al size =
      if al.Serves size then
        .ok { addr, position := 0, buffer := List.replicate size.toNat 0 }
      else if al.maxSize < size.toNat then .error .lengthError
      else .error .badAlloc := by
  -- nothing is at most as long as the empty vector but nothing
  have hserves : size.toNat ≤ (new addr).buffer.length ∨
      (size.toNat ≤ al.maxSize ∧ al.grants = true) ↔ al.Serves size := by
    have hzero : size.toNat ≤ 0 ↔ size = 0 := by
      rw [Nat.le_zero, ← UInt64.toNat_inj]
      rfl
    exact or_congr_left hzero
  rw [setSize, resize_eq]
  by_cases hyes : al.Serves size
  · have hempty : (new addr).buffer = [] := rfl
    rw [if_pos hyes, if_pos (hserves.mpr hyes), hempty, List.take_nil, List.length_nil,
      Nat.sub_zero, List.nil_append]
    rfl
  · rw [if_neg hyes, if_neg (mt hserves.mp hyes)]
    by_cases hmax : al.maxSize < size.toNat
    · rw [if_pos hmax, if_pos hmax]
    · rw [if_neg hmax, if_neg hmax]

/-- A new stream of size `n` holds nothing yet. -/
theorem holds_of_setSize {addr : Nat} {al : Allocator} {size : UInt64} {s : Fuse7zOutStream}
    (h : (new addr).setSize al size = .ok s) : s.Holds size.toNat [] ∧ s.addr = addr := by
  rw [setSize_new] at h
  split_ifs at h with h1 h2
  obtain rfl := Except.ok.inj h
  exact ⟨⟨(filled_nil 0 _).symm, rfl⟩, rfl⟩

/-- A stream of size `n` begins at 0 and has `n` bytes. -/
theorem length_of_setSize {addr : Nat} {al : Allocator} {size : UInt64} {s : Fuse7zOutStream}
    (h : (new addr).setSize al size = .ok s) :
    s.position.toNat = 0 ∧ s.buffer.length = size.toNat := by
  obtain ⟨hholds, -⟩ := holds_of_setSize h
  refine ⟨hholds.position_eq, ?_⟩
  rw [hholds.buffer_eq]
  exact length_filled 0 (Nat.zero_le _)

end Fuse7zOutStream
end Fuse7z
