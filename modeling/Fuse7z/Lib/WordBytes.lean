/-
  Fuse7z.Lib.WordBytes

  Words of 32 bits in memory, the low byte first.

  `wordBytes` is the memory a word takes, `bytesOfWords` that of several, and
  `wordsOfBytes` reads words back as far as there are whole ones.  A zero word
  can be told from its bytes (`mem_wordsOfBytes_zero`), which is how a reader
  that goes on to a zero word stops.
-/
import Mathlib.Algebra.Group.Nat.Defs
import Mathlib.Data.List.Basic

namespace Lib

/-- The four bytes of a word. -/
def wordBytes (w : UInt32) : List UInt8 :=
  [UInt8.ofNat w.toNat, UInt8.ofNat (w.toNat / 2 ^ 8), UInt8.ofNat (w.toNat / 2 ^ 16),
    UInt8.ofNat (w.toNat / 2 ^ 24)]

/-- The word of four bytes. -/
def wordOf (b0 b1 b2 b3 : UInt8) : UInt32 :=
  UInt32.ofNat (b0.toNat + 2 ^ 8 * b1.toNat + 2 ^ 16 * b2.toNat + 2 ^ 24 * b3.toNat)

def bytesOfWords (ws : List UInt32) : List UInt8 := ws.flatMap wordBytes

/-- The words of a piece of memory; up to three bytes at the end are no word. -/
def wordsOfBytes : List UInt8 → List UInt32
  | b0 :: b1 :: b2 :: b3 :: bs => wordOf b0 b1 b2 b3 :: wordsOfBytes bs
  | _ => []

@[simp] theorem length_wordBytes (w : UInt32) : (wordBytes w).length = 4 := rfl

@[simp] theorem bytesOfWords_nil : bytesOfWords [] = [] := rfl

@[simp] theorem bytesOfWords_cons (w : UInt32) (ws : List UInt32) :
    bytesOfWords (w :: ws) = wordBytes w ++ bytesOfWords ws := rfl

@[simp] theorem length_bytesOfWords (ws : List UInt32) :
    (bytesOfWords ws).length = 4 * ws.length := by
  induction ws with
  | nil => rfl
  | cons w ws ih =>
      rw [bytesOfWords_cons, List.length_append, ih, length_wordBytes, List.length_cons]
      omega

theorem bytesOfWords_append (ws ws' : List UInt32) :
    bytesOfWords (ws ++ ws') = bytesOfWords ws ++ bytesOfWords ws' :=
  List.flatMap_append

/-- A word is read back. -/
theorem wordsOfBytes_wordBytes_append (w : UInt32) (bs : List UInt8) :
    wordsOfBytes (wordBytes w ++ bs) = w :: wordsOfBytes bs := by
  have hlt : w.toNat < 2 ^ 32 := w.toNat_lt
  have hword : wordOf (UInt8.ofNat w.toNat) (UInt8.ofNat (w.toNat / 2 ^ 8))
      (UInt8.ofNat (w.toNat / 2 ^ 16)) (UInt8.ofNat (w.toNat / 2 ^ 24)) = w := by
    rw [← UInt32.toNat_inj, wordOf, UInt32.toNat_ofNat']
    simp only [UInt8.toNat_ofNat']
    omega
  show wordOf _ _ _ _ :: wordsOfBytes bs = w :: wordsOfBytes bs
  rw [hword]

/-- Words are read back. -/
theorem wordsOfBytes_bytesOfWords_append (ws : List UInt32) (bs : List UInt8) :
    wordsOfBytes (bytesOfWords ws ++ bs) = ws ++ wordsOfBytes bs := by
  induction ws with
  | nil => rfl
  | cons w ws ih =>
      rw [bytesOfWords_cons, List.append_assoc, wordsOfBytes_wordBytes_append, ih, List.cons_append]

theorem wordsOfBytes_bytesOfWords (ws : List UInt32) : wordsOfBytes (bytesOfWords ws) = ws := by
  have h := wordsOfBytes_bytesOfWords_append ws []
  rw [List.append_nil] at h
  rw [h]
  exact List.append_nil ws

theorem length_wordsOfBytes (bs : List UInt8) : (wordsOfBytes bs).length = bs.length / 4 := by
  match bs with
  | b0 :: b1 :: b2 :: b3 :: bs =>
      have ih := length_wordsOfBytes bs
      simp only [wordsOfBytes, List.length_cons, ih]
      omega
  | [] => rfl
  | [_] => simp [wordsOfBytes]
  | [_, _] => simp [wordsOfBytes]
  | [_, _, _] => simp [wordsOfBytes]

theorem wordsOfBytes_zeros (n : Nat) :
    wordsOfBytes (List.replicate (n + 4) 0) = 0 :: wordsOfBytes (List.replicate n 0) := rfl

/-- Zeros with room for a whole word behind the next multiple of four hold a
    zero word, wherever they start. -/
theorem mem_wordsOfBytes_zero {bs : List UInt8} {n : Nat}
    (h : (bs.length + 3) / 4 * 4 + 4 ≤ bs.length + n) :
    0 ∈ wordsOfBytes (bs ++ List.replicate n 0) := by
  match bs, h with
  | b0 :: b1 :: b2 :: b3 :: bs, h =>
      simp only [List.length_cons] at h
      have ih : 0 ∈ wordsOfBytes (bs ++ List.replicate n 0) := mem_wordsOfBytes_zero (by omega)
      exact List.mem_cons_of_mem _ ih
  | [], h =>
      obtain ⟨m, rfl⟩ := Nat.exists_eq_add_of_le' (show 4 ≤ n by simpa using h)
      rw [List.nil_append, wordsOfBytes_zeros]
      exact List.mem_cons_self
  -- the bytes in front take the zeros that complete their word
  | [b0], h =>
      obtain ⟨m, rfl⟩ := Nat.exists_eq_add_of_le' (show 7 ≤ n by simp at h; omega)
      exact List.mem_cons_of_mem _ List.mem_cons_self
  | [b0, b1], h =>
      obtain ⟨m, rfl⟩ := Nat.exists_eq_add_of_le' (show 6 ≤ n by simp at h; omega)
      exact List.mem_cons_of_mem _ List.mem_cons_self
  | [b0, b1, b2], h =>
      obtain ⟨m, rfl⟩ := Nat.exists_eq_add_of_le' (show 5 ≤ n by simp at h; omega)
      exact List.mem_cons_of_mem _ List.mem_cons_self

end Lib
