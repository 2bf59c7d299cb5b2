/-
  Fuse7z.InStream

  `Fuse7zInStream`: the archive file, as lib7zip reads it.

  The `FILE` behind it is a `File`, on which the stdio functions work as they
  do on a regular file without I/O errors.  The constructor notes the length
  of that file and the extension of its name, which lib7zip picks the format
  handler by.  Length, position of the dot, and the number of bytes a `Read`
  got each go through an `int`.
-/
import Fuse7z.OutStream
import Fuse7z.Lib.Word
import Fuse7z.Lib.LastOf

namespace Fuse7z

open Lib

/-! ## stdio -/

/-- `fseek`, also to behind the end; it fails for an unknown origin, for a
    target in front of the start and for one a `long` does not hold. -/
def fseek (f : File Byte) (offset : Int64) (whence : UInt32) : Int32 × File Byte :=
  match (whenceOf whence).bind (f.seek? offset.toInt) with
  | some f' => if f'.position < 2 ^ 63 then (0, f') else (-1, f)
  | none => (-1, f)

/-- `ftell` -/
def ftell (f : File Byte) : Int64 := Int64.ofNat f.position

/-- `fread` of items of one byte: what it stored, and the file behind it. -/
def fread (f : File Byte) (n : UInt64) : Bytes × File Byte := f.read n.toNat

/-! ## The extension -/

/-- `'.'` -/
def dot : Byte := 46

theorem dot_ne_slash : dot ≠ slash := by decide

/-- `std::string::npos` -/
def npos : UInt64 := -1

/-- `std::string::find_last_of` of a set of one character. -/
def findLastOf (s : Bytes) (c : Byte) : UInt64 :=
  match lastIndex c s with
  | some i => UInt64.ofNat i
  | none => npos

/-- `L"7z"` -/
def ext7z : List WChar := [55, 122]

/-- A `char` stored in a `wchar_t`; both are signed. -/
def widen (c : Byte) : WChar := c.toInt8.toInt32.toUInt32

/-- `int pos = m_strFileName.find_last_of(".")` -/
def dotPos (fileName : Bytes) : Int32 := (findLastOf fileName dot).toUInt32.toInt32

/-- The length `m_strFileExt` is resized to. -/
def extLength (fileName : Bytes) : Nat :=
  (UInt64.ofNat fileName.length - (dotPos fileName).toInt64.toUInt64).toNat

/-- `pos+1+i` as an index. -/
def extSource (fileName : Bytes) (i : Nat) : Nat :=
  (dotPos fileName + 1 + Int32.ofNat i).toInt64.toUInt64.toNat

/-- `m_strFileExt` as the constructor leaves it.  Index `length()` of a string
    reads its terminating NUL; what is behind that would be no character of it. -/
def fileExt (fileName : Bytes) : List WChar :=
  if (dotPos fileName).toInt64.toUInt64 ≠ npos then
    (List.range (extLength fileName)).map fun i =>
      widen ((fileName[extSource fileName i]?).getD 0)
  else ext7z

/-- The indices of the copy loop: in each turn the one it stores to, of
    `m_strFileExt`, and the one it loads from, of `m_strFileName`. -/
def extIndices (fileName : Bytes) : List Nat :=
  if (dotPos fileName).toInt64.toUInt64 ≠ npos then
    (List.range (extLength fileName)).flatMap fun i => [i, extSource fileName i]
  else []

/-! ## The stream -/

/-- The files that can be opened when there is one. -/
def onlyFile (fileName content : Bytes) : Bytes → Option Bytes :=
  fun name => if name = fileName then some content else none

structure Fuse7zInStream where
  mPFile : File Byte
  mStrFileName : Bytes
  mStrFileExt : List WChar
  mNFileSize : Int32
deriving DecidableEq, Repr

namespace Fuse7zInStream

/-- What the constructor makes of the file `fopen` opened. -/
def opened (fileName content : Bytes) : Fuse7zInStream :=
  let atEnd := (fseek { content, position := 0 } 0 2).2
  { mPFile := (fseek atEnd 0 0).2
    mStrFileName := fileName
    mStrFileExt := fileExt fileName
    mNFileSize := (ftell atEnd).toInt32 }

/-- `Fuse7zInStream::Fuse7zInStream`; `fopen` is the content of the files
    that can be opened. -/
def new (fopen : Bytes → Option Bytes) (fileName : Bytes) : Except Exn Fuse7zInStream :=
  match fopen (cStr fileName) with
  | some content => .ok (opened fileName content)
  | none => .error .runtimeError

/-- `Fuse7zInStream::GetExt` -/
def getExt (s : Fuse7zInStream) : List WChar := s.mStrFileExt

/-- What a `Read` returns, what it stored at `data` and through
    `processedSize`. -/
structure ReadReply where
  ret : Int32
  data : Bytes
  processedSize : Option UInt32
deriving DecidableEq, Repr

/-- `Fuse7zInStream::Read`; `processedSize` says whether that pointer is not
    NULL.  `count` is an `int`, and negative for 2^31 bytes and more. -/
def read (s : Fuse7zInStream) (size : UInt32) (processedSize : Bool) : ReadReply × Fuse7zInStream :=
  let r := fread s.mPFile size.toUInt64
  let count := (UInt64.ofNat r.1.length).toUInt32.toInt32
  let s' := { s with mPFile := r.2 }
  if 0 ≤ count then
    ({ ret := 0, data := r.1, processedSize := if processedSize then some count.toUInt32 else none },
      s')
  else ({ ret := 1, data := r.1, processedSize := none }, s')

/-- `Fuse7zInStream::Seek`: the return value, and what it stored through
    `newPosition`. -/
def seek (s : Fuse7zInStream) (offset : Int64) (seekOrigin : UInt32) (newPosition : Bool) :
    (Int32 × Option UInt64) × Fuse7zInStream :=
  let r := fseek s.mPFile offset seekOrigin
  let s' := { s with mPFile := r.2 }
  if r.1 = 0 then ((0, if newPosition then some (ftell r.2).toUInt64 else none), s')
  else ((r.1, none), s')

/-- `Fuse7zInStream::GetSize`: the return value, and what it stored through
    `size`. -/
def getSize (s : Fuse7zInStream) (size : Bool) : Int32 × Option UInt64 :=
  (0, if size then some s.mNFileSize.toInt64.toUInt64 else none)

end Fuse7zInStream

/-! ## Spec lemmas -/

/-- Where `fseek` succeeds it went where it was sent; where it fails it stays. -/
theorem fseek_cases (f : File Byte) (offset : Int64) (whence : UInt32) :
    (∃ w f', whenceOf whence = some w ∧ f.seek? offset.toInt w = some f' ∧
      f'.position < 2 ^ 63 ∧ fseek f offset whence = (0, f')) ∨
    (fseek f offset whence = (-1, f) ∧
      ∀ w f', whenceOf whence = some w → f.seek? offset.toInt w = some f' →
        2 ^ 63 ≤ f'.position) := by
  rw [fseek]
  cases hw : whenceOf whence with
  | none => exact Or.inr ⟨rfl, by simp⟩
  | some w =>
      rw [Option.bind_some]
      cases hf : f.seek? offset.toInt w with
      | none =>
          refine Or.inr ⟨rfl, ?_⟩
          intro w' f' hw' hf'
          obtain rfl := Option.some.inj hw'
          exact absurd (hf.symm.trans hf') (by simp)
      | some f' =>
          by_cases hlong : f'.position < 2 ^ 63
          · exact Or.inl ⟨w, f', rfl, hf, hlong, if_pos hlong⟩
          · refine Or.inr ⟨if_neg hlong, ?_⟩
            intro w' f'' hw' hf''
            obtain rfl := Option.some.inj hw'
            obtain rfl := Option.some.inj (hf.symm.trans hf'')
            omega

/-- A position a `long` holds is told as it is. -/
theorem ftell_toInt {f : File Byte} (h : f.position < 2 ^ 63) : (ftell f).toInt = f.position :=
  Int64.toInt_ofNat_of_lt h

/-- A target from the start or the end that a `long` holds. -/
theorem fseek_eq {f f' : File Byte} {offset : Int64} {whence : UInt32} {w : Whence}
    (hw : whenceOf whence = some w) (hf : f.seek? offset.toInt w = some f')
    (hlong : f'.position < 2 ^ 63) : fseek f offset whence = (0, f') := by
  rw [fseek, hw, Option.bind_some, hf]
  exact if_pos hlong

/-- The constructor leaves the file at its start, and its length in the low
    half of a word. -/
theorem opened_eq (fileName : Bytes) {content : Bytes} (hlen : content.length < 2 ^ 63) :
    Fuse7zInStream.opened fileName content =
      { mPFile := { content, position := 0 }
        mStrFileName := fileName
        mStrFileExt := fileExt fileName
        mNFileSize := (Int64.ofNat content.length).toInt32 } := by
  have hend : fseek { content, position := 0 } 0 2
      = (0, ({ content, position := content.length } : File Byte)) := by
    apply fseek_eq (w := .finish)
    · rfl
    · rw [File.seek?_eq_some_iff]
      exact ⟨rfl, (Int.add_zero _).symm⟩
    · exact hlen
  have hstart : fseek { content, position := content.length } 0 0
      = (0, ({ content, position := 0 } : File Byte)) := by
    apply fseek_eq (w := .start)
    · rfl
    · rw [File.seek?_eq_some_iff]
      exact ⟨rfl, rfl⟩
    · show 0 < 2 ^ 63
      omega
  rw [Fuse7zInStream.opened, hend, hstart]
  rfl

end Fuse7z
