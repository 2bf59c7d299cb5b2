/-
  Fuse7z.InFile

  `Fuse7zInStream` against the file it reads.

  lib7zip reads the archive through `Read`, `Seek` and `GetSize`.  What they
  should do is said by `BehavesAsFile`, in terms of a `File` with the content
  of the archive and the position of the stream.  The stream does it as long
  as no length goes through an `int` that does not hold it
  (`behavesAsFile_iff`): the length of the file where `GetSize` is asked for
  it, and the number of bytes one `Read` gets.
-/
import Fuse7z.InStream

namespace Fuse7z

open Lib

/-! ## Calls -/

/-- A call on the stream.  A `Bool` says whether the pointer of that name is
    not NULL. -/
inductive InCall where
  | read (size : UInt32) (processedSize : Bool)
  | seek (offset : Int64) (seekOrigin : UInt32) (newPosition : Bool)
  | getSize (size : Bool)
deriving DecidableEq, Repr

/-- What the caller sees: the return value, and what was stored for it. -/
inductive InReply where
  | read (reply : Fuse7zInStream.ReadReply)
  | seek (ret : Int32) (newPosition : Option UInt64)
  | getSize (ret : Int32) (size : Option UInt64)
deriving DecidableEq, Repr

/-- One call on the stream. -/
def inStep (s : Fuse7zInStream) : InCall → InReply × Fuse7zInStream
  | .read size processedSize =>
      (.read (s.read size processedSize).1, (s.read size processedSize).2)
  | .seek offset seekOrigin newPosition =>
      let r := s.seek offset seekOrigin newPosition
      (.seek r.1.1 r.1.2, r.2)
  | .getSize size => (.getSize (s.getSize size).1 (s.getSize size).2, s)

/-- What is stored through a pointer: the number if there is a pointer. -/
def told (pointer : Bool) (n : Nat) : Option Nat := if pointer then some n else none

namespace Fuse7zInStream

/-- A read-only file of the given content, with the position of the stream. -/
def fileOf (content : Bytes) (s : Fuse7zInStream) : File Byte :=
  { content, position := s.mPFile.position }

/-- `Read` delivers what remains, at most `size` bytes, tells how many and
    moves behind them. -/
def ReadsAsFile (content : Bytes) (s : Fuse7zInStream) (size : UInt32) (processedSize : Bool) :
    Prop :=
  let f := s.fileOf content
  let r := s.read size processedSize
  r.1.ret = 0 ∧ r.1.data = (f.read size.toNat).1 ∧
    r.1.processedSize.map UInt32.toNat = told processedSize (min size.toNat f.remaining) ∧
    r.2.mPFile = (f.read size.toNat).2

/-- A `Seek` that succeeds goes where it says and tells it, one that fails
    stays; it fails to go in front of the start, and nowhere else a `long` can
    tell. -/
def SeeksAsFile (content : Bytes) (s : Fuse7zInStream) (offset : Int64) (seekOrigin : UInt32)
    (newPosition : Bool) : Prop :=
  let f := s.fileOf content
  let r := s.seek offset seekOrigin newPosition
  (r.1.1 = 0 → ∃ w f', whenceOf seekOrigin = some w ∧ f.seek? offset.toInt w = some f' ∧
    r.1.2.map UInt64.toNat = told newPosition f'.position ∧ r.2.mPFile = f') ∧
  (r.1.1 ≠ 0 → r.2.mPFile = f) ∧
  (∀ w, whenceOf seekOrigin = some w →
    (f.seek? offset.toInt w = none → r.1.1 ≠ 0) ∧
    ∀ f', f.seek? offset.toInt w = some f' → f'.position < 2 ^ 63 → r.1.1 = 0)

/-- `GetSize` tells the length of the file. -/
def SizesAsFile (content : Bytes) (s : Fuse7zInStream) (size : Bool) : Prop :=
  (s.getSize size).1 = 0 ∧ (s.getSize size).2.map UInt64.toNat = told size content.length

/-- The call does what it does on a read-only file of the given content. -/
def BehavesAsFile (content : Bytes) (s : Fuse7zInStream) : InCall → Prop
  | .read size processedSize => s.ReadsAsFile content size processedSize
  | .seek offset seekOrigin newPosition => s.SeeksAsFile content offset seekOrigin newPosition
  | .getSize size => s.SizesAsFile content size

/-- What goes through an `int` fits it: the number of bytes a `Read` gets, and
    the length of the file when it is asked for. -/
def InRange (content : Bytes) (s : Fuse7zInStream) : InCall → Prop
  | .read size _ => min size.toNat (s.fileOf content).remaining < 2 ^ 31
  | .seek _ _ _ => True
  | .getSize size => size = true → content.length < 2 ^ 31

instance (content : Bytes) (s : Fuse7zInStream) : DecidablePred (s.InRange content)
  | .read _ _ => inferInstanceAs (Decidable (_ < _))
  | .seek _ _ _ => inferInstanceAs (Decidable True)
  | .getSize size => inferInstanceAs (Decidable (size = true → _))

/-- The stream reads the file: its position is one `ftell` can tell, and the
    length was noted in an `int`. -/
structure Reading (content : Bytes) (s : Fuse7zInStream) : Prop where
  length_lt : content.length < 2 ^ 63
  content_eq : s.mPFile.content = content
  position_lt : s.mPFile.position < 2 ^ 63
  size_eq : s.mNFileSize = (UInt32.ofNat content.length).toInt32

theorem Reading.file_eq {content : Bytes} {s : Fuse7zInStream} (h : s.Reading content) :
    s.mPFile = s.fileOf content := by
  obtain ⟨-, rfl, -, -⟩ := h
  rfl

theorem reading_opened (fileName : Bytes) {content : Bytes} (hlen : content.length < 2 ^ 63) :
    (opened fileName content).Reading content := by
  rw [opened_eq fileName hlen]
  refine ⟨hlen, rfl, ?_, ?_⟩
  · show 0 < 2 ^ 63
    omega
  · show (Int64.ofNat content.length).toInt32 = (UInt32.ofNat content.length).toInt32
    rw [Int64.toInt32_ofNat']
    rfl

/-! ## One call -/

/-- `Read` by the number of bytes it got: the `int` they are counted in is
    negative from `2^31` on. -/
theorem read_cases (s : Fuse7zInStream) (size : UInt32) (processedSize : Bool) {data : Bytes}
    {f' : File Byte} (hread : fread s.mPFile size.toUInt64 = (data, f'))
    (hlen : data.length < 2 ^ 32) :
    (data.length < 2 ^ 31 ∧
      s.read size processedSize =
        ({ ret := 0, data
           processedSize := if processedSize then some (UInt32.ofNat data.length) else none },
         { s with mPFile := f' })) ∨
    (2 ^ 31 ≤ data.length ∧ (s.read size processedSize).1.ret = 1) := by
  have hword : (UInt32.ofNat data.length).toNat = data.length := UInt32.toNat_ofNat_of_lt' hlen
  have hcount := toInt32_nonneg_iff (UInt32.ofNat data.length)
  rw [hword] at hcount
  rw [read, hread]
  simp only [UInt64.toUInt32_ofNat', hcount]
  by_cases hint : data.length < 2 ^ 31
  · rw [if_pos hint, UInt32.toUInt32_toInt32]
    exact Or.inl ⟨hint, rfl⟩
  · rw [if_neg hint]
    exact Or.inr ⟨by omega, rfl⟩

theorem readsAsFile_iff {content : Bytes} {s : Fuse7zInStream} (h : s.Reading content)
    (size : UInt32) (processedSize : Bool) :
    s.ReadsAsFile content size processedSize ↔
      min size.toNat (s.fileOf content).remaining < 2 ^ 31 := by
  have hread : fread s.mPFile size.toUInt64 = (s.fileOf content).read size.toNat := by
    rw [fread, UInt32.toNat_toUInt64, h.file_eq]
  have hlen := File.length_read (s.fileOf content) size.toNat
  have hlt : ((s.fileOf content).read size.toNat).1.length < 2 ^ 32 := by
    have hsize : size.toNat < 2 ^ 32 := size.toNat_lt
    rw [hlen]
    omega
  rw [ReadsAsFile, ← hlen]
  obtain ⟨hint, heq⟩ | ⟨hint, hret⟩ := read_cases s size processedSize hread hlt
  · rw [heq]
    refine iff_of_true ⟨rfl, rfl, ?_, rfl⟩ hint
    have hword := UInt32.toNat_ofNat_of_lt' hlt
    cases processedSize with
    | true => exact congrArg some hword
    | false => rfl
  · refine iff_of_false ?_ (Nat.not_lt.mpr hint)
    rintro ⟨hzero, -⟩
    rw [hret] at hzero
    exact absurd hzero (by decide)

/-- `Seek` is `fseek`, and `ftell` tells where it went. -/
theorem seek_cases (s : Fuse7zInStream) (offset : Int64) (seekOrigin : UInt32)
    (newPosition : Bool) :
    (∃ w f', whenceOf seekOrigin = some w ∧ s.mPFile.seek? offset.toInt w = some f' ∧
      f'.position < 2 ^ 63 ∧
      s.seek offset seekOrigin newPosition =
        ((0, if newPosition then some (ftell f').toUInt64 else none), { s with mPFile := f' })) ∨
    (s.seek offset seekOrigin newPosition = ((-1, none), s) ∧
      ∀ w f', whenceOf seekOrigin = some w → s.mPFile.seek? offset.toInt w = some f' →
        2 ^ 63 ≤ f'.position) := by
  obtain ⟨w, f', hw, hf, hlong, heq⟩ | ⟨heq, hfar⟩ := fseek_cases s.mPFile offset seekOrigin
  · refine Or.inl ⟨w, f', hw, hf, hlong, ?_⟩
    rw [seek, heq]
    rfl
  · refine Or.inr ⟨?_, hfar⟩
    rw [seek, heq]
    rfl

theorem seeksAsFile {content : Bytes} {s : Fuse7zInStream} (h : s.Reading content)
    (offset : Int64) (seekOrigin : UInt32) (newPosition : Bool) :
    s.SeeksAsFile content offset seekOrigin newPosition := by
  rw [SeeksAsFile, ← h.file_eq]
  obtain ⟨w, f', hw, hf, hlong, heq⟩ | ⟨heq, hfar⟩ :=
    seek_cases s offset seekOrigin newPosition
  · rw [heq]
    refine ⟨?_, ?_, ?_⟩
    · intro _
      refine ⟨w, f', hw, hf, ?_, rfl⟩
      have htell := toNat_toUInt64_of_toInt (ftell_toInt hlong)
      cases newPosition with
      | true => exact congrArg some htell
      | false => rfl
    · exact fun hret => absurd rfl hret
    · intro w' hw'
      obtain rfl := Option.some.inj (hw.symm.trans hw')
      refine ⟨?_, ?_⟩
      · exact fun hnone => absurd (hf.symm.trans hnone) (by simp)
      · exact fun _ _ _ => rfl
  · have hret : (-1 : Int32) ≠ 0 := by decide
    rw [heq]
    refine ⟨?_, ?_, ?_⟩
    · exact fun hzero => absurd hzero hret
    · exact fun _ => rfl
    · intro w hw
      refine ⟨fun _ => hret, ?_⟩
      intro f' hf hlong
      have hposition := hfar w f' hw hf
      omega

theorem sizesAsFile_iff {content : Bytes} {s : Fuse7zInStream} (h : s.Reading content)
    (size : Bool) : s.SizesAsFile content size ↔ (size = true → content.length < 2 ^ 31) := by
  have hlen := h.length_lt
  -- a length the `int` does not hold comes back smaller, or beyond `2^63`
  have hsize : s.mNFileSize.toInt64.toUInt64.toNat = content.length ↔ content.length < 2 ^ 31 := by
    rw [h.size_eq, toNat_signExtend, UInt32.toNat_ofNat']
    split_ifs with hlow
    · omega
    · omega
  rw [SizesAsFile, ← hsize]
  cases size with
  | true => simp [getSize, told]
  | false => simp [getSize, told]

theorem behavesAsFile_iff {content : Bytes} {s : Fuse7zInStream} (h : s.Reading content)
    (call : InCall) : s.BehavesAsFile content call ↔ s.InRange content call := by
  cases call with
  | read size processedSize => exact readsAsFile_iff h size processedSize
  | seek offset seekOrigin newPosition =>
      exact iff_of_true (seeksAsFile h offset seekOrigin newPosition) trivial
  | getSize size => exact sizesAsFile_iff h size

/-- A `Read` stops at the end of the file, and a `Seek` at what a `long`
    holds. -/
theorem inStep_reading {content : Bytes} {s : Fuse7zInStream} (h : s.Reading content)
    (call : InCall) : (inStep s call).2.Reading content := by
  have hlen := h.length_lt
  cases call with
  | read size processedSize =>
      have hfile : (s.read size processedSize).2
          = { s with mPFile := (s.mPFile.read size.toUInt64.toNat).2 } := by
        rw [read]
        split
        · rfl
        · rfl
      show (s.read size processedSize).2.Reading content
      rw [hfile]
      refine ⟨hlen, h.content_eq, ?_, h.size_eq⟩
      have hcontent := h.content_eq
      have hposition := h.position_lt
      show s.mPFile.position + min size.toUInt64.toNat (s.mPFile.content.length - s.mPFile.position)
        < 2 ^ 63
      rw [hcontent]
      omega
  | seek offset seekOrigin newPosition =>
      show (s.seek offset seekOrigin newPosition).2.Reading content
      obtain ⟨w, f', -, hf, hlong, heq⟩ | ⟨heq, -⟩ := seek_cases s offset seekOrigin newPosition
      · rw [heq]
        have hcontent := (File.seek?_eq_some_iff.mp hf).1
        exact ⟨hlen, hcontent.trans h.content_eq, hlong, h.size_eq⟩
      · rw [heq]
        exact h
  | getSize size => exact h

/-! ## A run -/

/-- **Which runs read the archive as a file**: those in which no `Read` gets
    `2^31` bytes or more, and `GetSize` is not asked for a length from `2^31`
    on. -/
theorem along_behavesAsFile_iff (fopen : Bytes → Option Bytes) (fileName content : Bytes)
    (s : Fuse7zInStream) (calls : List InCall) (hlen : content.length < 2 ^ 63)
    (hopen : fopen (cStr fileName) = some content) (hnew : new fopen fileName = .ok s) :
    (s.mPFile = { content, position := 0 } ∧ Along inStep (BehavesAsFile content) s calls) ↔
      Along inStep (InRange content) s calls := by
  rw [new, hopen] at hnew
  obtain rfl := Except.ok.inj hnew
  have hfile : (opened fileName content).mPFile = { content, position := 0 } := by
    rw [opened_eq fileName hlen]
  have hcongr : Along inStep (BehavesAsFile content) (opened fileName content) calls ↔
      Along inStep (InRange content) (opened fileName content) calls := by
    apply along_congr (I := fun s => s.Reading content)
    · exact fun s call h => behavesAsFile_iff h call
    · exact fun s call h => inStep_reading h call
    · exact reading_opened fileName hlen
  rw [← hcongr]
  exact and_iff_right hfile

/-- The size, two bytes, the last byte, what remains behind it, and a `Seek`
    that fails. -/
theorem along_behavesAsFile_three :
    Along inStep (BehavesAsFile [1, 2, 3]) (opened [97] [1, 2, 3])
      [.getSize true, .read 2 true, .seek (-1) 2 true, .read 5 true, .seek (-4) 1 false] :=
  ((along_behavesAsFile_iff (onlyFile [97] [1, 2, 3]) [97] [1, 2, 3] (opened [97] [1, 2, 3])
      [.getSize true, .read 2 true, .seek (-1) 2 true, .read 5 true, .seek (-4) 1 false]
      (by decide) rfl rfl).mpr
    ⟨fun _ => by decide, by decide, trivial, by decide, trivial, trivial⟩).2

/-- A file of `2^31` zeros: its length comes back from the `int` as
    `2^64 - 2^31`. -/
theorem long_file_size :
    new (onlyFile [97] (List.replicate (2 ^ 31) 0)) [97]
      = .ok (opened [97] (List.replicate (2 ^ 31) 0)) ∧
    (opened [97] (List.replicate (2 ^ 31) 0)).getSize true = (0, some 18446744071562067968) ∧
    ¬ Along inStep (BehavesAsFile (List.replicate (2 ^ 31) 0))
      (opened [97] (List.replicate (2 ^ 31) 0)) [.getSize true] := by
  have hlen : (List.replicate (2 ^ 31) (0 : Byte)).length = 2 ^ 31 := List.length_replicate
  generalize List.replicate (2 ^ 31) (0 : Byte) = content at hlen ⊢
  have hreading : (opened [97] content).Reading content := reading_opened [97] (by omega)
  refine ⟨rfl, ?_, ?_⟩
  · rw [getSize, hreading.size_eq, hlen]
    rfl
  · rintro ⟨hsize, -⟩
    have hint := (sizesAsFile_iff hreading true).mp hsize rfl
    omega

end Fuse7zInStream
end Fuse7z
