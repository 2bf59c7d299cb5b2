/-
  Fuse7z.OutFile

  `Fuse7zOutStream` against the file it stands for.

  The extractor is given a stream it may size, seek in and write to.  The file
  behind it is `File`, with the calls of `refStep`; a call the interface gives
  no meaning to (a `Write` past the size, a `Seek` to nowhere) is `none` there
  and nothing is asked of the stream.  `SetSize` and `Write` do what the file
  does, but `Seek` goes to the position whose number is the origin, so a run
  follows the file as long as that happens to be the place meant
  (`along_agrees_iff`).
-/
import Fuse7z.OutStream

namespace Fuse7z

open Lib

/-! ## Calls -/

/-- A call on the stream; `al` is what the `resize` of a `SetSize` finds, and
    `newPosition` says whether that argument is not NULL.  `Write` stores
    through `processedSize` without looking, so that is never NULL here. -/
inductive OutCall where
  | setSize (al : Allocator) (size : UInt64)
  | seek (offset : Int64) (seekOrigin : UInt32) (newPosition : Bool)
  | write (c : Chunk)

/-- What the caller sees: the return value, and what was stored through the
    pointers it gave. -/
inductive OutReply where
  | setSize (ret : Int32)
  | threw (e : Exn)
  | seek (ret : Int32) (newPosition : Option UInt64)
  | write (ret : Int32) (processedSize : UInt32)
deriving DecidableEq, Repr

/-- One call on the stream. -/
def outStep (s : Fuse7zOutStream) : OutCall → OutReply × Fuse7zOutStream
  | .setSize al size =>
      match s.setSize al size with
      | .ok s' => (.setSize 0, s')
      | .error e => (.threw e, s)
  | .seek offset seekOrigin _ => (.seek (s.seek offset seekOrigin).1 none, (s.seek offset seekOrigin).2)
  | .write c => (.write (s.write c).1.ret (s.write c).1.processedSize, (s.write c).2)

/-- The same call on a file, if it has a meaning there. -/
def refStep (f : File Byte) : OutCall → Option (OutReply × File Byte)
  | .setSize _ size => some (.setSize 0, f.setSize 0 size.toNat)
  | .seek offset seekOrigin newPosition =>
      (whenceOf seekOrigin).bind fun w =>
        (f.seek? offset.toInt w).map fun f' =>
          (.seek 0 (if newPosition then some (UInt64.ofNat f'.position) else none), f')
  | .write c =>
      if f.position + c.data.length ≤ f.content.length then some (.write 0 c.size, f.write c.data)
      else none

namespace Fuse7zOutStream

/-- The file a stream stands for. -/
def file (s : Fuse7zOutStream) : File Byte := { content := s.buffer, position := s.position.toNat }

/-- The call does on the stream what it does on the file. -/
def Agrees (s : Fuse7zOutStream) (call : OutCall) : Prop :=
  ∀ r f', refStep s.file call = some (r, f') →
    (outStep s call).1 = r ∧ (outStep s call).2.file = f'

/-- The `resize` of a `SetSize` does not throw, and a `Seek` is to the position
    whose number is the origin, with nowhere to store it. -/
def Lucky (s : Fuse7zOutStream) : OutCall → Prop
  | .setSize al size => size.toNat ≤ s.buffer.length ∨ (size.toNat ≤ al.maxSize ∧ al.grants = true)
  | .seek offset seekOrigin newPosition =>
      ∀ w f', whenceOf seekOrigin = some w → s.file.seek? offset.toInt w = some f' →
        f'.position = seekOrigin.toNat ∧ newPosition = false
  | .write _ => True

/-! ## One call -/

/-- A `SetSize` whose `resize` does not throw does what it does on the file. -/
theorem setSize_cases (s : Fuse7zOutStream) (al : Allocator) (size : UInt64) :
    (s.Lucky (.setSize al size) ∧
      ∃ s', s.setSize al size = .ok s' ∧ s'.file = s.file.setSize 0 size.toNat) ∨
    (¬ s.Lucky (.setSize al size) ∧ ∃ e, s.setSize al size = .error e) := by
  rw [Lucky, setSize, resize_eq]
  by_cases hlucky : size.toNat ≤ s.buffer.length ∨ (size.toNat ≤ al.maxSize ∧ al.grants = true)
  · rw [if_pos hlucky]
    exact Or.inl ⟨hlucky, _, rfl, rfl⟩
  · rw [if_neg hlucky]
    refine Or.inr ⟨hlucky, ?_⟩
    by_cases hmax : al.maxSize < size.toNat
    · rw [if_pos hmax]
      exact ⟨_, rfl⟩
    · rw [if_neg hmax]
      exact ⟨_, rfl⟩

theorem agrees_setSize_iff (s : Fuse7zOutStream) (al : Allocator) (size : UInt64) :
    s.Agrees (.setSize al size) ↔ s.Lucky (.setSize al size) := by
  obtain ⟨hlucky, s', hsized, hfile⟩ | ⟨hlucky, e, hsized⟩ := setSize_cases s al size
  · refine iff_of_true ?_ hlucky
    intro r f' href
    obtain ⟨rfl, rfl⟩ := Prod.mk.inj (Option.some.inj href)
    simp only [outStep, hsized]
    exact ⟨trivial, hfile⟩
  · refine iff_of_false ?_ hlucky
    intro h
    obtain ⟨hret, -⟩ := h _ _ rfl
    simp only [outStep, hsized] at hret
    exact absurd hret (by simp)

theorem agrees_seek_iff (s : Fuse7zOutStream) (offset : Int64) (seekOrigin : UInt32)
    (newPosition : Bool) :
    s.Agrees (.seek offset seekOrigin newPosition) ↔
      s.Lucky (.seek offset seekOrigin newPosition) := by
  have hstate : (outStep s (.seek offset seekOrigin newPosition)).2.file
      = { content := s.buffer, position := seekOrigin.toNat } := by
    have hposition : seekOrigin.toUInt64.toNat = seekOrigin.toNat := UInt32.toNat_toUInt64 _
    show ({ content := s.buffer, position := seekOrigin.toUInt64.toNat } : File Byte) = _
    rw [hposition]
  refine ⟨?_, ?_⟩
  · intro h w f' hw hf
    have href : refStep s.file (.seek offset seekOrigin newPosition)
        = some (.seek 0 (if newPosition then some (UInt64.ofNat f'.position) else none), f') := by
      simp only [refStep, hw, Option.bind_some, hf, Option.map_some]
    obtain ⟨hret, hfile⟩ := h _ _ href
    rw [hstate] at hfile
    refine ⟨?_, ?_⟩
    · rw [← hfile]
    · -- the stream stores nothing through the pointer
      cases newPosition with
      | false => rfl
      | true => exact absurd hret (by simp [outStep])
  · intro h r f' href
    simp only [refStep] at href
    obtain ⟨w, hw, href⟩ := Option.bind_eq_some_iff.mp href
    obtain ⟨f₀, hf, href⟩ := Option.map_eq_some_iff.mp href
    obtain ⟨rfl, rfl⟩ := Prod.mk.inj href
    obtain ⟨hposition, rfl⟩ := h w f₀ hw hf
    have hcontent : f₀.content = s.buffer := (File.seek?_eq_some_iff.mp hf).1
    refine ⟨rfl, ?_⟩
    rw [hstate, ← hposition, ← hcontent]

/-- A `Write` that fits the vector is that of the file. -/
theorem agrees_write {s : Fuse7zOutStream} (hlen : s.buffer.length < 2 ^ 64) (c : Chunk) :
    s.Agrees (.write c) := by
  intro r f' href
  have hcase : (if s.position.toNat + c.data.length ≤ s.buffer.length
      then some (OutReply.write 0 c.size, s.file.write c.data) else none) = some (r, f') := href
  split_ifs at hcase with hfit
  obtain ⟨rfl, rfl⟩ := Prod.mk.inj (Option.some.inj hcase)
  refine ⟨rfl, ?_⟩
  have hposition := write_position s c (by omega)
  show ({ content := (s.write c).2.buffer, position := (s.write c).2.position.toNat } : File Byte)
    = s.file.write c.data
  rw [hposition]
  rfl

theorem agrees_iff {s : Fuse7zOutStream} (hlen : s.buffer.length < 2 ^ 64) (call : OutCall) :
    s.Agrees call ↔ s.Lucky call := by
  cases call with
  | setSize al size => exact agrees_setSize_iff s al size
  | seek offset seekOrigin newPosition => exact agrees_seek_iff s offset seekOrigin newPosition
  | write c => exact iff_of_true (agrees_write hlen c) trivial

/-- A vector is as long as some `unsigned long long`. -/
theorem outStep_length {s : Fuse7zOutStream} (hlen : s.buffer.length < 2 ^ 64) (call : OutCall) :
    (outStep s call).2.buffer.length < 2 ^ 64 := by
  cases call with
  | setSize al size =>
      obtain ⟨-, s', hsized, hfile⟩ | ⟨-, e, hsized⟩ := setSize_cases s al size
      · have hword : size.toNat < 2 ^ 64 := size.toNat_lt
        have hcontent : s'.buffer = (s.file.setSize 0 size.toNat).content :=
          congrArg File.content hfile
        simp only [outStep, hsized, hcontent, File.setSize, file, List.length_append,
          List.length_take, List.length_replicate]
        omega
      · simp only [outStep, hsized]
        exact hlen
  | seek offset seekOrigin newPosition => exact hlen
  | write c =>
      have hsame : (s.write c).2.buffer.length = s.buffer.length := write_length s c
      show (s.write c).2.buffer.length < 2 ^ 64
      omega

/-! ## A run -/

/-- **Which runs follow the file**: those in which every `SetSize` gets its
    memory, and every `Seek` that the interface gives a meaning to means the
    position numbered as its origin and asks for nothing back. -/
theorem along_agrees_iff (addr : Nat) (calls : List OutCall) :
    Along outStep Agrees (new addr) calls ↔ Along outStep Lucky (new addr) calls := by
  apply along_congr (I := fun s => s.buffer.length < 2 ^ 64)
  · exact fun s call hlen => agrees_iff hlen call
  · exact fun s call hlen => outStep_length hlen call
  · show 0 < 2 ^ 64
    omega

/-- The file after calls that all have a meaning. -/
def refRun (f : File Byte) : List OutCall → Option (List OutReply × File Byte)
  | [] => some ([], f)
  | call :: calls =>
      (refStep f call).bind fun r => (refRun r.2 calls).map fun rs => (r.1 :: rs.1, rs.2)

/-- A run that follows the file gives its answers and ends with its content. -/
theorem file_eq_refRun {s : Fuse7zOutStream} {calls : List OutCall}
    (h : Along outStep Agrees s calls) {rs : List OutReply} {f' : File Byte}
    (href : refRun s.file calls = some (rs, f')) :
    (transcript outStep s calls).map Prod.snd = rs ∧ (run outStep s calls).file = f' := by
  induction calls generalizing s rs with
  | nil =>
      obtain ⟨rfl, rfl⟩ := Prod.mk.inj (Option.some.inj href)
      exact ⟨rfl, rfl⟩
  | cons call calls ih =>
      obtain ⟨hcall, hcalls⟩ := h
      rw [refRun] at href
      obtain ⟨⟨r, f₁⟩, hr, href⟩ := Option.bind_eq_some_iff.mp href
      obtain ⟨⟨rs', f₂⟩, hrs, heq⟩ := Option.map_eq_some_iff.mp href
      obtain ⟨rfl, rfl⟩ := Prod.mk.inj heq
      -- after one call the stream stands for the file of the reference
      obtain ⟨hreply, hfile⟩ := hcall r f₁ hr
      rw [← hfile] at hrs
      obtain ⟨hreplies, hend⟩ := ih hcalls hrs
      rw [transcript_cons, List.map_cons, hreplies, hreply]
      exact ⟨rfl, hend⟩

/-- After `SetSize(3)`, a `Seek` to offset 1 from the start and the write of one
    byte: the file has it at index 1, the vector at index 0. -/
theorem seek_ignores_offset :
    refRun (new 0).file [.setSize ⟨3, true⟩ 3, .seek 1 0 true, .write ⟨[7], by decide⟩]
      = some ([.setSize 0, .seek 0 (some 1), .write 0 1], ⟨[0, 7, 0], 2⟩) ∧
    (run outStep (new 0) [.setSize ⟨3, true⟩ 3, .seek 1 0 true, .write ⟨[7], by decide⟩]).file
      = ⟨[7, 0, 0], 1⟩ ∧
    ¬ Along outStep Agrees (new 0)
      [.setSize ⟨3, true⟩ 3, .seek 1 0 true, .write ⟨[7], by decide⟩] := by
  refine ⟨by decide, by decide, ?_⟩
  rintro ⟨-, hseek, -⟩
  have hlucky := (agrees_seek_iff _ _ _ _).mp hseek .start ⟨[0, 0, 0], 1⟩ rfl (by decide)
  exact absurd hlucky.2 (by decide)

end Fuse7zOutStream
end Fuse7z
