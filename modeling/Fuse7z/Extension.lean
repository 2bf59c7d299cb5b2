/-
  Fuse7z.Extension

  The extension `Fuse7zInStream` reports, against the one the name has.

  The constructor looks for the last dot of the whole path and copies what is
  behind it, with the terminating NUL.  That is the extension of the file when
  the last dot is in the final component; a name whose only dots are in its
  directories comes out with the rest of the path for an extension
  (`extension_right_iff`).
-/
import Fuse7z.InStream

namespace Fuse7z

open Lib

/-! ## The extension of a name -/

/-- The part of a path behind its last '/'. -/
def finalComponent (fileName : Bytes) : Bytes := afterLast slash fileName

/-- The text behind the last '.' of the final component, and `7z` where it has
    none. -/
def expectedExt (fileName : Bytes) : List WChar :=
  if dot ∈ finalComponent fileName then
    (afterLast dot (finalComponent fileName)).map UInt8.toUInt32
  else ext7z

/-- What a reader of `const wchar_t *` sees of a wide string. -/
def wcStr (s : List WChar) : List WChar := s.takeWhile (· != 0)

/-- The stream reports the extension of its name, and no index used for it is
    beyond the length of the name. -/
def ExtensionRight (fileName : Bytes) (s : Fuse7zInStream) : Prop :=
  wcStr s.getExt = expectedExt fileName ∧ ∀ i ∈ extIndices fileName, i ≤ fileName.length

instance (fileName : Bytes) (s : Fuse7zInStream) : Decidable (ExtensionRight fileName s) :=
  inferInstanceAs (Decidable (_ ∧ _))

/-- The size of the longest path that can be opened, its NUL included. -/
def pathMax : Nat := 4096

/-! ## Characters -/

/-- ASCII characters are not negative. -/
theorem widen_ascii {c : Byte} (h : c < 128) : widen c = c.toUInt32 := by
  have hsign : c.toBitVec.msb = false := by
    rw [BitVec.msb_eq_decide]
    have hnat : c.toBitVec.toNat < 128 := UInt8.lt_iff_toNat_lt.mp h
    exact decide_eq_false (by omega)
  have hext : c.toBitVec.signExtend 32 = c.toBitVec.setWidth 32 :=
    BitVec.signExtend_eq_setWidth_of_msb_false hsign
  apply UInt32.eq_of_toBitVec_eq
  exact hext

/-- The copied text is read up to the NUL copied with it. -/
theorem wcStr_map_widen {text : Bytes} (hascii : ∀ c ∈ text, c < 128) (hnul : 0 ∉ text) :
    wcStr (text.map widen ++ [0]) = text.map UInt8.toUInt32 := by
  have hmap : text.map widen = text.map UInt8.toUInt32 :=
    List.map_congr_left fun c hc => widen_ascii (hascii c hc)
  have hall : ∀ w ∈ text.map UInt8.toUInt32, (w != 0) = true := by
    intro w hw
    obtain ⟨c, hc, rfl⟩ := List.mem_map.mp hw
    have hne : c.toUInt32 ≠ 0 := by
      intro hzero
      have hnat : c.toNat = 0 := congrArg UInt32.toNat hzero
      have hc0 : c = 0 := UInt8.toNat_inj.mp hnat
      exact hnul (hc0 ▸ hc)
    exact bne_iff_ne.mpr hne
  rw [hmap, wcStr, List.takeWhile_append_of_pos hall]
  exact List.append_nil _

/-! ## The copy loop -/

/-- The position of the last dot, as the `int` it is kept in. -/
theorem dotPos_append (a : Bytes) {b : Bytes} (hb : dot ∉ b) :
    dotPos (a ++ dot :: b) = Int32.ofNat a.length := by
  rw [dotPos, findLastOf, lastIndex_append a hb]
  show (UInt64.ofNat a.length).toUInt32.toInt32 = Int32.ofNat a.length
  rw [UInt64.toUInt32_ofNat', UInt32.toInt32_ofNat']

theorem dotPos_none {fileName : Bytes} (h : dot ∉ fileName) :
    (dotPos fileName).toInt64.toUInt64 = npos := by
  rw [dotPos, findLastOf, lastIndex_of_not_mem h]
  rfl

section HasDot

variable {a b : Bytes} (hb : dot ∉ b) (hlen : (a ++ dot :: b).length < 2 ^ 31)

include hb hlen

theorem dotPos_index : (dotPos (a ++ dot :: b)).toInt64.toUInt64.toNat = a.length := by
  rw [List.length_append, List.length_cons] at hlen
  rw [dotPos_append a hb]
  exact toNat_index (by omega)

theorem dotPos_ne_npos : (dotPos (a ++ dot :: b)).toInt64.toUInt64 ≠ npos := by
  intro hnpos
  have hnat := dotPos_index hb hlen
  have hmax : npos.toNat = 2 ^ 64 - 1 := rfl
  rw [List.length_append] at hlen
  rw [hnpos, hmax] at hnat
  omega

/-- The text and the NUL. -/
theorem extLength_eq : extLength (a ++ dot :: b) = b.length + 1 := by
  have hnat := dotPos_index hb hlen
  have hword : (UInt64.ofNat (a ++ dot :: b).length).toNat = (a ++ dot :: b).length :=
    UInt64.toNat_ofNat_of_lt' (Nat.lt_trans hlen (by decide))
  rw [extLength, toNat_sub_wrap, hword, hnat, List.length_append, List.length_cons]
  rw [if_pos (by omega)]
  omega

/-- A turn of the loop reads behind the dot. -/
theorem extSource_eq {i : Nat} (hi : i ≤ b.length) :
    extSource (a ++ dot :: b) i = a.length + 1 + i := by
  rw [List.length_append, List.length_cons] at hlen
  have hsum : Int32.ofNat a.length + 1 + Int32.ofNat i = Int32.ofNat (a.length + 1 + i) := by
    rw [Int32.ofNat_add, Int32.ofNat_add]
    rfl
  rw [extSource, dotPos_append a hb, hsum]
  exact toNat_index (by omega)

/-- The loop copies the text behind the last dot, and the NUL. -/
theorem fileExt_eq : fileExt (a ++ dot :: b) = b.map widen ++ [0] := by
  have hbytes : ∀ i ∈ List.range (b.length + 1),
      widen (((a ++ dot :: b)[extSource (a ++ dot :: b) i]?).getD 0)
        = widen ((b[i]?).getD 0) := by
    intro i hi
    have hle : i ≤ b.length := Nat.lt_succ_iff.mp (List.mem_range.mp hi)
    have hsub : a.length + 1 + i - a.length = i + 1 := by omega
    rw [extSource_eq hb hlen hle, List.getElem?_append_right (by omega), hsub,
      List.getElem?_cons_succ]
  -- the turns in front of the last one copy the text
  have htext : ((List.range b.length).map fun i => widen ((b[i]?).getD 0)) = b.map widen := by
    have hfit : 0 + b.length ≤ b.length := by omega
    have hwindow := map_getElem?_eq_window b hfit fun _ => 0
    simp only [Nat.zero_add, window_all] at hwindow
    have hwide := congrArg (List.map widen) hwindow
    rw [List.map_map] at hwide
    exact hwide
  have hnul : widen ((b[b.length]?).getD 0) = 0 := by
    rw [List.getElem?_eq_none (Nat.le_refl _)]
    rfl
  rw [fileExt, if_pos (dotPos_ne_npos hb hlen), extLength_eq hb hlen, List.map_congr_left hbytes,
    List.range_succ, List.map_append, htext, List.map_singleton, hnul]

/-- The loop stays inside the name, or on its terminating NUL. -/
theorem extIndices_le : ∀ j ∈ extIndices (a ++ dot :: b), j ≤ (a ++ dot :: b).length := by
  intro j hj
  rw [extIndices, if_pos (dotPos_ne_npos hb hlen), extLength_eq hb hlen] at hj
  obtain ⟨i, hi, hj⟩ := List.mem_flatMap.mp hj
  have hle : i ≤ b.length := Nat.lt_succ_iff.mp (List.mem_range.mp hi)
  rw [extSource_eq hb hlen hle] at hj
  rw [List.length_append, List.length_cons]
  rcases List.mem_pair.mp hj with rfl | rfl
  · omega
  · omega

end HasDot

theorem fileExt_none {fileName : Bytes} (h : dot ∉ fileName) : fileExt fileName = ext7z := by
  rw [fileExt]
  exact if_neg (not_not_intro (dotPos_none h))

theorem extIndices_none {fileName : Bytes} (h : dot ∉ fileName) : extIndices fileName = [] := by
  rw [extIndices]
  exact if_neg (not_not_intro (dotPos_none h))

/-- What is reported is the text behind the last dot of the whole name. -/
theorem wcStr_fileExt {fileName : Bytes} (hascii : ∀ c ∈ fileName, c < 128) (hnul : 0 ∉ fileName)
    (hlen : fileName.length < 2 ^ 31) :
    wcStr (fileExt fileName)
      = if dot ∈ fileName then (afterLast dot fileName).map UInt8.toUInt32 else ext7z := by
  by_cases hdot : dot ∈ fileName
  · rw [if_pos hdot]
    obtain ⟨a, b, rfl, hb⟩ := exists_last hdot
    have htail : ∀ c ∈ b, c ∈ a ++ dot :: b := fun c hc =>
      List.mem_append_right a (List.mem_cons_of_mem dot hc)
    rw [fileExt_eq hb hlen, afterLast_append a hb]
    exact wcStr_map_widen (fun c hc => hascii c (htail c hc)) fun h0 => hnul (htail 0 h0)
  · rw [if_neg hdot, fileExt_none hdot]
    rfl

theorem extIndices_inside {fileName : Bytes} (hlen : fileName.length < 2 ^ 31) :
    ∀ i ∈ extIndices fileName, i ≤ fileName.length := by
  by_cases hdot : dot ∈ fileName
  · obtain ⟨a, b, rfl, hb⟩ := exists_last hdot
    exact extIndices_le hb hlen
  · rw [extIndices_none hdot]
    simp

/-! ## Directories and dots -/

/-- With a dot in the final component, the last dot of the name is there. -/
theorem afterLast_dot_of_mem {fileName : Bytes} (h : dot ∈ finalComponent fileName) :
    dot ∈ fileName ∧ afterLast dot fileName = afterLast dot (finalComponent fileName) := by
  by_cases hslash : slash ∈ fileName
  · obtain ⟨dirs, base, rfl, hbase⟩ := exists_last hslash
    rw [finalComponent, afterLast_append dirs hbase] at h ⊢
    obtain ⟨a, b, rfl, hb⟩ := exists_last h
    have hcut : dirs ++ slash :: (a ++ dot :: b) = (dirs ++ slash :: a) ++ dot :: b := by simp
    refine ⟨by simp, ?_⟩
    rw [afterLast_append a hb, hcut, afterLast_append _ hb]
  · rw [finalComponent, afterLast_of_not_mem hslash] at h ⊢
    exact ⟨h, rfl⟩

/-- With dots in directories only, what is behind the last one has a '/'. -/
theorem slash_mem_afterLast_dot {fileName : Bytes} (hdot : dot ∈ fileName)
    (h : dot ∉ finalComponent fileName) : slash ∈ afterLast dot fileName := by
  by_cases hslash : slash ∈ fileName
  · obtain ⟨dirs, base, rfl, hbase⟩ := exists_last hslash
    rw [finalComponent, afterLast_append dirs hbase] at h
    -- so the last dot is in `dirs`
    have hdirs : dot ∈ dirs := by
      rcases List.mem_append.mp hdot with hmem | hmem
      · exact hmem
      · rcases List.mem_cons.mp hmem with heq | hmem
        · exact absurd heq dot_ne_slash
        · exact absurd hmem h
    obtain ⟨a, b, rfl, hb⟩ := exists_last hdirs
    have hcut : (a ++ dot :: b) ++ slash :: base = a ++ dot :: (b ++ slash :: base) := by simp
    have hrest : dot ∉ b ++ slash :: base := by
      rw [List.mem_append, List.mem_cons]
      rintro (hmem | heq | hmem)
      · exact hb hmem
      · exact absurd heq dot_ne_slash
      · exact h hmem
    rw [hcut, afterLast_append a hrest]
    simp
  · rw [finalComponent, afterLast_of_not_mem hslash] at h
    exact absurd hdot h

/-! ## The reported extension -/

/-- A stream is only constructed for a name that can be opened. -/
theorem new_eq_ok {fopen : Bytes → Option Bytes} {fileName : Bytes} (hnul : 0 ∉ fileName)
    {s : Fuse7zInStream} (h : Fuse7zInStream.new fopen fileName = .ok s) :
    ∃ content, fopen fileName = some content ∧ s = Fuse7zInStream.opened fileName content := by
  rw [Fuse7zInStream.new, cStr_of_not_mem hnul] at h
  cases hopen : fopen fileName with
  | none =>
      rw [hopen] at h
      exact absurd h (by simp)
  | some content =>
      rw [hopen] at h
      exact ⟨content, rfl, (Except.ok.inj h).symm⟩

/-- **When the extension is right**: when the name has no dot, or there is one
    in its final component. -/
theorem extension_right_iff (fopen : Bytes → Option Bytes)
    (hfopen : ∀ name content, fopen name = some content → name.length < pathMax)
    (fileName : Bytes) (hascii : ∀ c ∈ fileName, c < 128) (hnul : 0 ∉ fileName)
    (s : Fuse7zInStream) (hnew : Fuse7zInStream.new fopen fileName = .ok s) :
    ExtensionRight fileName s ↔ (dot ∈ fileName → dot ∈ finalComponent fileName) := by
  obtain ⟨content, hopen, rfl⟩ := new_eq_ok hnul hnew
  have hlen : fileName.length < 2 ^ 31 := Nat.lt_trans (hfopen _ _ hopen) (by
    show 4096 < 2 ^ 31
    omega)
  have hext : wcStr (Fuse7zInStream.opened fileName content).getExt
      = if dot ∈ fileName then (afterLast dot fileName).map UInt8.toUInt32 else ext7z :=
    wcStr_fileExt hascii hnul hlen
  rw [ExtensionRight, hext, expectedExt, and_iff_left (extIndices_inside hlen)]
  by_cases hfinal : dot ∈ finalComponent fileName
  · obtain ⟨hdot, htext⟩ := afterLast_dot_of_mem hfinal
    rw [if_pos hdot, if_pos hfinal, htext]
    exact iff_of_true rfl fun _ => hfinal
  · rw [if_neg hfinal]
    by_cases hdot : dot ∈ fileName
    · rw [if_pos hdot]
      refine iff_of_false ?_ fun h => hfinal (h hdot)
      -- `7z` has no '/'
      intro heq
      have hslash : slash.toUInt32 ∈ (afterLast dot fileName).map UInt8.toUInt32 :=
        List.mem_map_of_mem (slash_mem_afterLast_dot hdot hfinal)
      rw [heq] at hslash
      exact absurd hslash (by decide)
    · rw [if_neg hdot]
      exact iff_of_true rfl fun h => absurd h hdot

theorem onlyFile_short {fileName content name content' : Bytes} (h : fileName.length < pathMax)
    (hopen : onlyFile fileName content name = some content') : name.length < pathMax := by
  rw [onlyFile] at hopen
  split_ifs at hopen with hname
  rw [hname]
  exact h

/-- `d.x/a.b`: dots in a directory and in the final component. -/
theorem extension_right_nested :
    ExtensionRight [100, 46, 120, 47, 97, 46, 98]
      (Fuse7zInStream.opened [100, 46, 120, 47, 97, 46, 98] [1]) := by
  have hshort : ([100, 46, 120, 47, 97, 46, 98] : Bytes).length < pathMax := by
    show 7 < 4096
    omega
  have hascii : ∀ c ∈ ([100, 46, 120, 47, 97, 46, 98] : Bytes), c < 128 := by
    decide +kernel
  have hright := extension_right_iff (onlyFile [100, 46, 120, 47, 97, 46, 98] [1])
    (fun _ _ hopen => onlyFile_short hshort hopen) [100, 46, 120, 47, 97, 46, 98] hascii
    (by decide) _ rfl
  rw [hright]
  decide

/-- `d.x/a`: the only dot is in the directory, and `x/a` is reported for an
    extension. -/
theorem directory_dot_reported :
    Fuse7zInStream.new (onlyFile [100, 46, 120, 47, 97] [1]) [100, 46, 120, 47, 97]
      = .ok (Fuse7zInStream.opened [100, 46, 120, 47, 97] [1]) ∧
    wcStr (Fuse7zInStream.opened [100, 46, 120, 47, 97] [1]).getExt = [120, 47, 97] ∧
    expectedExt [100, 46, 120, 47, 97] = ext7z ∧
    ¬ ExtensionRight [100, 46, 120, 47, 97]
      (Fuse7zInStream.opened [100, 46, 120, 47, 97] [1]) := by
  refine ⟨rfl, by decide, by decide, by decide⟩

end Fuse7z
