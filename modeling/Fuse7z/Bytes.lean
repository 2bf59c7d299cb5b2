/-
  Fuse7z.Bytes

  C strings, and the two ways the node tree looks at them: `strcmp`, by which
  the children of a node are ordered, and the scan for the first '/', by which
  `Node::insert` and `Node::find` cut a path.

  A C string is the list of its characters in front of the terminating NUL.
  `components` is the path as a whole, cut at every '/'; `splitSlash_some` and
  `splitSlash_none` relate one scan to it.
-/
import Fuse7z.Lib.OrdMap
import Mathlib.Algebra.Group.Nat.Defs
import Mathlib.Data.List.Basic
import Mathlib.Data.List.TakeWhile
import Mathlib.Order.Defs.Unbundled

namespace Fuse7z

/-- A `char`, compared as `strcmp` compares them: unsigned. -/
abbrev Byte := UInt8

abbrev Bytes := List Byte

/-- A `wchar_t`. -/
abbrev WChar := UInt32

/-- `'/'` -/
def slash : Byte := 47

/-- `L'/'` -/
def wslash : WChar := 47

/-! ## Narrowing -/

/-- What a reader of `const char *` sees of a buffer: the characters in front
    of the first NUL. -/
def cStr (s : Bytes) : Bytes := s.takeWhile (· != 0)

theorem cStr_of_not_mem {s : Bytes} (h : 0 ∉ s) : cStr s = s := by
  rw [cStr, List.takeWhile_eq_self_iff]
  intro c hc
  exact bne_iff_ne.mpr (ne_of_mem_of_not_mem hc h)

/-- `std::copy` of a wide path into a `std::string`, each `wchar_t` converted
    to `char` by keeping its low byte, read through `c_str()`. -/
def narrow (wpath : List WChar) : Bytes := cStr (wpath.map UInt32.toUInt8)

/-! ## strcmp -/

/-- `strcmp`; callers look at the sign only. -/
def strcmp : Bytes → Bytes → Int
  | [], [] => 0
  | [], _ :: _ => -1
  | _ :: _, [] => 1
  | a :: s1, b :: s2 => if a = b then strcmp s1 s2 else if a < b then -1 else 1

/-- `ltstr::operator()` -/
def ltstr (s1 s2 : Bytes) : Prop := strcmp s1 s2 < 0

instance : DecidableRel ltstr := fun s1 s2 => inferInstanceAs (Decidable (strcmp s1 s2 < 0))

/-- `strcmp` orders strings lexicographically by unsigned bytes. -/
theorem ltstr_iff_lt {s1 s2 : Bytes} : ltstr s1 s2 ↔ s1 < s2 := by
  unfold ltstr
  induction s1 generalizing s2 with
  | nil =>
      cases s2 with
      | nil => exact iff_of_false (by decide) (List.lt_irrefl _)
      | cons b s2 => exact iff_of_true (by simp [strcmp]) (List.nil_lt_cons b s2)
  | cons a s1 ih =>
      cases s2 with
      | nil => exact iff_of_false (by simp [strcmp]) (List.not_lt_nil _)
      | cons b s2 =>
          -- the first characters decide, or, where they agree, the rest
          rw [List.cons_lt_cons_iff, strcmp]
          by_cases hab : a = b
          · rw [if_pos hab, ih]
            refine ⟨?_, ?_⟩
            · exact fun h => Or.inr ⟨hab, h⟩
            · rintro (h | ⟨-, h⟩)
              · exact absurd (hab ▸ h) (UInt8.lt_irrefl b)
              · exact h
          · rw [if_neg hab]
            by_cases hlt : a < b
            · simp [hlt]
            · simp [hlt, hab]

instance : IsStrictTotalOrder Bytes ltstr where
  irrefl s := by
    rw [ltstr_iff_lt]
    exact List.lt_irrefl s
  trans s1 s2 s3 h12 h23 := by
    rw [ltstr_iff_lt] at *
    exact List.lt_trans h12 h23
  trichotomous s1 s2 h12 h21 := by
    rw [ltstr_iff_lt] at h12 h21
    exact Std.Trichotomous.trichotomous s1 s2 h12 h21

/-! ## Paths -/

/-- The scan of `Node::insert` and `Node::find`: the characters in front of
    the first '/', and those behind it when there is one. -/
def splitSlash : Bytes → Bytes × Option Bytes
  | [] => ([], none)
  | c :: cs =>
      if c = slash then ([], some cs)
      else (c :: (splitSlash cs).1, (splitSlash cs).2)

/-- A path cut at every '/'; `n` slashes make `n + 1` components. -/
def components (path : Bytes) : List Bytes := path.splitOn slash

theorem splitSlash_fst_no_slash (path : Bytes) : slash ∉ (splitSlash path).1 := by
  induction path with
  | nil => simp [splitSlash]
  | cons c cs ih =>
      rw [splitSlash]
      by_cases hc : c = slash
      · simp [hc]
      · simp [hc, ih, Ne.symm hc]

theorem splitSlash_none {path name : Bytes} (h : splitSlash path = (name, none)) :
    path = name := by
  induction path generalizing name with
  | nil => exact (Prod.mk.inj h).1
  | cons c cs ih =>
      rw [splitSlash] at h
      by_cases hc : c = slash
      · rw [if_pos hc] at h
        exact absurd (Prod.mk.inj h).2 (by simp)
      · rw [if_neg hc] at h
        obtain ⟨h1, h2⟩ := Prod.mk.inj h
        have hcs : cs = (splitSlash cs).1 := ih (Prod.ext rfl h2)
        rw [← h1, ← hcs]

theorem splitSlash_some {path name rest : Bytes} (h : splitSlash path = (name, some rest)) :
    path = name ++ slash :: rest := by
  induction path generalizing name with
  | nil => exact absurd (Prod.mk.inj h).2 (by simp)
  | cons c cs ih =>
      rw [splitSlash] at h
      by_cases hc : c = slash
      · rw [if_pos hc] at h
        obtain ⟨rfl, h2⟩ := Prod.mk.inj h
        rw [hc, Option.some.inj h2]
        rfl
      · rw [if_neg hc] at h
        obtain ⟨h1, h2⟩ := Prod.mk.inj h
        have hcs : cs = (splitSlash cs).1 ++ slash :: rest := ih (Prod.ext rfl h2)
        rw [← h1, List.cons_append, ← hcs]

/-- What follows a '/' is shorter than the path. -/
theorem splitSlash_rest_length {path name rest : Bytes}
    (h : splitSlash path = (name, some rest)) : rest.length < path.length := by
  rw [splitSlash_some h, List.length_append, List.length_cons]
  omega

/-- A path without '/' is its only component. -/
theorem components_of_splitSlash_none {path name : Bytes}
    (h : splitSlash path = (name, none)) : components path = [name] := by
  have hno := splitSlash_fst_no_slash path
  rw [h] at hno
  rw [splitSlash_none h]
  exact List.splitOn_eq_singleton hno

/-- The components of a path with '/': the first one, then those behind it. -/
theorem components_of_splitSlash_some {path name rest : Bytes}
    (h : splitSlash path = (name, some rest)) : components path = name :: components rest := by
  have hno := splitSlash_fst_no_slash path
  rw [h] at hno
  rw [splitSlash_some h]
  exact List.splitOn_append_cons_self_of_not_mem hno rest

theorem components_ne_nil (path : Bytes) : components path ≠ [] := List.splitOn_ne_nil slash path

@[simp] theorem components_nil : components [] = [[]] := rfl

/-- The components of two paths joined by '/'. -/
theorem components_join (p q : Bytes) :
    components (p ++ slash :: q) = components p ++ components q :=
  List.splitOn_append_cons_self p q

/-- A path is its components joined by '/'. -/
theorem intercalate_components (path : Bytes) : [slash].intercalate (components path) = path :=
  List.intercalate_splitOn slash

/-- Different paths have different components. -/
theorem components_inj {p q : Bytes} (h : components p = components q) : p = q := by
  rw [← intercalate_components p, h, intercalate_components]

/-- Induction along the scan: from what follows a '/' to the whole path. -/
theorem path_induction {motive : Bytes → Prop}
    (leaf : ∀ path name, splitSlash path = (name, none) → motive path)
    (dir : ∀ path name rest, splitSlash path = (name, some rest) → motive rest → motive path)
    (path : Bytes) : motive path := by
  induction hn : path.length using Nat.strongRecOn generalizing path with
  | ind n ih =>
      rcases h : splitSlash path with ⟨name, _ | rest⟩
      · exact leaf path name h
      · exact dir path name rest h (ih _ (hn ▸ splitSlash_rest_length h) rest rfl)

theorem not_mem_of_mem_components {path name : Bytes} (h : name ∈ components path) :
    slash ∉ name := by
  induction path using path_induction with
  | leaf path first hsplit =>
      rw [components_of_splitSlash_none hsplit] at h
      obtain rfl := List.mem_singleton.mp h
      have hno := splitSlash_fst_no_slash path
      rwa [hsplit] at hno
  | dir path first rest hsplit ih =>
      rw [components_of_splitSlash_some hsplit] at h
      rcases List.mem_cons.mp h with rfl | h
      · have hno := splitSlash_fst_no_slash path
        rwa [hsplit] at hno
      · exact ih h

theorem components_of_not_mem {name : Bytes} (h : slash ∉ name) : components name = [name] :=
  List.splitOn_eq_singleton h

/-- A character other than '/' is in a path when it is in a component. -/
theorem mem_iff_components {path : Bytes} {c : Byte} (hc : c ≠ slash) :
    c ∈ path ↔ ∃ name ∈ components path, c ∈ name := by
  induction path using path_induction with
  | leaf path name h =>
      obtain rfl := splitSlash_none h
      simp [components_of_splitSlash_none h]
  | dir path name rest h ih =>
      rw [components_of_splitSlash_some h, splitSlash_some h, List.mem_append, List.mem_cons, ih]
      simp [hc]

/-- The last component is empty just for the empty path and the paths that
    end in '/'. -/
theorem getLast_components_eq_nil (path : Bytes) :
    (components path).getLast (components_ne_nil path) = []
      ↔ path = [] ∨ path.getLast? = some slash := by
  induction path using path_induction with
  | leaf path name h =>
      have hno := splitSlash_fst_no_slash path
      rw [h] at hno
      obtain rfl := splitSlash_none h
      simp only [components_of_splitSlash_none h, List.getLast_singleton]
      refine ⟨?_, ?_⟩
      · exact Or.inl
      · rintro (rfl | hlast)
        · rfl
        · exact absurd (List.mem_of_getLast? hlast) hno
  | dir path name rest h ih =>
      -- the path ends in '/' when its rest does, or has nothing behind the '/'
      have hlast : path.getLast? = some slash ↔ rest = [] ∨ rest.getLast? = some slash := by
        rw [splitSlash_some h, List.getLast?_append, List.getLast?_cons]
        rcases List.eq_nil_or_concat' rest with rfl | ⟨rest', c, rfl⟩
        · simp
        · simp
      have hne : path ≠ [] := by
        rw [splitSlash_some h]
        simp
      simp only [components_of_splitSlash_some h,
        List.getLast_cons (components_ne_nil rest), ih, hne, false_or, hlast]

end Fuse7z
