/-
  Fuse7z.Pouet

  The stores of `Node::find` to its local array.

  At every level that has a '/' in front of it, `find` copies the component to
  `pouet` and puts a NUL behind it.  `findWrites` lists the indices of all
  levels, also those past the end of the array; `find` comes to a `stackSmash`
  just when there is one (`find_smashes_iff`).  A component of 254 bytes is
  the longest that fits, one byte less than `fuse7z_statfs` advertises.
-/
import Fuse7z.Index
import Fuse7z.Callbacks

namespace Fuse7z

open Lib

namespace Tree

/-- The stores of one level: `strncpy(pouet, path, path2 - path)`, and then
    `pouet[path2 - path] = '\0'`. -/
def copyWrites (name : Bytes) : List Nat := List.range name.length ++ [name.length]

/-- The indices of `pouet` that `Node::find` stores to, level by level. -/
def findWrites (t : Tree) (this : Addr) (path : Bytes) : List Nat :=
  if path = [] then []
  else
    match _h : splitSlash path with
    | (name, some path2) =>
        copyWrites name ++
          match t.child this name with
          | some child => findWrites t child path2
          | none => []
    | (_, none) => []
termination_by path.length
decreasing_by exact splitSlash_rest_length _h

/-- Every store stays inside the array. -/
def WritesInside (t : Tree) (this : Addr) (path : Bytes) : Prop :=
  ∀ i ∈ t.findWrites this path, i < pouetSize

/-- Every component with a '/' behind it that `find` gets to leaves room for
    the NUL. -/
def CopiesFit (t : Tree) (this : Addr) (path : Bytes) : Prop :=
  ∀ pre name rest, components path = pre ++ name :: rest → rest ≠ [] →
    (walk t.child this pre).isSome → name.length ≤ 254

/-! ## Level by level -/

theorem findWrites_leaf (t : Tree) (this : Addr) {path name : Bytes}
    (h : splitSlash path = (name, none)) : t.findWrites this path = [] := by
  rw [findWrites]
  split_ifs
  · rfl
  · split
    · rename_i name' path2 h'
      exact absurd (h.symm.trans h') (by simp)
    · rfl

theorem findWrites_dir (t : Tree) (this : Addr) {path name rest : Bytes}
    (h : splitSlash path = (name, some rest)) :
    t.findWrites this path =
      copyWrites name ++
        match t.child this name with
        | some child => t.findWrites child rest
        | none => [] := by
  have hne : path ≠ [] := by
    rw [splitSlash_some h]
    simp
  rw [findWrites, if_neg hne]
  split
  · rename_i name' path2 h'
    obtain ⟨rfl, hrest⟩ := Prod.mk.inj (h.symm.trans h')
    obtain rfl := Option.some.inj hrest
    rfl
  · rename_i name' h'
    exact absurd (h.symm.trans h') (by simp)

/-- The largest index of a level is that of the NUL. -/
theorem copyWrites_inside_iff (name : Bytes) :
    (∀ i ∈ copyWrites name, i < pouetSize) ↔ name.length ≤ 254 := by
  rw [copyWrites, pouetSize]
  refine ⟨?_, ?_⟩
  · intro h
    have hnul : name.length < 255 := h name.length List.mem_concat_self
    omega
  · intro h i hi
    rcases List.mem_append.mp hi with hi | hi
    · have hlt : i < name.length := List.mem_range.mp hi
      omega
    · have heq : i = name.length := List.mem_singleton.mp hi
      omega

theorem writesInside_dir (t : Tree) (this : Addr) {path name rest : Bytes}
    (h : splitSlash path = (name, some rest)) :
    t.WritesInside this path ↔
      name.length ≤ 254 ∧ ∀ c, t.child this name = some c → t.WritesInside c rest := by
  rw [WritesInside, findWrites_dir t this h, List.forall_mem_append, copyWrites_inside_iff]
  apply and_congr_right
  intro _
  cases t.child this name with
  | none => simp
  | some c => simp [WritesInside]

theorem copiesFit_leaf (t : Tree) (this : Addr) {path name : Bytes}
    (h : splitSlash path = (name, none)) : t.CopiesFit this path := by
  intro pre k rest hsplit hrest
  rw [components_of_splitSlash_none h] at hsplit
  -- nothing stands behind the only component
  have hlen := congrArg List.length hsplit
  simp only [List.length_append, List.length_cons, List.length_nil] at hlen
  exact absurd (List.eq_nil_of_length_eq_zero (by omega)) hrest

theorem copiesFit_dir (t : Tree) (this : Addr) {path name rest : Bytes}
    (h : splitSlash path = (name, some rest)) :
    t.CopiesFit this path ↔
      name.length ≤ 254 ∧ ∀ c, t.child this name = some c → t.CopiesFit c rest := by
  have hcomp := components_of_splitSlash_some h
  refine ⟨?_, ?_⟩
  · intro hfit
    refine ⟨hfit [] name (components rest) hcomp (components_ne_nil rest) rfl, ?_⟩
    intro c hc pre k ks hsplit hks hwalk
    apply hfit (name :: pre) k ks _ hks
    · rw [walk_cons, hc]
      exact hwalk
    · rw [hcomp, hsplit, List.cons_append]
  · rintro ⟨hname, hfit⟩ pre k ks hsplit hks hwalk
    rw [hcomp] at hsplit
    cases pre with
    | nil => exact (List.cons.inj hsplit).1 ▸ hname
    | cons p pre =>
        obtain ⟨rfl, htail⟩ := List.cons.inj hsplit
        rw [walk_cons] at hwalk
        -- `find` is behind the first component only if there is such a child
        cases hc : t.child this name with
        | none =>
            rw [hc] at hwalk
            exact absurd hwalk (by simp)
        | some c =>
            rw [hc] at hwalk
            exact hfit c hc pre k ks htail hks hwalk

/-! ## All levels -/

/-- `find` smashes the stack just when it stores past the end of the array. -/
theorem find_smashes_iff (t : Tree) (this : Addr) (path : Bytes) :
    (∃ f, t.find this path = .error f) ↔ ¬ t.WritesInside this path := by
  induction path using path_induction generalizing this with
  | leaf path name h =>
      have hno : t.WritesInside this path := by
        rw [WritesInside, findWrites_leaf t this h]
        exact fun i hi => absurd hi List.not_mem_nil
      refine iff_of_false ?_ (fun hsmash => hsmash hno)
      rintro ⟨f, hf⟩
      by_cases hne : path = []
      · rw [hne, find_nil] at hf
        exact absurd hf (by simp)
      · rw [find_leaf t this hne h] at hf
        exact absurd hf (by simp)
  | dir path name rest h ih =>
      rw [find_dir t this h, writesInside_dir t this h]
      by_cases hname : name.length ≤ 254
      · have hfits : ¬ pouetSize ≤ name.length := by
          rw [pouetSize]
          omega
        rw [if_neg hfits]
        -- this level is inside, so the rest decides
        cases t.child this name with
        | none => simp [hname]
        | some c => simp [hname, ih c]
      · have hsmash : pouetSize ≤ name.length := by
          rw [pouetSize]
          omega
        rw [if_pos hsmash]
        exact iff_of_true ⟨_, rfl⟩ (fun hall => hname hall.1)

/-- **Which lookups stay inside `pouet`**: those in which no component that
    `find` copies has more than 254 bytes. -/
theorem writes_inside_iff (t : Tree) (this : Addr) (path : Bytes) :
    t.WritesInside this path ↔ t.CopiesFit this path := by
  induction path using path_induction generalizing this with
  | leaf path name h =>
      refine iff_of_true ?_ (copiesFit_leaf t this h)
      rw [WritesInside, findWrites_leaf t this h]
      exact fun i hi => absurd hi List.not_mem_nil
  | dir path name rest h ih =>
      rw [writesInside_dir t this h, copiesFit_dir t this h]
      apply and_congr_right
      intro _
      refine ⟨?_, ?_⟩
      · exact fun hall c hc => (ih c).mp (hall c hc)
      · exact fun hall c hc => (ih c).mpr (hall c hc)

/-- A name as long as `f_namemax` allows, with an entry behind it. -/
def longestName : Bytes := List.replicate 255 97

theorem components_longestName_child : components (longestName ++ [slash, 98]) = [longestName, [98]] := by
  have hno : slash ∉ longestName := by
    intro hmem
    exact absurd (List.eq_of_mem_replicate hmem) (by decide)
  have hname : components longestName = [longestName] := List.splitOn_eq_singleton hno
  rw [components_join longestName [98], hname]
  rfl

/-- In the tree of a root alone, the lookup of a path whose components are all
    as short as `fuse7z_statfs` says stores a NUL behind the array. -/
theorem longestName_smashes :
    (∀ st buf, ∃ vfs, fuse7zStatfs 0 st buf = .vfs vfs ∧
      ∀ name ∈ components (longestName ++ [slash, 98]), name.length ≤ vfs.fNamemax.toNat) ∧
    ¬ (freshRoot default).WritesInside rootAddr (longestName ++ [slash, 98]) := by
  have hlen : longestName.length = 255 := List.length_replicate
  refine ⟨?_, ?_⟩
  · intro st buf
    refine ⟨_, if_neg (by decide), ?_⟩
    intro name hname
    rw [components_longestName_child] at hname
    rcases List.mem_cons.mp hname with rfl | hname
    · exact Nat.le_of_eq hlen
    · rw [List.mem_singleton.mp hname]
      show 1 ≤ 255
      omega
  · rw [writes_inside_iff]
    intro hfit
    have hle := hfit [] longestName [[98]] components_longestName_child (by simp) rfl
    omega

end Tree
end Fuse7z
