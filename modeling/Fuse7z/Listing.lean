/-
  Fuse7z.Listing

  What `readdir` lists against what a lookup of the listed name finds.

  `insert` makes a child of every component, also of an empty one behind a
  trailing '/'; `find` takes an empty rest to mean the node it stands on.  The
  two agree on a listed child exactly when the path joined from the directory
  and the name is looked up by the components it was joined from
  (`lookupKeys_join_iff`).
-/
import Fuse7z.Lookup

namespace Fuse7z

open Lib Fuse7z.Tree Fuse7zLib7zip

/-! ## Joining a directory and a name -/

/-- The path of the entry `name` in the directory `path`: one '/' between
    them, which the root has already. -/
def joinPath (path name : Bytes) : Bytes :=
  if path = [slash] then path ++ name else path ++ slash :: name

/-- What `find` is given for a joined path. -/
def joinRel (q name : Bytes) : Bytes := if q = [] then name else q ++ slash :: name

theorem joinPath_eq (q name : Bytes) : joinPath (slash :: q) name = slash :: joinRel q name := by
  rw [joinPath, joinRel]
  by_cases hq : q = []
  · rw [if_pos hq, if_pos (congrArg _ hq), hq]
    rfl
  · have hne : slash :: q ≠ [slash] := fun h => hq (List.cons.inj h).2
    rw [if_neg hq, if_neg hne]
    rfl

theorem components_joinRel {q name : Bytes} (hname : slash ∉ name) :
    components (joinRel q name) = if q = [] then [name] else components q ++ [name] := by
  rw [joinRel]
  by_cases hq : q = []
  · rw [if_pos hq, if_pos hq]
    exact components_of_not_mem hname
  · rw [if_neg hq, if_neg hq, components_join, components_of_not_mem hname]

/-- A path is looked up by its components, but for an empty last one. -/
theorem lookupKeys_eq (path : Bytes) :
    lookupKeys path = if path = [] ∨ path.getLast? = some slash
      then (components path).dropLast else components path := by
  rw [lookupKeys]
  simp only [getLast_components_eq_nil]

/-- The last component of a path that ends in '/' is empty. -/
theorem components_of_slash_last {q : Bytes} (h : q.getLast? = some slash) :
    components q = (components q).dropLast ++ [[]] := by
  have hlast : (components q).getLast (components_ne_nil q) = [] :=
    (getLast_components_eq_nil q).mpr (Or.inr h)
  have happend := List.dropLast_append_getLast (components_ne_nil q)
  rw [hlast] at happend
  exact happend.symm

theorem lookupKeys_joinRel {q name : Bytes} (hname : slash ∉ name) :
    lookupKeys (joinRel q name) =
      if name = [] then (components (joinRel q name)).dropLast
      else components (joinRel q name) := by
  have hlast : (components (joinRel q name)).getLast (components_ne_nil _) = name := by
    simp only [components_joinRel hname]
    split_ifs
    · exact List.getLast_singleton _
    · exact List.getLast_concat
  rw [lookupKeys, hlast]

/-- The joined path is looked up as the directory and then the name when the
    name is not empty, except behind a directory written with a '/' at its end:
    there only an empty name follows. -/
theorem lookupKeys_join_iff {q name : Bytes} (hname : slash ∉ name) :
    lookupKeys (joinRel q name) = lookupKeys q ++ [name] ↔
      (name = [] ↔ q.getLast? = some slash) := by
  rw [lookupKeys_joinRel hname, lookupKeys_eq q, components_joinRel hname]
  -- the root, a directory written with a '/' at its end, and one without
  by_cases hq : q = []
  · -- in the root
    subst hq
    by_cases hn : name = []
    · simp [hn]
    · simp [hn]
  · by_cases hend : q.getLast? = some slash
    · have hcomp := components_of_slash_last hend
      rw [if_neg hq, if_pos (Or.inr hend)]
      by_cases hn : name = []
      · -- the empty name, behind the '/' the directory ends in
        rw [if_pos hn, List.dropLast_concat, hn, ← hcomp]
        simp [hend]
      · rw [if_neg hn]
        refine iff_of_false ?_ (fun h => hn (h.mpr hend))
        intro heq
        -- the empty component in between makes the joined path one longer
        have hlen := congrArg List.length heq
        rw [hcomp] at hlen
        simp only [List.length_append, List.length_singleton, List.length_dropLast] at hlen
        omega
    · have hno : ¬ (q = [] ∨ q.getLast? = some slash) := not_or.mpr ⟨hq, hend⟩
      rw [if_neg hq, if_neg hno]
      by_cases hn : name = []
      · rw [if_pos hn, List.dropLast_concat]
        refine iff_of_false ?_ (fun h => hend (h.mp hn))
        intro heq
        have hlen := congrArg List.length heq
        rw [List.length_append, List.length_singleton] at hlen
        omega
      · rw [if_neg hn]
        exact iff_of_true rfl (iff_of_false hn hend)

/-- The joined path is no harder on `find` than the directory's components. -/
theorem short_joinRel {q name : Bytes} (hname : slash ∉ name)
    (hshort : ∀ k ∈ components q, k.length ≤ 254) : Short (joinRel q name) := by
  intro k hk
  rw [components_joinRel hname] at hk
  by_cases hq : q = []
  · rw [if_pos hq] at hk
    exact absurd hk (by simp)
  · rw [if_neg hq, List.dropLast_concat] at hk
    have hle := hshort k hk
    exact Nat.lt_succ_of_le hle

/-! ## Children in the tree of an archive -/

/-- No '/' in the key of a child. -/
theorem child_name_no_slash {u : Uninit} {items : List Item} {a c : Addr} {name : Bytes}
    (h : (indexTree u items).child a name = some c) : slash ∉ name := by
  obtain ⟨n, hn, -⟩ := child_eq_some.mp h
  obtain ⟨ds, hds⟩ := (indexTree_refines u items).wf.reach hn
  obtain ⟨x, -, hpre⟩ := prefix_of_child hds h
  -- the name is a component of some item's path
  have hmem : name ∈ components (narrow x.fullPath) :=
    hpre.subset (List.mem_append_right ds (List.mem_singleton.mpr rfl))
  exact not_mem_of_mem_components hmem

theorem mapM_ok {α β ε : Type} {f : α → Except ε β} {g : α → β} {l : List α}
    (h : ∀ x ∈ l, f x = .ok (g x)) : l.mapM f = .ok (l.map g) := by
  induction l with
  | nil => rfl
  | cons x l ih =>
      rw [List.mapM_cons, h x List.mem_cons_self, ih fun y hy => h y (List.mem_cons_of_mem x hy)]
      rfl

/-- `readdir` names the children by their keys, in the order of the map. -/
theorem childNames_eq {fs : Fuse7zLib7zip} {root : Addr} (hwf : fs.tree.WF root) {a : Addr}
    {n : Node} (hn : fs.node? a = some n) :
    childNames fs n = .ok (n.childs.entries.map Prod.fst) := by
  apply mapM_ok
  intro e he
  -- a child has the name its parent knows it by
  have hchild : fs.tree.child a e.1 = some e.2 :=
    child_eq_some.mpr ⟨n, hn, (OrdMap.find?_eq_some_iff _).mpr he⟩
  obtain ⟨m, hm, -, hname⟩ := hwf.link hchild
  have hm' : fs.node? e.2 = some m := hm
  simp only [hm', hname]

/-- What `readdir` gives the filler for a node. -/
theorem fuse7zReaddir_eq {fs : Fuse7zLib7zip} {root : Addr} (hwf : fs.tree.WF root) {path : Bytes}
    {a : Addr} {n : Node} (hfound : lookup fs path = .ok (some a)) (hn : fs.node? a = some n) :
    fuse7zReaddir fs path = .names ([46] :: [46, 46] :: n.childs.entries.map Prod.fst) := by
  have hnames := childNames_eq hwf hn
  simp only [fuse7zReaddir, hfound, hn, hnames]

/-! ## Listing and lookup -/

/-- `path` resolves to the node `c`, and `getattr` reports what `c` has. -/
structure ResolvesTo (fs : Fuse7zLib7zip) (path : Bytes) (c : Addr) : Prop where
  lookup_eq : lookup fs path = .ok (some c)
  attr_eq : ∃ m, fs.node? c = some m ∧ fuse7zGetattr fs path = .attr (attrOf fs m)

theorem resolvesTo_iff {fs : Fuse7zLib7zip} {path : Bytes} {c : Addr} {m : Node}
    (hm : fs.node? c = some m) : ResolvesTo fs path c ↔ lookup fs path = .ok (some c) := by
  refine ⟨?_, ?_⟩
  · exact ResolvesTo.lookup_eq
  · intro h
    refine ⟨h, m, hm, ?_⟩
    simp only [fuse7zGetattr, h, hm]

/-- **When a listed entry can be looked up.**  `readdir` on the path "/" ++ `q`
    lists the children of the node; the path of the child `name` resolves to
    that child just when the name is not empty, or `q` ends in '/' and it is. -/
theorem listed_child_resolves_iff (u : Uninit) (archive : Archive) (euid egid : UInt32)
    {q : Bytes} (hshort : ∀ k ∈ components q, k.length ≤ 254) {d : Addr} {n : Node}
    (hd : lookup (mount u archive euid egid) (slash :: q) = .ok (some d))
    (hn : (mount u archive euid egid).node? d = some n) :
    fuse7zReaddir (mount u archive euid egid) (slash :: q)
      = .names ([46] :: [46, 46] :: n.childs.entries.map Prod.fst) ∧
    ∀ name c, (name, c) ∈ n.childs.entries →
      (ResolvesTo (mount u archive euid egid) (joinPath (slash :: q) name) c ↔
        (name = [] ↔ q.getLast? = some slash)) := by
  have hwf : (indexTree u archive.items).WF rootAddr := (indexTree_refines u archive.items).wf
  have hwalk : walk (indexTree u archive.items).child rootAddr (lookupKeys q) = some d :=
    walk_of_find hd
  refine ⟨fuse7zReaddir_eq hwf hd hn, ?_⟩
  intro name c hmem
  have hchild : (indexTree u archive.items).child d name = some c :=
    child_eq_some.mpr ⟨n, hn, (OrdMap.find?_eq_some_iff _).mpr hmem⟩
  have hname := child_name_no_slash hchild
  have hc : walk (indexTree u archive.items).child rootAddr (lookupKeys q ++ [name]) = some c :=
    walk_concat_eq_some.mpr ⟨d, hwalk, hchild⟩
  obtain ⟨m, hm, -⟩ := hwf.link hchild
  have hm' : (mount u archive euid egid).node? c = some m := hm
  have hlookup : lookup (mount u archive euid egid) (joinPath (slash :: q) name)
      = .ok (walk (indexTree u archive.items).child rootAddr
          (lookupKeys (joinRel q name))) := by
    rw [joinPath_eq]
    exact find_eq_walk _ _ _ (short_joinRel hname hshort)
  rw [resolvesTo_iff hm', hlookup, ← lookupKeys_join_iff hname]
  -- in a tree, the same node is the same labels
  refine ⟨?_, ?_⟩
  · intro heq
    exact hwf.arborescence.walk_inj (Except.ok.inj heq) hc
  · intro heq
    rw [heq, hc]

/-- The archive of the one item "a/b". -/
def nestedArchive : Archive := ⟨[Item.sized [97, 47, 98] false 3], by decide⟩

/-- "/a" lists "b", and "/a/b" is that child. -/
theorem nested_b_resolves :
    ResolvesTo (mount default nestedArchive 0 0) (joinPath [slash, 97] [98]) 2 := by
  have hd : lookup (mount default nestedArchive 0 0) (slash :: [97]) = .ok (some 1) := by
    decide +kernel
  have hkids : ((mount default nestedArchive 0 0).node? 1).map (fun n => n.childs.entries)
      = some [([98], 2)] := by
    decide +kernel
  obtain ⟨n, hn, hentries⟩ := Option.map_eq_some_iff.mp hkids
  have hmem : (([98] : Bytes), (2 : Addr)) ∈ n.childs.entries := by
    rw [hentries]
    exact List.mem_singleton.mpr rfl
  have hall := listed_child_resolves_iff default nestedArchive 0 0 (by decide) hd hn
  exact (hall.2 [98] 2 hmem).mpr (by decide)

/-- The archive of the one item "a/". -/
def slashArchive : Archive := ⟨[Item.sized [97, 47] true 0], by decide⟩

/-- "/a" lists a child with an empty name, and "/a/" is "/a" again. -/
theorem slash_child_lost :
    lookup (mount default slashArchive 0 0) [slash, 97] = .ok (some 1) ∧
    fuse7zReaddir (mount default slashArchive 0 0) [slash, 97] = .names [[46], [46, 46], []] ∧
    (mount default slashArchive 0 0).tree.child 1 [] = some 2 ∧
    ¬ ResolvesTo (mount default slashArchive 0 0) (joinPath [slash, 97] []) 2 := by
  refine ⟨by decide +kernel, by decide +kernel, by decide +kernel, ?_⟩
  intro h
  have hself : lookup (mount default slashArchive 0 0) (joinPath [slash, 97] []) = .ok (some 1) := by
    decide +kernel
  have hone := hself.symm.trans h.lookup_eq
  exact absurd hone (by decide)

end Fuse7z
