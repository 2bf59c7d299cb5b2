/-
  Fuse7z.Readdir

  The names `readdir` gives the filler.

  Behind "." and ".." these are the keys of the children map, and a key is
  there because some item's path goes through it: nothing is invented and
  nothing is lost, whatever the order of the items (`readdir_names_iff`).  The
  map knows no key twice, but nothing keeps an item's path from having a
  component "." or "..", which is then listed a second time
  (`readdir_nodup_iff`).
-/
import Fuse7z.Listing

namespace Fuse7z

open Lib Fuse7z.Tree Fuse7zLib7zip

/-- The components of the directory "/" ++ `q`. -/
def dirComponents (q : Bytes) : List Bytes := if q = [] then [] else components q

theorem lookupKeys_eq_dirComponents {q : Bytes} (hend : q.getLast? ≠ some slash) :
    lookupKeys q = dirComponents q := by
  rw [dirComponents]
  by_cases hq : q = []
  · rw [if_pos hq, hq]
    rfl
  · rw [if_neg hq]
    exact lookupKeys_of_not_slash hq hend

section Mounted

variable (u : Uninit) (archive : Archive) (euid egid : UInt32) (es : List Callback)

/-- The tree of a mounted archive keeps its shape in every run. -/
theorem run_wf : (run step (mount u archive euid egid) es).tree.WF rootAddr :=
  (run_frame (mount u archive euid egid) es).wf (indexTree_refines u archive.items).wf

variable {u archive euid egid es}

/-- The keys of a node's children map, by the items. -/
theorem mem_keys_iff_items {q c : Bytes} {d : Addr} {n : Node}
    (hd : lookup (run step (mount u archive euid egid) es) (slash :: q) = .ok (some d))
    (hn : (run step (mount u archive euid egid) es).node? d = some n) :
    c ∈ n.childs.entries.map Prod.fst ↔ ∃ x ∈ archive.items, lookupKeys q ++ [c] <+: x.path := by
  have hframe := run_frame (mount u archive euid egid) es
  rw [hframe.lookup_eq] at hd
  have hwalk : walk (indexTree u archive.items).child rootAddr (lookupKeys q) = some d :=
    walk_of_find hd
  -- the children are those the indexing loop made
  have hchild : (indexTree u archive.items).child d c = n.childs.find? c := by
    have hmounted : (indexTree u archive.items).child
        = (run step (mount u archive euid egid) es).tree.child := hframe.child_eq.symm
    have hn' : (run step (mount u archive euid egid) es).tree.node? d = some n := hn
    rw [hmounted, child, hn', Option.bind_some]
  rw [OrdMap.mem_keys_iff, ← hchild]
  exact child_isSome_iff u hwalk c

/-- A listing is that of some node. -/
theorem node_of_readdir {fs : Fuse7zLib7zip} {root : Addr} (hwf : fs.tree.WF root) {path : Bytes}
    {names : List Bytes} (h : fuse7zReaddir fs path = .names names) :
    ∃ d n, lookup fs path = .ok (some d) ∧ fs.node? d = some n ∧
      names = [46] :: [46, 46] :: n.childs.entries.map Prod.fst := by
  cases hfound : lookup fs path with
  | error f =>
      simp only [fuse7zReaddir, hfound] at h
      exact absurd h (by simp)
  | ok found =>
      cases found with
      | none =>
          simp only [fuse7zReaddir, hfound] at h
          exact absurd h (by simp)
      | some d =>
          cases hn : fs.node? d with
          | none =>
              simp only [fuse7zReaddir, hfound, hn] at h
              exact absurd h (by simp)
          | some n =>
              rw [fuse7zReaddir_eq hwf hfound hn] at h
              exact ⟨d, n, rfl, hn, (Reply.names.inj h).symm⟩

/-! ## Complete and exact -/

/-- **What `readdir` lists** in a directory that a path resolves to: the names
    that follow its components in the path of some item, each once, in the
    order of `strcmp`. -/
theorem readdir_names_iff {q : Bytes} (hend : q.getLast? ≠ some slash) {d : Addr}
    (hd : lookup (run step (mount u archive euid egid) es) (slash :: q) = .ok (some d)) :
    ∃ names, fuse7zReaddir (run step (mount u archive euid egid) es) (slash :: q)
        = .names ([46] :: [46, 46] :: names) ∧
      names.Nodup ∧ names.Pairwise (fun a b => strcmp a b < 0) ∧
      ∀ c, c ∈ names ↔
        ∃ x ∈ archive.items, dirComponents q ++ [c] <+: components (narrow x.fullPath) := by
  have hwf := run_wf u archive euid egid es
  have hwalk : walk (run step (mount u archive euid egid) es).tree.child rootAddr (lookupKeys q)
      = some d := by
    have hroot : (run step (mount u archive euid egid) es).rootNode = rootAddr :=
      (run_frame (mount u archive euid egid) es).rootNode
    rw [lookup, hroot] at hd
    exact walk_of_find hd
  obtain ⟨n, hn⟩ := hwf.node_of_walk hwalk
  refine ⟨n.childs.entries.map Prod.fst, fuse7zReaddir_eq hwf hd hn, n.childs.keys_nodup,
    n.childs.keys_ascending, ?_⟩
  intro c
  rw [← lookupKeys_eq_dirComponents hend]
  exact mem_keys_iff_items hd hn

/-! ## Names listed twice -/

/-- **When no name is listed twice**: no item's path goes on with "." or ".."
    behind the components of the directory. -/
theorem readdir_nodup_iff {q : Bytes} {names : List Bytes}
    (hnames : fuse7zReaddir (run step (mount u archive euid egid) es) (slash :: q)
      = .names names) :
    names.Nodup ↔ ∀ x ∈ archive.items,
      ¬ lookupKeys q ++ [[46]] <+: components (narrow x.fullPath) ∧
      ¬ lookupKeys q ++ [[46, 46]] <+: components (narrow x.fullPath) := by
  obtain ⟨d, n, hd, hn, rfl⟩ := node_of_readdir (run_wf u archive euid egid es) hnames
  have hdot : [46] ∈ n.childs.entries.map Prod.fst ↔ _ := mem_keys_iff_items hd hn
  have hdotdot : [46, 46] ∈ n.childs.entries.map Prod.fst ↔ _ := mem_keys_iff_items hd hn
  have hkeys := n.childs.keys_nodup
  -- the keys are different from each other, so only the two fixed names matter
  rw [List.nodup_cons, List.nodup_cons, List.mem_cons, hdot, hdotdot]
  refine ⟨?_, ?_⟩
  · rintro ⟨hno, hno', -⟩ x hx
    exact ⟨fun hpre => hno (Or.inr ⟨x, hx, hpre⟩), fun hpre => hno' ⟨x, hx, hpre⟩⟩
  · intro h
    refine ⟨?_, ?_, hkeys⟩
    · rintro (heq | ⟨x, hx, hpre⟩)
      · exact absurd heq (by decide)
      · exact (h x hx).1 hpre
    · rintro ⟨x, hx, hpre⟩
      exact (h x hx).2 hpre

end Mounted

/-- The root of the archive of "a/b" lists "a". -/
theorem readdir_names_root :
    ∃ names, fuse7zReaddir (mount default nestedArchive 0 0) [slash]
        = .names ([46] :: [46, 46] :: names) ∧ [97] ∈ names := by
  have hd : lookup (run step (mount default nestedArchive 0 0) []) (slash :: []) = .ok (some 0) := by
    decide +kernel
  obtain ⟨names, hreply, -, -, hmem⟩ := readdir_names_iff (by simp) hd
  refine ⟨names, hreply, ?_⟩
  rw [hmem]
  exact ⟨Item.sized [97, 47, 98] false 3, List.mem_singleton.mpr rfl, by decide⟩

/-- "/a" lists no name twice. -/
theorem readdir_nodup_nested :
    ∃ names, fuse7zReaddir (mount default nestedArchive 0 0) [slash, 97] = .names names ∧
      names.Nodup := by
  have hnames : fuse7zReaddir (run step (mount default nestedArchive 0 0) []) (slash :: [97])
      = .names [[46], [46, 46], [98]] := by
    decide +kernel
  refine ⟨_, hnames, ?_⟩
  rw [readdir_nodup_iff hnames]
  decide

/-- The archive of the one item "./x". -/
def dotArchive : Archive := ⟨[Item.sized [46, 47, 120] false 1], by decide⟩

/-- The root lists "." twice. -/
theorem dot_listed_twice :
    fuse7zReaddir (mount default dotArchive 0 0) [slash] = .names [[46], [46, 46], [46]] ∧
    ¬ ([[46], [46, 46], [46]] : List Bytes).Nodup := by
  refine ⟨?_, ?_⟩
  · decide +kernel
  · decide

end Fuse7z
