/-
  Fuse7z.Directories

  Nodes with children against nodes marked as directories.

  `insert` marks what it makes on the way to an item, but neither a node it
  finds there nor, after the item's own flag was stored, a node that gets a
  child later.  `DirInvariant` therefore holds after every turn of the loop
  just when no turn leaves a non-directory item as the last one of a path
  that another item lies below (`dirInvariant_iff`).
-/
import Fuse7z.Lookup

namespace Fuse7z

open Lib Fuse7z.Tree Fuse7zLib7zip

/-- Every node that has children is marked as a directory. -/
def DirInvariant (t : Tree) : Prop :=
  ∀ a n, t.node? a = some n → n.childs.entries ≠ [] → n.isDir = true

/-- Among these items, the last one of a path another item lies below is a
    directory. -/
def ParentsAreDirs (items : List Item) : Prop :=
  ∀ i x, IsLast items x.path i x →
    (∃ y ∈ items, x.path <+: y.path ∧ x.path ≠ y.path) → x.isDir = true

/-- A node has children just when it has a child of some name. -/
theorem entries_ne_nil_iff {t : Tree} {a : Addr} {n : Node} (hn : t.node? a = some n) :
    n.childs.entries ≠ [] ↔ ∃ name c, t.child a name = some c := by
  refine ⟨?_, ?_⟩
  · intro hne
    obtain ⟨⟨name, c⟩, hmem⟩ := List.exists_mem_of_ne_nil _ hne
    exact ⟨name, c, child_eq_some.mpr ⟨n, hn, (OrdMap.find?_eq_some_iff _).mpr hmem⟩⟩
  · rintro ⟨name, c, hchild⟩
    obtain ⟨m, hm, hfind⟩ := child_eq_some.mp hchild
    obtain rfl := Option.some.inj (hn.symm.trans hm)
    exact List.ne_nil_of_mem ((OrdMap.find?_eq_some_iff _).mp hfind)

/-- The node of a path has children just when an item lies below the path. -/
theorem hasChildren_iff (u : Uninit) {items : List Item} {ds : List Bytes} {a : Addr} {n : Node}
    (hw : walk (indexTree u items).child rootAddr ds = some a)
    (hn : (indexTree u items).node? a = some n) :
    n.childs.entries ≠ [] ↔ ∃ y ∈ items, ds <+: y.path ∧ ds ≠ y.path := by
  rw [entries_ne_nil_iff hn]
  refine ⟨?_, ?_⟩
  · rintro ⟨name, c, hchild⟩
    obtain ⟨y, hy, hpre⟩ := prefix_of_child hw hchild
    refine ⟨y, hy, (List.prefix_append ds [name]).trans hpre, ?_⟩
    -- the path goes on behind `ds`, so it is longer
    intro heq
    have hlen := hpre.length_le
    rw [← heq, List.length_append, List.length_singleton] at hlen
    omega
  · rintro ⟨y, hy, ⟨rest, hrest⟩, hne⟩
    cases rest with
    | nil =>
        rw [List.append_nil] at hrest
        exact absurd hrest hne
    | cons name rest =>
        -- the component that follows `ds` in the item's path names a child
        have hpre : ds ++ [name] <+: y.path := ⟨rest, by rw [← hrest]; simp⟩
        have hsome := (child_isSome_iff u hw name).mpr ⟨y, hy, hpre⟩
        obtain ⟨c, hchild⟩ := Option.isSome_iff_exists.mp hsome
        exact ⟨name, c, hchild⟩

/-- The tree of some items meets the invariant just when their parents are
    directories. -/
theorem dirInvariant_indexTree_iff (u : Uninit) (items : List Item) :
    DirInvariant (indexTree u items) ↔ ParentsAreDirs items := by
  refine ⟨?_, ?_⟩
  -- the item's flag is the flag of its node
  · intro h i x hlast hbelow
    obtain ⟨a, n, hw, hn, hagree⟩ := node_of_index u (index_of_isLast hlast)
    rw [← (agrees_item hagree).2.1]
    exact h a n hn ((hasChildren_iff u hw hn).mpr hbelow)
  · intro h a n hn hne
    obtain ⟨ds, e, hds, he, hagree⟩ := entry_of_node u hn
    have hbelow := (hasChildren_iff u hds hn).mp hne
    cases e with
    | implied => exact Implied.isDir hagree
    | item i x =>
        have hlast := isLast_of_index he
        rw [(agrees_item hagree).2.1]
        obtain rfl := hlast.path_eq
        exact h i x hlast hbelow

/-- What the invariant is for: a node with entries below it is reported as a
    directory and not opened. -/
theorem directory_of_dirInvariant {fs : Fuse7zLib7zip} (h : DirInvariant fs.tree) {path : Bytes}
    {a : Addr} {n : Node} (hfound : lookup fs path = .ok (some a)) (hn : fs.node? a = some n)
    (hne : n.childs.entries ≠ []) :
    (∃ st, fuse7zGetattr fs path = .attr st ∧ st.stMode = dirMode) ∧
      ∀ env, fuse7zOpen fs path env = (.ret (-eisdir), fs) := by
  have hdir : n.isDir = true := h a n hn hne
  refine ⟨?_, ?_⟩
  · refine ⟨attrOf fs n, ?_, ?_⟩
    · simp only [fuse7zGetattr, hfound, hn]
    · simp only [attrOf, hdir, if_true]
  · intro env
    simp only [fuse7zOpen, hfound, hn, hdir, if_true]

/-- **When every node with children is a directory**, after every turn of the
    loop, and what the mounted archive then answers. -/
theorem dirInvariant_iff (u : Uninit) (archive : Archive) (euid egid : UInt32) :
    ((∀ k ≤ archive.items.length, DirInvariant (indexTree u (archive.items.take k))) ↔
      ∀ k ≤ archive.items.length, ParentsAreDirs (archive.items.take k)) ∧
    ((∀ k ≤ archive.items.length, ParentsAreDirs (archive.items.take k)) →
      ∀ path a n, lookup (mount u archive euid egid) path = .ok (some a) →
        (mount u archive euid egid).node? a = some n → n.childs.entries ≠ [] →
        (∃ st, fuse7zGetattr (mount u archive euid egid) path = .attr st ∧ st.stMode = dirMode) ∧
        ∀ env, (fuse7zOpen (mount u archive euid egid) path env).1 = .ret (-eisdir)) := by
  refine ⟨?_, ?_⟩
  · refine ⟨?_, ?_⟩
    · intro h k hk
      exact (dirInvariant_indexTree_iff u _).mp (h k hk)
    · intro h k hk
      exact (dirInvariant_indexTree_iff u _).mpr (h k hk)
  · intro h path a n hfound hn hne
    have hall : DirInvariant (mount u archive euid egid).tree := by
      have hfull := h archive.items.length (Nat.le_refl _)
      rw [List.take_length] at hfull
      exact (dirInvariant_indexTree_iff u archive.items).mpr hfull
    obtain ⟨hattr, hopen⟩ := directory_of_dirInvariant hall hfound hn hne
    exact ⟨hattr, fun env => by rw [hopen env]⟩

/-- A file "a" and an item "a/b": "a" is still a file with "b" below it. -/
theorem file_with_child :
    ¬ ∀ k ≤ 2, DirInvariant
      (indexTree default ([Item.sized [97] false 1, Item.sized [97, 47, 98] false 1].take k)) := by
  intro h
  have hparents := (dirInvariant_indexTree_iff default _).mp (h 2 (by decide))
  have hlast : IsLast [Item.sized [97] false 1, Item.sized [97, 47, 98] false 1]
      (Item.sized [97] false 1).path 0 (Item.sized [97] false 1) := by
    refine ⟨rfl, rfl, ?_⟩
    intro j y hj hy
    match j, hj with
    | 1, _ =>
        obtain rfl := Option.some.inj hy
        decide
  have hdir := hparents 0 _ hlast
    ⟨Item.sized [97, 47, 98] false 1, by decide, by decide, by decide⟩
  exact absurd hdir (by decide)

end Fuse7z
