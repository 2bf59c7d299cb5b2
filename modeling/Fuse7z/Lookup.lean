/-
  Fuse7z.Lookup

  Looking a path up in the mounted archive.

  `find` walks the tree (`find_eq_walk`) and the tree is the index of the
  archive (`indexTree_refines`), so a path resolves to what the index holds:
  the last item with that path, an implied directory, or nothing.
-/
import Fuse7z.Index
import Fuse7z.Steps

namespace Fuse7z

open Lib Fuse7z.Tree Fuse7zLib7zip

/-! ## getattr -/

/-- What `getattr` reports is about the node the path resolves to. -/
theorem node_of_getattr {fs : Fuse7zLib7zip} {path : Bytes} {st : Stat}
    (h : fuse7zGetattr fs path = .attr st) :
    ∃ a n, lookup fs path = .ok (some a) ∧ fs.node? a = some n ∧ st = attrOf fs n := by
  cases hfound : lookup fs path with
  | error f =>
      simp only [fuse7zGetattr, hfound] at h
      exact absurd h (by simp)
  | ok found =>
      cases found with
      | none =>
          simp only [fuse7zGetattr, hfound] at h
          exact absurd h (by simp)
      | some a =>
          cases hn : fs.node? a with
          | none =>
              simp only [fuse7zGetattr, hfound, hn] at h
              exact absurd h (by simp)
          | some n =>
              simp only [fuse7zGetattr, hfound, hn] at h
              exact ⟨a, n, rfl, hn, (Reply.attr.inj h).symm⟩

theorem fuse7zGetattr_eq {fs : Fuse7zLib7zip} {path : Bytes} {a : Addr} {n : Node}
    (hfound : lookup fs path = .ok (some a)) (hn : fs.node? a = some n) :
    fuse7zGetattr fs path = .attr (attrOf fs n) := by
  simp only [fuse7zGetattr, hfound, hn]

/-! ## Item numbers -/

/-- The number of an item survives the `int` it is stored in. -/
theorem toNat_idOf {i : Nat} (h : i < 2 ^ 32) : (idOf i).toUInt32.toNat = i :=
  UInt32.toNat_ofNat_of_lt' h

/-- An item's node carries the item's number, flag and size. -/
theorem agrees_item {u : Uninit} {a : Addr} {n : Node} {i : Nat} {x : Item}
    (h : (Entry.item i x).Agrees u a n) :
    n.id = idOf i ∧ n.isDir = x.isDir ∧ ∀ s, x.size = some s → n.stat.stSize.toUInt64 = s := by
  have heq : setItem u i x n = n := h
  rw [← heq]
  refine ⟨rfl, rfl, ?_⟩
  intro s hs
  show (x.size.getD (u.size i)).toInt64.toUInt64 = s
  rw [hs, Option.getD_some, UInt64.toUInt64_toInt64]

/-! ## The tree behind a path -/

/-- A component list the index knows leads to a node that is what it says. -/
theorem node_of_index (u : Uninit) {items : List Item} {ds : List Bytes} {e : Entry}
    (h : index items ds = some e) :
    ∃ a n, walk (indexTree u items).child rootAddr ds = some a ∧
      (indexTree u items).node? a = some n ∧ e.Agrees u a n := by
  have href := indexTree_refines u items
  obtain ⟨a, ha⟩ := Option.isSome_iff_exists.mp ((href.dom ds).mpr (by rw [h]; rfl))
  obtain ⟨n, hn⟩ := href.wf.node_of_walk ha
  exact ⟨a, n, ha, hn, href.agree ha hn h⟩

/-- Every node is at some component list, and is what the index has there. -/
theorem entry_of_node (u : Uninit) {items : List Item} {a : Addr} {n : Node}
    (hn : (indexTree u items).node? a = some n) :
    ∃ ds e, walk (indexTree u items).child rootAddr ds = some a ∧ index items ds = some e ∧
      e.Agrees u a n := by
  have href := indexTree_refines u items
  obtain ⟨ds, hds⟩ := href.wf.reach hn
  obtain ⟨e, he⟩ := Option.isSome_iff_exists.mp ((href.dom ds).mp (by rw [hds]; rfl))
  exact ⟨ds, e, hds, he, href.agree hds hn he⟩

/-- A child is there because an item's path goes through it. -/
theorem prefix_of_child {u : Uninit} {items : List Item} {ds : List Bytes} {a c : Addr}
    {name : Bytes} (hw : walk (indexTree u items).child rootAddr ds = some a)
    (hchild : (indexTree u items).child a name = some c) :
    ∃ x ∈ items, ds ++ [name] <+: x.path := by
  have hwalk : walk (indexTree u items).child rootAddr (ds ++ [name]) = some c :=
    walk_concat_eq_some.mpr ⟨a, hw, hchild⟩
  have hsome : (index items (ds ++ [name])).isSome :=
    ((indexTree_refines u items).dom _).mp (by rw [hwalk]; rfl)
  rcases index_isSome_iff.mp hsome with hnil | hex
  · exact absurd hnil (by simp)
  · exact hex

/-- A node has a child of a name just when an item's path goes through it. -/
theorem child_isSome_iff (u : Uninit) {items : List Item} {ds : List Bytes} {a : Addr}
    (hw : walk (indexTree u items).child rootAddr ds = some a) (name : Bytes) :
    ((indexTree u items).child a name).isSome ↔ ∃ x ∈ items, ds ++ [name] <+: x.path := by
  refine ⟨?_, ?_⟩
  · intro hsome
    obtain ⟨c, hc⟩ := Option.isSome_iff_exists.mp hsome
    exact prefix_of_child hw hc
  · intro hex
    have hsome : (walk (indexTree u items).child rootAddr (ds ++ [name])).isSome :=
      ((indexTree_refines u items).dom _).mpr (index_isSome_iff.mpr (Or.inr hex))
    obtain ⟨c, hc⟩ := Option.isSome_iff_exists.mp hsome
    obtain ⟨b, hb, hchild⟩ := walk_concat_eq_some.mp hc
    obtain rfl : a = b := Option.some.inj (hw.symm.trans hb)
    exact Option.isSome_iff_exists.mpr ⟨c, hchild⟩

/-- A component list the index does not know leads nowhere. -/
theorem walk_of_index_none (u : Uninit) {items : List Item} {ds : List Bytes}
    (h : index items ds = none) : walk (indexTree u items).child rootAddr ds = none := by
  have hno : ¬ (walk (indexTree u items).child rootAddr ds).isSome := by
    rw [(indexTree_refines u items).dom, h]
    simp
  exact Option.not_isSome_iff_eq_none.mp hno

/-- A path that `find` can take in and that does not end in '/' is looked up by
    its components. -/
theorem find_eq_walk_components (t : Tree) {q : Bytes} (hq : q ≠ [])
    (hend : q.getLast? ≠ some slash) (hshort : ∀ name ∈ (components q).dropLast, name.length ≤ 254) :
    t.find rootAddr q = .ok (walk t.child rootAddr (components q)) := by
  have hs : Short q := fun name hname => Nat.lt_succ_of_le (hshort name hname)
  rw [find_eq_walk t rootAddr q hs, lookupKeys_of_not_slash hq hend]

/-- Items with the same path as bytes are items with the same components. -/
theorem path_eq_components_iff {x : Item} {q : Bytes} :
    x.path = components q ↔ narrow x.fullPath = q :=
  ⟨fun h => components_inj h, fun h => congrArg components h⟩

section Mounted

variable (u : Uninit) (archive : Archive)

theorem find_of_item {q : Bytes} (hq : q ≠ []) (hend : q.getLast? ≠ some slash)
    (hshort : ∀ name ∈ (components q).dropLast, name.length ≤ 254)
    (hitem : ∃ x ∈ archive.items, narrow x.fullPath = q) :
    ∃ i x a n, archive.items[i]? = some x ∧ narrow x.fullPath = q ∧
      (∀ j y, i < j → archive.items[j]? = some y → narrow y.fullPath ≠ q) ∧
      (indexTree u archive.items).find rootAddr q = .ok (some a) ∧
      (indexTree u archive.items).node? a = some n ∧
      n.id = idOf i ∧ n.extractId.toNat = i ∧ n.isDir = x.isDir ∧
      ∀ s, x.size = some s → n.stat.stSize.toUInt64 = s := by
  obtain ⟨x₀, hx₀, hpath₀⟩ := hitem
  obtain ⟨i, x, hlast⟩ := exists_isLast ⟨x₀, hx₀, path_eq_components_iff.mpr hpath₀⟩
  obtain ⟨a, n, hw, hn, hagree⟩ := node_of_index u (index_of_isLast hlast)
  obtain ⟨hid, hdir, hsize⟩ := agrees_item hagree
  have hbound : i < 2 ^ 32 := by
    have hlen := hlast.lt_length
    have hcount := archive.count_lt
    omega
  refine ⟨i, x, a, n, hlast.get, path_eq_components_iff.mp hlast.path_eq, ?_, ?_, hn, hid, ?_,
    hdir, hsize⟩
  · intro j y hij hy hpath
    exact hlast.later hij hy (path_eq_components_iff.mpr hpath)
  · rw [find_eq_walk_components _ hq hend hshort, hw]
  · rw [Node.extractId, hid]
    exact toNat_idOf hbound

theorem find_of_implied {q : Bytes} (hq : q ≠ []) (hend : q.getLast? ≠ some slash)
    (hshort : ∀ name ∈ (components q).dropLast, name.length ≤ 254)
    (hno : ∀ x ∈ archive.items, narrow x.fullPath ≠ q)
    (hin : ∃ x ∈ archive.items, components q <+: components (narrow x.fullPath)) :
    ∃ a n, (indexTree u archive.items).find rootAddr q = .ok (some a) ∧
      (indexTree u archive.items).node? a = some n ∧ n.isDir = true := by
  -- the index has a directory there that no item names
  have hentry : index archive.items (components q) = some .implied := by
    rw [index_of_not_item fun x hx hp => hno x hx (path_eq_components_iff.mp hp)]
    exact if_pos (Or.inr hin)
  obtain ⟨a, n, hw, hn, hagree⟩ := node_of_index u hentry
  refine ⟨a, n, ?_, hn, Implied.isDir hagree⟩
  rw [find_eq_walk_components _ hq hend hshort, hw]

theorem find_of_nothing {q : Bytes} (hq : q ≠ []) (hend : q.getLast? ≠ some slash)
    (hshort : ∀ name ∈ (components q).dropLast, name.length ≤ 254)
    (hno : ∀ x ∈ archive.items, narrow x.fullPath ≠ q)
    (hout : ¬ ∃ x ∈ archive.items, components q <+: components (narrow x.fullPath)) :
    (indexTree u archive.items).find rootAddr q = .ok none := by
  have hentry : index archive.items (components q) = none := by
    rw [index_of_not_item fun x hx hp => hno x hx (path_eq_components_iff.mp hp)]
    apply if_neg
    rintro (hnil | hin)
    · exact components_ne_nil q hnil
    · exact hout hin
  rw [find_eq_walk_components _ hq hend hshort, walk_of_index_none u hentry]

/-- **What a path finds after the indexing loop**, and what `open` extracts for
    it in any later state. -/
theorem find_after_indexing (euid egid : UInt32) {q : Bytes} (hq : q ≠ [])
    (hend : q.getLast? ≠ some slash)
    (hshort : ∀ name ∈ (components q).dropLast, name.length ≤ 254) :
    -- an item has the path: the last one that does
    ((∃ x ∈ archive.items, narrow x.fullPath = q) →
      ∃ i x a n, archive.items[i]? = some x ∧ narrow x.fullPath = q ∧
        (∀ j y, i < j → archive.items[j]? = some y → narrow y.fullPath ≠ q) ∧
        (indexTree u archive.items).find rootAddr q = .ok (some a) ∧
        (indexTree u archive.items).node? a = some n ∧
        n.id = idOf i ∧ n.extractId.toNat = i ∧ n.isDir = x.isDir ∧
        ∀ s, x.size = some s → n.stat.stSize.toUInt64 = s) ∧
    -- no item has it, so the items it is a prefix of lie below it: a directory
    ((∀ x ∈ archive.items, narrow x.fullPath ≠ q) →
      (∃ x ∈ archive.items, components q <+: components (narrow x.fullPath)) →
      ∃ a n, (indexTree u archive.items).find rootAddr q = .ok (some a) ∧
        (indexTree u archive.items).node? a = some n ∧ n.isDir = true) ∧
    -- otherwise nothing
    ((∀ x ∈ archive.items, narrow x.fullPath ≠ q) →
      (¬ ∃ x ∈ archive.items, components q <+: components (narrow x.fullPath)) →
      (indexTree u archive.items).find rootAddr q = .ok none) ∧
    -- what `open` extracts, whatever callbacks came before
    (∀ (es : List Callback) (env : OpenEnv) (a : Addr) (n : Node),
      lookup (run step (mount u archive euid egid) es) (slash :: q) = .ok (some a) →
      (run step (mount u archive euid egid) es).node? a = some n → n.isDir = false →
      fuse7zOpen (run step (mount u archive euid egid) es) (slash :: q) env
        = (openReply a ((run step (mount u archive euid egid) es).openNode a n env).1,
          ((run step (mount u archive euid egid) es).openNode a n env).2) ∧
      (run step (mount u archive euid egid) es).archive = archive ∧
      n.extractId.toNat < archive.items.length ∧
      -- the handler is asked for that very item
      (run step (mount u archive euid egid) es).archive.extract env.codec n.extractId
        = env.codec n.extractId ∧
      ∃ x, archive.items[n.extractId.toNat]? = some x ∧ narrow x.fullPath = q) := by
  refine ⟨find_of_item u archive hq hend hshort, find_of_implied u archive hq hend hshort,
    find_of_nothing u archive hq hend hshort, ?_⟩
  intro es env a n hfound hn hfile
  -- the run moved no node and renumbered none, so look at the mounted tree
  have hframe := run_frame (mount u archive euid egid) es
  rw [hframe.lookup_eq] at hfound
  obtain ⟨n₀, hn₀, hfixed⟩ := hframe.node hn
  have hdir₀ : n₀.isDir = false := (fixedPart_isDir hfixed).symm.trans hfile
  have hid : n.extractId = n₀.extractId := congrArg Int32.toUInt32 (fixedPart_id hfixed)
  have harchive : (run step (mount u archive euid egid) es).archive = archive := hframe.archive
  refine ⟨fuse7zOpen_eq ((hframe.lookup_eq _).trans hfound) hn hfile env, harchive, ?_⟩
  by_cases hitem : ∃ x ∈ archive.items, narrow x.fullPath = q
  · obtain ⟨i, x, b, m, hget, hpath, -, hfind, hm, -, hext, -, -⟩ :=
      find_of_item u archive hq hend hshort hitem
    obtain rfl : b = a := Option.some.inj (Except.ok.inj (hfind.symm.trans hfound))
    obtain rfl : m = n₀ := Option.some.inj (hm.symm.trans hn₀)
    have hbound : i < archive.items.length := (List.getElem?_eq_some_iff.mp hget).1
    rw [harchive, Archive.extract, hid, hext, if_pos hbound]
    exact ⟨hbound, rfl, x, hget, hpath⟩
  · -- a path without an item of its own is a directory, or not there
    have hno : ∀ x ∈ archive.items, narrow x.fullPath ≠ q := fun x hx hp => hitem ⟨x, hx, hp⟩
    by_cases hin : ∃ x ∈ archive.items, components q <+: components (narrow x.fullPath)
    · obtain ⟨b, m, hfind, hm, hdir⟩ := find_of_implied u archive hq hend hshort hno hin
      obtain rfl : b = a := Option.some.inj (Except.ok.inj (hfind.symm.trans hfound))
      obtain rfl : m = n₀ := Option.some.inj (hm.symm.trans hn₀)
      exact absurd (hdir.symm.trans hdir₀) (by simp)
    · have hnone := find_of_nothing u archive hq hend hshort hno hin
      exact absurd (hnone.symm.trans hfound) (by simp)

end Mounted

/-- With the one item "a/b", the path "a" is a directory. -/
theorem find_after_indexing_parent :
    ∃ a n, (indexTree default [Item.sized [97, 47, 98] false 3]).find rootAddr [97] = .ok (some a) ∧
      (indexTree default [Item.sized [97, 47, 98] false 3]).node? a = some n ∧ n.isDir = true :=
  (find_after_indexing default ⟨[Item.sized [97, 47, 98] false 3], by decide⟩ 0 0
    (by decide : ([97] : Bytes) ≠ []) (by decide) (by decide)).2.1 (by decide) (by decide)

end Fuse7z
