/-
  Fuse7z.Placement

  Where the items of an archive end up.

  The constructor copies a wide path character by character into bytes before
  `insert` cuts it at '/'.  An item keeps a node of its own, as deep as its
  wide path says and within reach of `find`, just when the copy leaves the
  path different from every other one, with the same number of components,
  and with directory names that fit `pouet` (`none_lost_iff`).
-/
import Fuse7z.Lookup

namespace Fuse7z

open Lib Fuse7z.Tree Fuse7zLib7zip

/-! ## Being found -/

/-- A path behind which a '/' is added has one more, empty component. -/
theorem components_slash (p : Bytes) : components (p ++ [slash]) = components p ++ [[]] :=
  components_join p []

/-- The node of a path is within reach of `find` just when the names of the
    directories on the way fit `pouet`. -/
theorem exists_find_iff {t : Tree} (hwf : t.WF rootAddr) {p : Bytes} {a : Addr}
    (hw : walk t.child rootAddr (components p) = some a) :
    (∃ q, t.find rootAddr q = .ok (some a)) ↔
      ∀ name ∈ (components p).dropLast, name.length ≤ 254 := by
  refine ⟨?_, ?_⟩
  · rintro ⟨q, hq⟩
    have hs : Short q := short_of_find hq
    -- whatever was looked up, in a tree it came down the node's own path
    have hkeys : lookupKeys q = components p :=
      hwf.arborescence.walk_inj (walk_of_find hq) hw
    intro name hname
    rw [← hkeys, lookupKeys] at hname
    have hmem : name ∈ (components q).dropLast := by
      split_ifs at hname
      · exact (List.dropLast_sublist _).subset hname
      · exact hname
    exact Nat.le_of_lt_succ (hs name hmem)
  · intro hshort
    have hs : Short p := fun name hname => Nat.lt_succ_of_le (hshort name hname)
    by_cases hlast : (components p).getLast (components_ne_nil p) = []
    · -- the empty last component needs one more '/' behind it
      refine ⟨p ++ [slash], ?_⟩
      have hs' : Short (p ++ [slash]) := by
        intro name hname
        rw [components_slash, List.dropLast_concat] at hname
        rw [← List.dropLast_append_getLast (components_ne_nil p), hlast] at hname
        rcases List.mem_append.mp hname with hname | hname
        · exact hs name hname
        · rw [List.mem_singleton.mp hname]
          exact Nat.zero_lt_succ _
      have hkeys : lookupKeys (p ++ [slash]) = components p := by
        have hend : (components (p ++ [slash])).getLast (components_ne_nil _) = [] := by
          simp only [components_slash]
          exact List.getLast_concat
        rw [lookupKeys, if_pos hend, components_slash, List.dropLast_concat]
      rw [find_eq_walk t rootAddr _ hs', hkeys, hw]
    · refine ⟨p, ?_⟩
      rw [find_eq_walk t rootAddr _ hs, lookupKeys, if_neg hlast, hw]

/-! ## The number of an item, read off its node -/

theorem idOf_inj {i j : Nat} (hi : i < 2 ^ 32) (hj : j < 2 ^ 32) (h : idOf i = idOf j) : i = j := by
  rw [← toNat_idOf hi, h, toNat_idOf hj]

/-- An item number is never the `int` -1, as there are fewer than 2^32 - 1. -/
theorem idOf_ne_neg_one {i : Nat} (h : i < 2 ^ 32 - 1) : idOf i ≠ -1 := by
  intro heq
  have hnat : (idOf i).toUInt32.toNat = (-1 : Int32).toUInt32.toNat := by rw [heq]
  have hneg : (-1 : Int32).toUInt32.toNat = 2 ^ 32 - 1 := by decide
  rw [toNat_idOf (by omega), hneg] at hnat
  omega

/-! ## No item lost, none merged -/

/-- A wide path cut at every `L'/'`. -/
def wcomponents (wpath : List WChar) : List (List WChar) := wpath.splitOn wslash

/-- The node at `a` has the number `i`, `find` reaches it, and it lies `depth`
    steps below the root. -/
structure Placed (t : Tree) (i depth : Nat) (a : Addr) : Prop where
  found : ∃ q, t.find rootAddr q = .ok (some a)
  id_eq : ∃ n, t.node? a = some n ∧ n.id = idOf i
  depth_eq : ∃ ds, walk t.child rootAddr ds = some a ∧ ds.length = depth

/-- Every item has a node of its own, as deep as its wide path. -/
def NoneLost (u : Uninit) (items : List Item) : Prop :=
  ∃ place : Nat → Addr,
    (∀ i x, items[i]? = some x →
      Placed (indexTree u items) i (wcomponents x.fullPath).length (place i)) ∧
    ∀ i j, i < items.length → j < items.length → place i = place j → i = j

/-- What the narrow paths have to be for that. -/
structure KeepsApart (items : List Item) : Prop where
  distinct : (items.map fun x => narrow x.fullPath).Nodup
  depth : ∀ x ∈ items,
    (components (narrow x.fullPath)).length = (wcomponents x.fullPath).length
  short : ∀ x ∈ items, ∀ name ∈ (components (narrow x.fullPath)).dropLast, name.length ≤ 254

theorem KeepsApart.isLast {items : List Item} (h : KeepsApart items) {i : Nat} {x : Item}
    (hx : items[i]? = some x) : IsLast items x.path i x := by
  refine ⟨hx, rfl, ?_⟩
  intro j y hij hy hpath
  have hpair := List.pairwise_map.mp h.distinct
  obtain ⟨hi, hxi⟩ := List.getElem?_eq_some_iff.mp hx
  obtain ⟨hj, hyj⟩ := List.getElem?_eq_some_iff.mp hy
  have hne := List.pairwise_iff_getElem.mp hpair i j hi hj hij
  rw [hxi, hyj] at hne
  exact hne (components_inj hpath).symm

theorem noneLost_of_keepsApart (u : Uninit) {items : List Item} (hcount : items.length < 2 ^ 32)
    (h : KeepsApart items) : NoneLost u items := by
  have hwf := (indexTree_refines u items).wf
  have hplaced : ∀ i, ∃ a, ∀ x, items[i]? = some x →
      Placed (indexTree u items) i (wcomponents x.fullPath).length a := by
    intro i
    cases hx : items[i]? with
    | none => exact ⟨rootAddr, fun x hx' => absurd hx' (by simp)⟩
    | some x =>
        obtain ⟨a, n, hw, hn, hagree⟩ := node_of_index u (index_of_isLast (h.isLast hx))
        have hmem : x ∈ items := List.mem_of_getElem? hx
        refine ⟨a, ?_⟩
        rintro x' hx'
        obtain rfl := Option.some.inj hx'
        exact ⟨(exists_find_iff hwf hw).mpr (h.short x hmem), ⟨n, hn, (agrees_item hagree).1⟩,
          ⟨x.path, hw, h.depth x hmem⟩⟩
  choose place hplace using hplaced
  refine ⟨place, hplace, ?_⟩
  intro i j hi hj heq
  -- two items with one node would share its number
  obtain ⟨n, hn, hid⟩ := (hplace i _ (List.getElem?_eq_getElem hi)).id_eq
  obtain ⟨m, hm, hjd⟩ := (hplace j _ (List.getElem?_eq_getElem hj)).id_eq
  rw [heq] at hn
  obtain rfl := Option.some.inj (hn.symm.trans hm)
  exact idOf_inj (by omega) (by omega) (hid.symm.trans hjd)

/-- With memory that does not happen to hold an item number, a node that has
    the number of an item is the item's. -/
theorem isLast_of_placed {u : Uninit} (hu : ∀ a, u.id a = -1) {items : List Item}
    (hcount : items.length < 2 ^ 32) {i depth : Nat} {x : Item} (hx : items[i]? = some x) {a : Addr}
    (h : Placed (indexTree u items) i depth a) :
    IsLast items x.path i x ∧ walk (indexTree u items).child rootAddr x.path = some a := by
  obtain ⟨n, hn, hid⟩ := h.id_eq
  obtain ⟨ds, e, hds, he, hagree⟩ := entry_of_node u hn
  have hi : i < items.length := (List.getElem?_eq_some_iff.mp hx).1
  cases e with
  | implied =>
      -- a node no item was stored at still has what memory held
      have hneg : n.id = -1 := (Implied.id_eq hagree).trans (hu a)
      exact absurd (hid.symm.trans hneg) (idOf_ne_neg_one (by omega))
  | item j y =>
      have hlast : IsLast items ds j y := isLast_of_index he
      have hj : j < items.length := hlast.lt_length
      obtain rfl : i = j :=
        idOf_inj (by omega) (by omega) (hid.symm.trans (agrees_item hagree).1)
      obtain rfl : x = y := Option.some.inj (hx.symm.trans hlast.get)
      rw [hlast.path_eq]
      exact ⟨hlast, hds⟩

theorem keepsApart_of_noneLost {u : Uninit} (hu : ∀ a, u.id a = -1) {items : List Item}
    (hcount : items.length < 2 ^ 32) (h : NoneLost u items) : KeepsApart items := by
  have hwf := (indexTree_refines u items).wf
  obtain ⟨place, hplace, -⟩ := h
  have hall : ∀ x ∈ items, ∃ i a, items[i]? = some x ∧
      Placed (indexTree u items) i (wcomponents x.fullPath).length a ∧
      walk (indexTree u items).child rootAddr x.path = some a := by
    intro x hx
    obtain ⟨i, hi⟩ := List.mem_iff_getElem?.mp hx
    have hp := hplace i x hi
    exact ⟨i, place i, hi, hp, (isLast_of_placed hu hcount hi hp).2⟩
  refine ⟨?_, ?_, ?_⟩
  · rw [List.Nodup, List.pairwise_map, List.pairwise_iff_getElem]
    intro i j hi hj hij heq
    have hx := List.getElem?_eq_getElem hi
    -- an item a later one shares its path with has lost its node
    have hlast := (isLast_of_placed hu hcount hx (hplace i _ hx)).1
    exact hlast.later hij (List.getElem?_eq_getElem hj) (congrArg components heq.symm)
  · intro x hx
    obtain ⟨i, a, -, hp, hw⟩ := hall x hx
    obtain ⟨ds, hds, hlen⟩ := hp.depth_eq
    -- the node is at one depth only, that of the narrow path
    have hpath : x.path = ds := hwf.arborescence.walk_inj hw hds
    rw [← hlen, ← hpath]
    rfl
  · intro x hx
    obtain ⟨i, a, -, hp, hw⟩ := hall x hx
    exact (exists_find_iff hwf hw).mp hp.found

/-- **When no item is lost or merged**, whatever the memory held. -/
theorem none_lost_iff (archive : Archive) :
    (∀ u, NoneLost u archive.items) ↔ KeepsApart archive.items := by
  refine ⟨?_, ?_⟩
  · intro h
    exact keepsApart_of_noneLost (u := { (default : Uninit) with id := fun _ => -1 })
      (fun _ => rfl) archive.count_lt (h _)
  · intro h u
    exact noneLost_of_keepsApart u archive.count_lt h

/-- The items U+0041 and U+0141 differ as wide paths and share their bytes. -/
theorem a_and_stroked_l_merged :
    ([Item.sized [0x41] false 1, Item.sized [0x141] false 2].map Item.fullPath).Nodup ∧
    (∀ x ∈ [Item.sized [0x41] false 1, Item.sized [0x141] false 2],
      0 ∉ x.fullPath ∧ ∀ name ∈ wcomponents x.fullPath, name ≠ []) ∧
    ¬ ∀ u, NoneLost u [Item.sized [0x41] false 1, Item.sized [0x141] false 2] := by
  refine ⟨by decide, by decide, ?_⟩
  intro h
  have happart := keepsApart_of_noneLost (u := { (default : Uninit) with id := fun _ => -1 })
    (fun _ => rfl) (by decide) (h _)
  exact absurd happart.distinct (by decide)

end Fuse7z
