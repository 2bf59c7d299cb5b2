/-
  Fuse7z.Index

  What the indexing loop builds, without nodes: a map from component lists to
  what an archive says about them.

  The abstract index is the `PathMap` of the items' paths.  An item's path
  holds the item with its number, a directory no item names but some item
  lies in is `implied`, every other path holds nothing.  `indexTree_refines`
  says that the node tree after the loop is that map: the paths the map knows
  are the paths the tree can walk, and the node there is the one the map says.
-/
import Fuse7z.TreeInv
import Fuse7z.Lib7zip
import Fuse7z.Lib.PathMap

namespace Fuse7z

open Lib Fuse7z.Tree

/-! ## The abstract index -/

/-- What a path of the archive stands for. -/
inductive Entry where
  /-- a directory that is there only because items lie in it -/
  | implied
  /-- the item with that number -/
  | item (i : Nat) (x : Item)
deriving DecidableEq, Repr

/-- The components of an item's path, as `Node::insert` sees it. -/
def Item.path (x : Item) : List Bytes := components (narrow x.fullPath)

/-- The paths of the items with what they stand for, in archive order. -/
def entries (items : List Item) : List (List Bytes × Entry) :=
  items.zipIdx.map fun e => (e.1.path, .item e.2 e.1)

/-- The index of an archive. -/
def index (items : List Item) : List Bytes → Option Entry :=
  PathMap.build .implied (entries items)

/-- The node at `a` is what the entry says.  An item's node is one on which
    the assignments of the loop change nothing. -/
def Entry.Agrees (u : Uninit) (a : Addr) (n : Node) : Entry → Prop
  | .implied => Implied u a n
  | .item i x => setItem u i x n = n

/-- The tree below the root is the map `m`. -/
structure Refines (u : Uninit) (t : Tree) (m : List Bytes → Option Entry) : Prop where
  wf : t.WF rootAddr
  dom : ∀ ds : List Bytes, (walk t.child rootAddr ds).isSome ↔ (m ds).isSome
  agree : ∀ {ds : List Bytes} {a : Addr} {n : Node} {e : Entry},
    walk t.child rootAddr ds = some a → t.node? a = some n → m ds = some e → e.Agrees u a n
  closed : ∀ {a : Addr} {n : Node}, t.node? a = some n → n.buffer = none

/-! ## The assignments of the loop -/

theorem setItem_keepsLinks (u : Uninit) (i : Nat) (x : Item) : KeepsLinks (setItem u i x) :=
  fun _ => ⟨rfl, rfl, rfl⟩

/-- The assignments of one turn read nothing they write. -/
theorem setItem_idem (u : Uninit) (i : Nat) (x : Item) (n : Node) :
    setItem u i x (setItem u i x n) = setItem u i x n := rfl

/-- More children do not change what a node stands for. -/
theorem Entry.Agrees.childs {u : Uninit} {a : Addr} {n : Node} {e : Entry} (h : e.Agrees u a n)
    (cs : NodeList) : e.Agrees u a { n with childs := cs } := by
  cases e with
  | implied => exact ⟨h.isDir, h.id_eq, h.stat_eq⟩
  | item i x =>
      have heq : setItem u i x n = n := h
      -- the loop does not look at the children it leaves alone
      show { setItem u i x n with childs := cs } = { n with childs := cs }
      rw [heq]

/-! ## The root alone -/

theorem freshRoot_node? (u : Uninit) (b : Addr) :
    (freshRoot u).node? b =
      if b = rootAddr then some (construct u rootAddr 0 none []) else none := by
  have hnone : (Heap.empty : Heap Node).get? b = none := Heap.get?_eq_none_iff.mpr (Nat.zero_le b)
  rw [← hnone]
  exact Heap.get?_alloc _ _ _

theorem initTree_node? (u : Uninit) (b : Addr) :
    (initTree u).node? b =
      if b = rootAddr then some { construct u rootAddr 0 none [] with isDir := true }
      else none := by
  have hnew : (Tree.empty.newNode u none []).node? b =
      if b = rootAddr then some (construct u rootAddr 0 none []) else none := freshRoot_node? u b
  rw [initTree, node?_modify, hnew]
  by_cases hb : b = rootAddr
  · rw [if_pos hb.symm, if_pos hb, if_pos hb]
    rfl
  · rw [if_neg (Ne.symm hb), if_neg hb, if_neg hb]

theorem initTree_child (u : Uninit) (b : Addr) (k : Bytes) : (initTree u).child b k = none := by
  rw [child, initTree_node?]
  by_cases hb : b = rootAddr
  · rw [if_pos hb]
    rfl
  · rw [if_neg hb]
    rfl

theorem initTree_walk (u : Uninit) (ds : List Bytes) :
    walk (initTree u).child rootAddr ds = if ds = [] then some rootAddr else none := by
  cases ds with
  | nil => rfl
  | cons d ds =>
      rw [walk_cons, initTree_child, if_neg (List.cons_ne_nil d ds)]
      rfl

/-- Before the loop there is the root, a directory without an item. -/
theorem initTree_refines (u : Uninit) : Refines u (initTree u) (PathMap.root .implied) where
  wf :=
    { root_parent := ⟨_, by rw [initTree_node?, if_pos rfl], rfl⟩
      link := by
        intro a c k hk
        rw [initTree_child] at hk
        exact absurd hk (by simp)
      reach := by
        intro a n hn
        rw [initTree_node?] at hn
        split_ifs at hn with ha
        exact ⟨[], by rw [ha]; rfl⟩ }
  dom := by
    intro ds
    rw [initTree_walk, PathMap.root]
    by_cases hds : ds = []
    · simp [hds]
    · simp [hds]
  agree := by
    intro ds a n e hw hn he
    have hds : ds = [] := by
      by_contra hne
      rw [PathMap.root, if_neg hne] at he
      exact absurd he (by simp)
    rw [PathMap.root, if_pos hds] at he
    rw [initTree_walk, if_pos hds] at hw
    obtain rfl := Option.some.inj hw
    obtain rfl := Option.some.inj he
    rw [initTree_node?, if_pos rfl] at hn
    obtain rfl := Option.some.inj hn
    exact Implied.of_construct u _ _ _ _ rfl OrdMap.empty
  closed := by
    intro a n hn
    rw [initTree_node?] at hn
    split_ifs at hn
    obtain rfl := Option.some.inj hn
    rfl

/-! ## One turn of the loop -/

/-- What an insertion leaves at a path other than the new one: the node that
    was there, or an implied directory. -/
theorem Refines.agree_of_inserted {u : Uninit} {t t' : Tree} {m : List Bytes → Option Entry}
    (h : Refines u t m) {cs : List Bytes} {c : Addr} (hins : Inserted u t t' rootAddr [] cs c)
    {ds : List Bytes} {a : Addr} {n : Node} {e v : Entry} (hne : ds ≠ cs)
    (hw : walk t'.child rootAddr ds = some a) (hn : t'.node? a = some n)
    (he : PathMap.put .implied m cs v ds = some e) : e.Agrees u a n := by
  cases hm : m ds with
  | some e₀ =>
      -- a node that was there before, with the same entry
      obtain ⟨b, hb⟩ := Option.isSome_iff_exists.mp ((h.dom ds).mpr (by rw [hm]; rfl))
      obtain ⟨n₀, hn₀⟩ := h.wf.node_of_walk hb
      obtain ⟨ks, hks⟩ := hins.extends_.old hn₀
      obtain rfl : b = a :=
        Option.some.inj ((walk_mono hins.extends_.child_mono hb).symm.trans hw)
      obtain rfl := Option.some.inj (hks.symm.trans hn)
      have he₀ : e₀ = e := by
        rw [PathMap.put, if_neg hne, hm] at he
        split_ifs at he <;> exact Option.some.inj he
      exact he₀ ▸ (h.agree hb hn₀ hm).childs ks
  | none =>
      -- a node this turn made on the way to the item's
      have hnone : walk t.child rootAddr ds = none := by
        have hno : ¬ (walk t.child rootAddr ds).isSome := by
          rw [h.dom, hm]
          simp
        exact Option.not_isSome_iff_eq_none.mp hno
      obtain ⟨n', hn', himp⟩ := hins.implied hnone hne hw
      obtain rfl := Option.some.inj (hn'.symm.trans hn)
      have hein : e = .implied := by
        rw [PathMap.put, if_neg hne, hm] at he
        split_ifs at he
        exact (Option.some.inj he).symm
      exact hein ▸ himp

/-- No node gets a stream from an insertion. -/
theorem Refines.closed_of_inserted {u : Uninit} {t t' : Tree} {m : List Bytes → Option Entry}
    (h : Refines u t m) {cs : List Bytes} {c : Addr} (hins : Inserted u t t' rootAddr [] cs c)
    {a : Addr} {n : Node} (hn : t'.node? a = some n) : n.buffer = none := by
  cases hm : t.node? a with
  | none =>
      obtain ⟨_, _, _, _, _, rfl⟩ := hins.made hm hn
      rfl
  | some n₀ =>
      have hbuf : n₀.buffer = none := h.closed hm
      obtain ⟨ks, hks⟩ := hins.extends_.old hm
      obtain rfl := Option.some.inj (hks.symm.trans hn)
      exact hbuf

/-- One turn of the loop puts the item at its path. -/
theorem indexItem_refines {u : Uninit} {t : Tree} {m : List Bytes → Option Entry}
    (h : Refines u t m) (i : Nat) (x : Item) :
    Refines u (indexItem u rootAddr i x t) (PathMap.put .implied m x.path (.item i x)) := by
  have hins : Inserted u t (t.insert u rootAddr (narrow x.fullPath)).1 rootAddr [] x.path
      (t.insert u rootAddr (narrow x.fullPath)).2 := insert_spec u h.wf (narrow x.fullPath)
  rw [indexItem]
  generalize t.insert u rootAddr (narrow x.fullPath) = r at hins ⊢
  have hchild : (r.1.modify r.2 (setItem u i x)).child = r.1.child :=
    child_modify r.1 r.2 (setItem_keepsLinks u i x)
  refine ⟨hins.wf.modify r.2 (setItem_keepsLinks u i x), ?_, ?_, ?_⟩
  · intro ds
    -- known afterwards: what was known before, and what begins the new path
    rw [hchild, hins.walk_isSome_iff, h.dom]
    by_cases hpre : ds <+: x.path
    · have hput : (PathMap.put .implied m x.path (.item i x) ds).isSome := by
        rw [PathMap.put, if_pos hpre]
        split_ifs <;> rfl
      exact iff_of_true (Or.inr ⟨ds, hpre, rfl⟩) hput
    · rw [PathMap.put_other _ _ _ hpre]
      refine ⟨?_, Or.inl⟩
      rintro (hds | ⟨es, hes, rfl⟩)
      · exact hds
      · exact absurd hes hpre
  · intro ds a n e hw hn he
    rw [hchild] at hw
    by_cases hds : ds = x.path
    · -- the item's own node
      obtain rfl : a = r.2 := Option.some.inj (hw.symm.trans (hds ▸ hins.walk_last))
      obtain ⟨n₀, hn₀⟩ := hins.wf.node_of_walk hw
      rw [node?_modify_self _ hn₀] at hn
      rw [hds, PathMap.put_self] at he
      obtain rfl := Option.some.inj hn
      obtain rfl := Option.some.inj he
      exact setItem_idem u i x n₀
    · have hne : r.2 ≠ a := hins.wf.addr_ne hins.walk_last hw (Ne.symm hds)
      rw [node?_modify_ne _ hne] at hn
      exact h.agree_of_inserted hins hds hw hn he
  · intro a n hn
    rw [node?_modify] at hn
    split_ifs at hn
    · obtain ⟨n', hn', rfl⟩ := Option.map_eq_some_iff.mp hn
      have hbuf : n'.buffer = none := h.closed_of_inserted hins hn'
      exact hbuf
    · exact h.closed_of_inserted hins hn

/-! ## The whole loop -/

theorem indexLoop_append (u : Uninit) (root : Addr) (i : Nat) (xs ys : List Item) (t : Tree) :
    indexLoop u root i (xs ++ ys) t
      = indexLoop u root (i + xs.length) ys (indexLoop u root i xs t) := by
  induction xs generalizing i t with
  | nil => rfl
  | cons x xs ih =>
      have hlen : i + (x :: xs).length = i + 1 + xs.length := by
        rw [List.length_cons]
        omega
      rw [List.cons_append, indexLoop, ih, indexLoop, hlen]

/-- The turn that adds the last item. -/
theorem indexTree_concat (u : Uninit) (items : List Item) (x : Item) :
    indexTree u (items ++ [x]) = indexItem u rootAddr items.length x (indexTree u items) := by
  rw [indexTree, indexLoop_append, Nat.zero_add]
  rfl

theorem entries_concat (items : List Item) (x : Item) :
    entries (items ++ [x]) = entries items ++ [(x.path, .item items.length x)] := by
  rw [entries, List.zipIdx_append, List.map_append, Nat.zero_add]
  rfl

/-- **The tree of an archive is its index.** -/
theorem indexTree_refines (u : Uninit) (items : List Item) :
    Refines u (indexTree u items) (index items) := by
  induction items using List.reverseRecOn with
  | nil => exact initTree_refines u
  | append_singleton items x ih =>
      rw [indexTree_concat, index, entries_concat, PathMap.build_concat]
      exact indexItem_refines ih items.length x

/-! ## The index in terms of the items -/

/-- Item `i`, which is `x`, is the last one whose path is `ds`. -/
structure IsLast (items : List Item) (ds : List Bytes) (i : Nat) (x : Item) : Prop where
  get : items[i]? = some x
  path_eq : x.path = ds
  later : ∀ {j : Nat} {y : Item}, i < j → items[j]? = some y → y.path ≠ ds

theorem IsLast.mem {items : List Item} {ds : List Bytes} {i : Nat} {x : Item}
    (h : IsLast items ds i x) : x ∈ items := List.mem_of_getElem? h.get

theorem IsLast.lt_length {items : List Item} {ds : List Bytes} {i : Nat} {x : Item}
    (h : IsLast items ds i x) : i < items.length := (List.getElem?_eq_some_iff.mp h.get).1

/-- An item of a list that got one more is an old one or the new one. -/
theorem getElem?_concat_cases {items : List Item} {x y : Item} {i : Nat}
    (h : (items ++ [y])[i]? = some x) :
    (i < items.length ∧ items[i]? = some x) ∨ (i = items.length ∧ x = y) := by
  have hlt := (List.getElem?_eq_some_iff.mp h).1
  rw [List.length_append, List.length_singleton] at hlt
  rcases Nat.lt_or_ge i items.length with hi | hi
  · rw [List.getElem?_append_left hi] at h
    exact Or.inl ⟨hi, h⟩
  · obtain rfl : i = items.length := by omega
    exact Or.inr ⟨rfl, Option.some.inj (h.symm.trans List.getElem?_concat_length)⟩

/-- One more item is the last one of its own path, and changes no other. -/
theorem isLast_concat_iff {items : List Item} {y : Item} {ds : List Bytes} {i : Nat} {x : Item} :
    IsLast (items ++ [y]) ds i x ↔
      if y.path = ds then i = items.length ∧ x = y else IsLast items ds i x := by
  have hnew : (items ++ [y])[items.length]? = some y := List.getElem?_concat_length
  by_cases hy : y.path = ds
  · rw [if_pos hy]
    refine ⟨fun h => ?_, ?_⟩
    · rcases getElem?_concat_cases h.get with ⟨hi, -⟩ | hlast
      · exact absurd hy (h.later hi hnew)
      · exact hlast
    · rintro ⟨rfl, rfl⟩
      -- nothing stands behind the last item
      refine ⟨hnew, hy, ?_⟩
      intro j z hj hz
      rcases getElem?_concat_cases hz with ⟨hlt, -⟩ | ⟨heq, -⟩ <;> omega
  · rw [if_neg hy]
    refine ⟨fun h => ?_, fun h => ?_⟩
    · rcases getElem?_concat_cases h.get with ⟨-, hx⟩ | ⟨-, rfl⟩
      · refine ⟨hx, h.path_eq, ?_⟩
        intro j z hj hz
        apply h.later hj
        rw [List.getElem?_append_left (List.getElem?_eq_some_iff.mp hz).1]
        exact hz
      · exact absurd h.path_eq hy
    · refine ⟨?_, h.path_eq, ?_⟩
      · rw [List.getElem?_append_left h.lt_length]
        exact h.get
      · intro j z hj hz
        rcases getElem?_concat_cases hz with ⟨-, hold⟩ | ⟨-, rfl⟩
        · exact h.later hj hold
        · exact hy

theorem lastAt_entries_eq_none {items : List Item} {ds : List Bytes}
    (h : ∀ x ∈ items, x.path ≠ ds) : PathMap.lastAt (entries items) ds = none := by
  induction items using List.reverseRecOn with
  | nil => rfl
  | append_singleton items x ih =>
      rw [entries_concat, PathMap.lastAt_concat, if_neg (h x List.mem_concat_self)]
      exact ih fun y hy => h y (List.mem_append_left _ hy)

theorem lastAt_entries {items : List Item} {ds : List Bytes} {i : Nat} {x : Item}
    (h : IsLast items ds i x) : PathMap.lastAt (entries items) ds = some (.item i x) := by
  induction items using List.reverseRecOn with
  | nil => exact absurd h.get (by simp)
  | append_singleton items y ih =>
      rw [isLast_concat_iff] at h
      rw [entries_concat, PathMap.lastAt_concat]
      split_ifs at h with hy
      · rw [if_pos hy, h.1, h.2]
      · rw [if_neg hy]
        exact ih h

/-- Some item with a path is the last one with it. -/
theorem exists_isLast {items : List Item} {ds : List Bytes} (h : ∃ x ∈ items, x.path = ds) :
    ∃ i x, IsLast items ds i x := by
  induction items using List.reverseRecOn with
  | nil =>
      obtain ⟨x, hx, -⟩ := h
      exact absurd hx List.not_mem_nil
  | append_singleton items y ih =>
      by_cases hy : y.path = ds
      · exact ⟨items.length, y, isLast_concat_iff.mpr (by rw [if_pos hy]; exact ⟨rfl, rfl⟩)⟩
      · obtain ⟨x, hx, hpath⟩ := h
        -- the new item has another path, so one of the old ones has this path
        have hold : x ∈ items := by
          rcases List.mem_append.mp hx with hx | hx
          · exact hx
          · obtain rfl := List.mem_singleton.mp hx
            exact absurd hpath hy
        obtain ⟨i, z, hz⟩ := ih ⟨x, hold, hpath⟩
        exact ⟨i, z, isLast_concat_iff.mpr (by rw [if_neg hy]; exact hz)⟩

theorem mem_entries_path {items : List Item} {e : List Bytes × Entry} (h : e ∈ entries items) :
    ∃ x ∈ items, e.1 = x.path := by
  obtain ⟨⟨x, i⟩, hx, rfl⟩ := List.mem_map.mp h
  exact ⟨x, (List.mem_zipIdx' hx).2 ▸ List.getElem_mem _, rfl⟩

theorem exists_mem_entries {items : List Item} {x : Item} (h : x ∈ items) :
    ∃ e ∈ entries items, e.1 = x.path := by
  obtain ⟨i, hi, rfl⟩ := List.mem_iff_getElem.mp h
  exact ⟨_, List.mem_map_of_mem (List.mk_mem_zipIdx_iff_getElem?.mpr (List.getElem?_eq_getElem hi)),
    rfl⟩

/-- A path holds the last item that has it. -/
theorem index_of_isLast {items : List Item} {ds : List Bytes} {i : Nat} {x : Item}
    (h : IsLast items ds i x) : index items ds = some (.item i x) := by
  rw [index, PathMap.build_eq, lastAt_entries h]

/-- A path no item has is a directory when it is the root's or an item's
    begins with it, and nothing otherwise. -/
theorem index_of_not_item {items : List Item} {ds : List Bytes} (h : ∀ x ∈ items, x.path ≠ ds) :
    index items ds = if ds = [] ∨ ∃ x ∈ items, ds <+: x.path then some .implied else none := by
  have hiff : (∃ e ∈ entries items, ds <+: e.1) ↔ ∃ x ∈ items, ds <+: x.path := by
    refine ⟨?_, ?_⟩
    · rintro ⟨e, he, hpre⟩
      obtain ⟨x, hx, hex⟩ := mem_entries_path he
      exact ⟨x, hx, hex ▸ hpre⟩
    · rintro ⟨x, hx, hpre⟩
      obtain ⟨e, he, hex⟩ := exists_mem_entries hx
      exact ⟨e, he, hex ▸ hpre⟩
  rw [index, PathMap.build_eq, lastAt_entries_eq_none h]
  simp only [hiff]

/-- The item a path holds is the last one with that path. -/
theorem isLast_of_index {items : List Item} {ds : List Bytes} {i : Nat} {x : Item}
    (h : index items ds = some (.item i x)) : IsLast items ds i x := by
  by_cases hitem : ∃ y ∈ items, y.path = ds
  · obtain ⟨j, y, hlast⟩ := exists_isLast hitem
    rw [index_of_isLast hlast] at h
    obtain ⟨rfl, rfl⟩ := Entry.item.inj (Option.some.inj h)
    exact hlast
  · rw [index_of_not_item fun y hy hp => hitem ⟨y, hy, hp⟩] at h
    split_ifs at h
    exact absurd (Option.some.inj h) (by simp)

/-- The index knows the root and what begins an item's path. -/
theorem index_isSome_iff {items : List Item} {ds : List Bytes} :
    (index items ds).isSome ↔ ds = [] ∨ ∃ x ∈ items, ds <+: x.path := by
  by_cases hitem : ∃ x ∈ items, x.path = ds
  · obtain ⟨i, x, hlast⟩ := exists_isLast hitem
    rw [index_of_isLast hlast]
    exact iff_of_true rfl (Or.inr ⟨x, hlast.mem, hlast.path_eq ▸ List.prefix_rfl⟩)
  · rw [index_of_not_item fun x hx hp => hitem ⟨x, hx, hp⟩]
    split_ifs with h
    · exact iff_of_true rfl h
    · exact iff_of_false (by simp) h

end Fuse7z
