/-
  Fuse7z.TreeInv

  The shape of the node tree, and what `insert` does to it.

  `WF` is the shape: the root has no parent, an entry of a children map leads
  to a node that knows its parent and its key, and every node is reached from
  the root.  It makes the children maps a tree (`WF.arborescence`), so a list
  of components stands for a node.

  `Inserted` says everything a run of `insertPath` does; its one step,
  `enter_spec`, is the only place that looks at how a node is made and linked.
-/
import Fuse7z.Node

namespace Fuse7z
namespace Tree

open Lib

/-! ## The invariant -/

structure WF (t : Tree) (root : Addr) : Prop where
  root_parent : ∃ n, t.node? root = some n ∧ n.parent = none
  link : ∀ {a c : Addr} {k : Bytes}, t.child a k = some c →
    ∃ n, t.node? c = some n ∧ n.parent = some a ∧ n.sname = k
  reach : ∀ {a : Addr} {n : Node}, t.node? a = some n → ∃ ks, walk t.child root ks = some a

/-- Parent and name of a child tell where it hangs, so it hangs nowhere else. -/
theorem WF.arborescence {t : Tree} {root : Addr} (h : t.WF root) :
    Arborescence t.child root where
  child_inj := by
    intro a b c k l hk hl
    obtain ⟨n, hn, hpa, hka⟩ := h.link hk
    obtain ⟨m, hm, hpb, hlb⟩ := h.link hl
    obtain rfl : n = m := Option.some.inj (hn.symm.trans hm)
    exact ⟨Option.some.inj (hpa.symm.trans hpb), hka.symm.trans hlb⟩
  root_not_child := by
    intro a k hk
    obtain ⟨n, hn, hpa, -⟩ := h.link hk
    obtain ⟨m, hm, hnone⟩ := h.root_parent
    obtain rfl : n = m := Option.some.inj (hn.symm.trans hm)
    exact absurd (hpa.symm.trans hnone) (by simp)

/-- A walk that is not empty ends at a node that bears the last label, one edge
    below its parent. -/
theorem WF.last_of_walk {t : Tree} {root a : Addr} (h : t.WF root) {ks : List Bytes} {k : Bytes}
    (hw : walk t.child root (ks ++ [k]) = some a) :
    ∃ p n, walk t.child root ks = some p ∧ t.child p k = some a ∧
      t.node? a = some n ∧ n.parent = some p ∧ n.sname = k := by
  obtain ⟨p, hp, hk⟩ := walk_concat_eq_some.mp hw
  obtain ⟨n, hn, hparent, hname⟩ := h.link hk
  exact ⟨p, n, hp, hk, hn, hparent, hname⟩

/-- A walk ends at a node. -/
theorem WF.node_of_walk {t : Tree} {root a : Addr} (h : t.WF root) {ks : List Bytes}
    (hw : walk t.child root ks = some a) : ∃ n, t.node? a = some n := by
  rcases List.eq_nil_or_concat' ks with rfl | ⟨ks', k, rfl⟩
  · obtain ⟨n, hn, -⟩ := h.root_parent
    obtain rfl := Option.some.inj hw
    exact ⟨n, hn⟩
  · obtain ⟨-, n, -, -, hn, -⟩ := h.last_of_walk hw
    exact ⟨n, hn⟩

/-- There are more nodes than names on the way to one of them. -/
theorem WF.length_lt_size {t : Tree} {root a : Addr} (h : t.WF root) {ks : List Bytes}
    (hw : walk t.child root ks = some a) : ks.length < t.nodes.size := by
  have hlt : ks.length < (List.range t.nodes.size).length := by
    apply h.arborescence.length_lt hw
    intro ls b hl
    obtain ⟨n, hn⟩ := h.node_of_walk hl
    exact List.mem_range.mpr (Heap.lt_size_of_get? hn)
  rw [List.length_range] at hlt
  exact hlt

/-- Nodes with different component lists are different nodes. -/
theorem WF.addr_ne {t : Tree} {root a b : Addr} (h : t.WF root) {ks ls : List Bytes}
    (hk : walk t.child root ks = some a) (hl : walk t.child root ls = some b) (hne : ks ≠ ls) :
    a ≠ b := by
  rintro rfl
  exact hne (h.arborescence.walk_inj hk hl)

theorem child_eq_some {t : Tree} {a c : Addr} {k : Bytes} :
    t.child a k = some c ↔ ∃ n, t.node? a = some n ∧ n.childs.find? k = some c :=
  Option.bind_eq_some_iff

/-! ## Changes that keep the shape -/

/-- The change leaves children, parent and name of a node alone. -/
def KeepsLinks (f : Node → Node) : Prop :=
  ∀ n, (f n).childs = n.childs ∧ (f n).parent = n.parent ∧ (f n).sname = n.sname

theorem node?_modify (t : Tree) (a b : Addr) (f : Node → Node) :
    (t.modify a f).node? b = if a = b then (t.node? b).map f else t.node? b :=
  Heap.get?_modify t.nodes a b f

theorem node?_modify_self {t : Tree} {a : Addr} {n : Node} (f : Node → Node)
    (hn : t.node? a = some n) : (t.modify a f).node? a = some (f n) := by
  have hself : (t.modify a f).node? a = (t.node? a).map f := Heap.get?_modify_self t.nodes a f
  rw [hself, hn, Option.map_some]

theorem node?_modify_ne {t : Tree} {a b : Addr} (f : Node → Node) (hab : a ≠ b) :
    (t.modify a f).node? b = t.node? b :=
  Heap.get?_modify_ne t.nodes f hab

theorem child_modify (t : Tree) (a : Addr) {f : Node → Node} (hf : KeepsLinks f) :
    (t.modify a f).child = t.child := by
  funext b k
  rw [child, child, node?_modify]
  by_cases hab : a = b
  · rw [if_pos hab]
    cases t.node? b with
    | none => rfl
    | some n =>
        rw [Option.map_some, Option.bind_some, Option.bind_some, (hf n).1]
  · rw [if_neg hab]

/-- A node after a change of one node: what it was, or the change of that. -/
theorem exists_node?_modify {t : Tree} {a b : Addr} {n : Node} (f : Node → Node)
    (hn : t.node? b = some n) :
    ∃ m, (t.modify a f).node? b = some m ∧ (m = n ∨ m = f n) := by
  rw [node?_modify]
  by_cases hab : a = b
  · rw [if_pos hab, hn]
    exact ⟨f n, rfl, Or.inr rfl⟩
  · rw [if_neg hab]
    exact ⟨n, hn, Or.inl rfl⟩

theorem WF.modify {t : Tree} {root : Addr} (h : t.WF root) (a : Addr) {f : Node → Node}
    (hf : KeepsLinks f) : (t.modify a f).WF root where
  root_parent := by
    obtain ⟨n, hn, hp⟩ := h.root_parent
    obtain ⟨m, hm, rfl | rfl⟩ := exists_node?_modify (a := a) f hn
    · exact ⟨m, hm, hp⟩
    · exact ⟨f n, hm, (hf n).2.1.trans hp⟩
  link := by
    intro b c k hk
    rw [child_modify t a hf] at hk
    obtain ⟨n, hn, hp, hs⟩ := h.link hk
    obtain ⟨m, hm, rfl | rfl⟩ := exists_node?_modify (a := a) f hn
    · exact ⟨m, hm, hp, hs⟩
    · exact ⟨f n, hm, (hf n).2.1.trans hp, (hf n).2.2.trans hs⟩
  reach := by
    intro b n hn
    rw [child_modify t a hf]
    rw [node?_modify] at hn
    split_ifs at hn with hab
    · obtain ⟨m, hm, -⟩ := Option.map_eq_some_iff.mp hn
      exact h.reach hm
    · exact h.reach hn

/-! ## One new child -/

/-- The nodes after `newChild`: the new one, its parent with one more entry,
    and the others as they were. -/
theorem node?_newChild (u : Uninit) (t : Tree) {this : Addr} (name : Bytes) (dir : Bool)
    (hthis : this < t.nodes.size) (b : Addr) :
    (t.newChild u this name dir).1.node? b =
      if b = t.nodes.size then
        some { construct u t.nodes.size t.maxInode (some this) name with isDir := dir }
      else if this = b then
        (t.node? b).map fun n => { n with childs := n.childs.insert name t.nodes.size }
      else t.node? b := by
  have hne : this ≠ t.nodes.size := Nat.ne_of_lt hthis
  have halloc : (newNode u t (some this) name).node? b =
      if b = t.nodes.size then some (construct u t.nodes.size t.maxInode (some this) name)
      else t.node? b := Heap.get?_alloc _ _ _
  cases dir with
  | false =>
      rw [newChild, if_neg Bool.false_ne_true, node?_modify, halloc]
      by_cases hb : b = t.nodes.size
      · have hthis' : ¬ this = b := fun e => hne (e.trans hb)
        rw [if_neg hthis', if_pos hb, if_pos hb]
        rfl
      · rw [if_neg hb, if_neg hb]
  | true =>
      rw [newChild, if_pos rfl, node?_modify, node?_modify, halloc]
      by_cases hb : b = t.nodes.size
      · have hthis' : ¬ this = b := fun e => hne (e.trans hb)
        rw [if_pos hb.symm, if_neg hthis', if_pos hb, if_pos hb]
        rfl
      · rw [if_neg (Ne.symm hb), if_neg hb, if_neg hb]

/-- `newChild` adds one edge. -/
theorem WF.addsEdge {t : Tree} {root this : Addr} (h : t.WF root) (u : Uninit) {name : Bytes}
    (dir : Bool) {n : Node} (hn : t.node? this = some n) (hnone : t.child this name = none) :
    AddsEdge t.child (t.newChild u this name dir).1.child root this name t.nodes.size where
  edge_iff := by
    have hlt : this < t.nodes.size := Heap.lt_size_of_get? hn
    intro b j x
    rw [child_eq_some, child_eq_some, node?_newChild u t name dir hlt]
    by_cases hb : b = t.nodes.size
    · -- the new node has no children, and there was no node before
      have hfree : t.node? b = none := Heap.get?_eq_none_iff.mpr (Nat.le_of_eq hb.symm)
      have hbthis : b ≠ this := fun e => Nat.ne_of_lt hlt (e.symm.trans hb)
      rw [if_pos hb, hfree]
      refine ⟨?_, ?_⟩
      · rintro ⟨m, hm, hfind⟩
        obtain rfl := Option.some.inj hm
        exact absurd hfind (by simp [construct])
      · rintro (⟨m, hm, -⟩ | ⟨hbt, -, -⟩)
        · exact absurd hm (by simp)
        · exact absurd hbt hbthis
    · rw [if_neg hb]
      by_cases hbt : this = b
      · subst hbt
        -- in the parent: the new child besides the old ones
        have hfree : n.childs.find? name = none := by
          rw [child, hn] at hnone
          exact hnone
        rw [if_pos rfl, hn]
        simp only [Option.map_some, Option.some.injEq, exists_eq_left', true_and]
        exact OrdMap.find?_insert_new hfree
      · rw [if_neg hbt]
        refine ⟨?_, ?_⟩
        · exact Or.inl
        · rintro (hm | ⟨hb', -, -⟩)
          · exact hm
          · exact absurd hb'.symm hbt
  no_out := by
    intro j x hx
    obtain ⟨m, hm, -⟩ := child_eq_some.mp hx
    exact Nat.lt_irrefl _ (Heap.lt_size_of_get? hm)
  no_in := by
    intro b j hx
    obtain ⟨m, hm, -, -⟩ := h.link hx
    exact Nat.lt_irrefl _ (Heap.lt_size_of_get? hm)
  ne_root := by
    obtain ⟨m, hm, -⟩ := h.root_parent
    exact Nat.ne_of_gt (Heap.lt_size_of_get? hm)
  ne_parent := Nat.ne_of_lt (Heap.lt_size_of_get? hn)

theorem WF.newChild {t : Tree} {root this : Addr} (h : t.WF root) (u : Uninit) {name : Bytes}
    (dir : Bool) {pre : List Bytes} (hpre : walk t.child root pre = some this)
    (hnone : t.child this name = none) : (t.newChild u this name dir).1.WF root := by
  obtain ⟨n, hn⟩ := h.node_of_walk hpre
  have hlt : this < t.nodes.size := Heap.lt_size_of_get? hn
  have hedge := h.addsEdge u dir hn hnone
  -- the nodes that were there keep their parent and their name
  have hold : ∀ {b : Addr} {m : Node}, t.node? b = some m →
      ∃ m', (t.newChild u this name dir).1.node? b = some m' ∧
        m'.parent = m.parent ∧ m'.sname = m.sname := by
    intro b m hm
    rw [node?_newChild u t name dir hlt, if_neg (Nat.ne_of_lt (Heap.lt_size_of_get? hm)), hm]
    by_cases hb : this = b
    · rw [if_pos hb]
      exact ⟨_, rfl, rfl, rfl⟩
    · rw [if_neg hb]
      exact ⟨m, rfl, rfl, rfl⟩
  refine ⟨?_, ?_, ?_⟩
  · obtain ⟨m, hm, hp⟩ := h.root_parent
    obtain ⟨m', hm', hp', -⟩ := hold hm
    exact ⟨m', hm', hp'.trans hp⟩
  · intro b c k hk
    rcases hedge.edge_iff.mp hk with hk | ⟨rfl, rfl, rfl⟩
    · obtain ⟨m, hm, hp, hs⟩ := h.link hk
      obtain ⟨m', hm', hp', hs'⟩ := hold hm
      exact ⟨m', hm', hp'.trans hp, hs'.trans hs⟩
    · rw [node?_newChild u t k dir hlt, if_pos rfl]
      exact ⟨_, rfl, rfl, rfl⟩
  · intro b m hm
    rw [node?_newChild u t name dir hlt] at hm
    by_cases hb : b = t.nodes.size
    -- the new node is reached through its edge
    · exact ⟨pre ++ [name], (hedge.walk_iff h.arborescence hpre).mpr (Or.inr ⟨rfl, hb⟩)⟩
    · have hex : ∃ m', t.node? b = some m' := by
        rw [if_neg hb] at hm
        split_ifs at hm with hbt
        · obtain ⟨m', hm', -⟩ := Option.map_eq_some_iff.mp hm
          exact ⟨m', hm'⟩
        · exact ⟨m, hm⟩
      obtain ⟨m', hm'⟩ := hex
      obtain ⟨ks, hks⟩ := h.reach hm'
      exact ⟨ks, (hedge.walk_iff h.arborescence hpre).mpr (Or.inl hks)⟩

/-! ## What an insertion does -/

/-- Insertion changes no node but by giving it more children. -/
structure Extends (t t' : Tree) : Prop where
  old : ∀ {a : Addr} {n : Node}, t.node? a = some n →
    ∃ cs, t'.node? a = some { n with childs := cs }
  child_mono : ∀ a k c, t.child a k = some c → t'.child a k = some c

theorem Extends.refl (t : Tree) : Extends t t where
  old {_ n} hn := ⟨n.childs, hn⟩
  child_mono _ _ _ h := h

theorem Extends.trans {t₁ t₂ t₃ : Tree} (h₁₂ : Extends t₁ t₂) (h₂₃ : Extends t₂ t₃) :
    Extends t₁ t₃ where
  old := by
    intro a n hn
    obtain ⟨cs, hcs⟩ := h₁₂.old hn
    obtain ⟨cs', hcs'⟩ := h₂₃.old hcs
    exact ⟨cs', hcs'⟩
  child_mono a k c h := h₂₃.child_mono a k c (h₁₂.child_mono a k c h)

/-- The node at `a` is as the branch for a subdirectory makes it, but for its
    children: `is_dir` is set, `id` and most of `stat` are not. -/
structure Implied (u : Uninit) (a : Addr) (n : Node) : Prop where
  isDir : n.isDir = true
  id_eq : n.id = u.id a
  stat_eq : ∃ ino, n.stat = { u.stat a with stIno := ino }

theorem Implied.of_construct (u : Uninit) (a : Addr) (maxInode : Int32) (parent : Option Addr)
    (name : Bytes) {dir : Bool} (hdir : dir = true) (cs : NodeList) :
    Implied u a { construct u a maxInode parent name with isDir := dir, childs := cs } :=
  ⟨hdir, rfl, inoOf maxInode, rfl⟩

/-- The node at `a` is as the constructor makes it, but for its flag and its
    children. -/
def Made (u : Uninit) (a : Addr) (n : Node) : Prop :=
  ∃ maxInode parent name dir cs,
    n = { construct u a maxInode parent name with isDir := dir, childs := cs }

/-- What an insertion of `cs` below the node at `pre` leaves, `c` being the
    node it returns. -/
structure Inserted (u : Uninit) (t t' : Tree) (root : Addr) (pre cs : List Bytes) (c : Addr) :
    Prop where
  wf : t'.WF root
  extends_ : Extends t t'
  walk_last : walk t'.child root (pre ++ cs) = some c
  walk_isSome_iff : ∀ {ds : List Bytes}, (walk t'.child root ds).isSome ↔
    (walk t.child root ds).isSome ∨ ∃ es, es <+: cs ∧ ds = pre ++ es
  implied : ∀ {ds : List Bytes} {b : Addr}, walk t.child root ds = none → ds ≠ pre ++ cs →
    walk t'.child root ds = some b → ∃ n, t'.node? b = some n ∧ Implied u b n
  made : ∀ {b : Addr} {n : Node}, t.node? b = none → t'.node? b = some n → Made u b n

/-- What entering `name` leaves, from the node `this` at `pre` to its child `c`:
    the child is there, and when it was not, it is a new node with the flag the
    branch gives it. -/
structure Entered (u : Uninit) (t t' : Tree) (root this : Addr) (pre : List Bytes) (name : Bytes)
    (dir : Bool) (c : Addr) : Prop where
  wf : t'.WF root
  extends_ : Extends t t'
  walk_iff : ∀ {ds : List Bytes} {x : Addr}, walk t'.child root ds = some x ↔
    walk t.child root ds = some x ∨ (ds = pre ++ [name] ∧ x = c)
  fresh : walk t.child root (pre ++ [name]) = none →
    t'.node? c = some { construct u c t.maxInode (some this) name with isDir := dir }
  made : ∀ {b : Addr} {n : Node}, t.node? b = none → t'.node? b = some n → Made u b n

/-- The child exists and nothing changes. -/
theorem Entered.of_child (u : Uninit) {t : Tree} {root this : Addr} (h : t.WF root) {name : Bytes}
    (dir : Bool) {pre : List Bytes} (hpre : walk t.child root pre = some this) {c : Addr}
    (hc : t.child this name = some c) : Entered u t t root this pre name dir c := by
  have hwalk : walk t.child root (pre ++ [name]) = some c :=
    walk_concat_eq_some.mpr ⟨this, hpre, hc⟩
  refine ⟨h, Extends.refl t, ?_, ?_, ?_⟩
  · intro ds x
    refine ⟨?_, ?_⟩
    · exact Or.inl
    · rintro (hx | ⟨rfl, rfl⟩)
      · exact hx
      · exact hwalk
  · intro hnone
    rw [hwalk] at hnone
    exact absurd hnone (by simp)
  · intro b n hnone hn
    rw [hnone] at hn
    exact absurd hn (by simp)

/-- The other nodes stay, and the parent gets a child more. -/
theorem Extends.of_newChild (u : Uninit) {t : Tree} {root this : Addr} {name : Bytes} {dir : Bool}
    (hlt : this < t.nodes.size)
    (hedge : AddsEdge t.child (t.newChild u this name dir).1.child root this name t.nodes.size) :
    Extends t (t.newChild u this name dir).1 := by
  refine ⟨?_, ?_⟩
  · intro b m hm
    rw [node?_newChild u t name dir hlt, if_neg (Nat.ne_of_lt (Heap.lt_size_of_get? hm)), hm]
    by_cases hb : this = b
    · rw [if_pos hb]
      exact ⟨_, rfl⟩
    · rw [if_neg hb]
      exact ⟨m.childs, rfl⟩
  · intro b k x hx
    exact hedge.edge_iff.mpr (Or.inl hx)

/-- The child is missing and made, at the next address. -/
theorem Entered.of_newChild (u : Uninit) {t : Tree} {root this : Addr} (h : t.WF root)
    {name : Bytes} (dir : Bool) {pre : List Bytes} (hpre : walk t.child root pre = some this)
    (hc : t.child this name = none) :
    Entered u t (t.newChild u this name dir).1 root this pre name dir t.nodes.size := by
  obtain ⟨n, hn⟩ := h.node_of_walk hpre
  have hlt : this < t.nodes.size := Heap.lt_size_of_get? hn
  have hedge := h.addsEdge u dir hn hc
  refine ⟨h.newChild u dir hpre hc, Extends.of_newChild u hlt hedge, ?_, ?_, ?_⟩
  · intro ds x
    exact hedge.walk_iff h.arborescence hpre
  · intro _
    rw [node?_newChild u t name dir hlt, if_pos rfl]
  · intro b m hnone hm
    rw [node?_newChild u t name dir hlt, hnone, Option.map_none] at hm
    split_ifs at hm with hb
    obtain rfl := Option.some.inj hm
    exact ⟨t.maxInode, some this, name, dir, OrdMap.empty, by rw [hb]; rfl⟩

/-- One level of an insertion. -/
theorem enter_spec (u : Uninit) {t : Tree} {root this : Addr} (h : t.WF root) (name : Bytes)
    (dir : Bool) {pre : List Bytes} (hpre : walk t.child root pre = some this) :
    Entered u t (t.enter u this name dir).1 root this pre name dir (t.enter u this name dir).2 := by
  cases hc : t.child this name with
  | some c =>
      have henter : t.enter u this name dir = (t, c) := by rw [enter, hc]
      rw [henter]
      exact Entered.of_child u h dir hpre hc
  | none =>
      have henter : t.enter u this name dir = t.newChild u this name dir := by rw [enter, hc]
      rw [henter]
      exact Entered.of_newChild u h dir hpre hc

/-- With no component left, the node is the one reached. -/
theorem Inserted.nil (u : Uninit) {t : Tree} {root this : Addr} (h : t.WF root) {pre : List Bytes}
    (hpre : walk t.child root pre = some this) : Inserted u t t root pre [] this := by
  refine ⟨h, Extends.refl t, by rwa [List.append_nil], ?_, ?_, ?_⟩
  · intro ds
    refine ⟨?_, ?_⟩
    · exact Or.inl
    · rintro (hds | ⟨es, hes, rfl⟩)
      · exact hds
      · obtain rfl := List.prefix_nil.mp hes
        have hsome : (walk t.child root (pre ++ [])).isSome := by
          rw [List.append_nil, hpre]
          rfl
        exact hsome
  · intro ds b hnone _ hb
    rw [hnone] at hb
    exact absurd hb (by simp)
  · intro b n hnone hn
    rw [hnone] at hn
    exact absurd hn (by simp)

/-- Entering a level resolves its path besides those that resolved. -/
theorem Entered.walk_isSome_iff {u : Uninit} {t t' : Tree} {root this c : Addr} {pre : List Bytes}
    {name : Bytes} {dir : Bool} (h : Entered u t t' root this pre name dir c) {ds : List Bytes} :
    (walk t'.child root ds).isSome ↔ (walk t.child root ds).isSome ∨ ds = pre ++ [name] := by
  rw [Option.isSome_iff_exists, Option.isSome_iff_exists]
  refine ⟨?_, ?_⟩
  · rintro ⟨x, hx⟩
    rcases h.walk_iff.mp hx with hx | ⟨hds, -⟩
    · exact Or.inl ⟨x, hx⟩
    · exact Or.inr hds
  · rintro (⟨x, hx⟩ | hds)
    · exact ⟨x, h.walk_iff.mpr (Or.inl hx)⟩
    · exact ⟨c, h.walk_iff.mpr (Or.inr ⟨hds, rfl⟩)⟩

/-- One level, and then the rest from the node it leads to. -/
theorem Inserted.cons {u : Uninit} {t t₁ t' : Tree} {root this c₁ c : Addr} {pre : List Bytes}
    {name : Bytes} {names : List Bytes} (hpre : walk t.child root pre = some this)
    (hlevel : Entered u t t₁ root this pre name (!names.isEmpty) c₁)
    (hrest : Inserted u t₁ t' root (pre ++ [name]) names c) :
    Inserted u t t' root pre (name :: names) c := by
  have happ : ∀ es : List Bytes, pre ++ [name] ++ es = pre ++ name :: es := by
    intro es
    rw [List.append_assoc, List.singleton_append]
  refine ⟨hrest.wf, hlevel.extends_.trans hrest.extends_, ?_, ?_, ?_, ?_⟩
  · rw [← happ]
    exact hrest.walk_last
  · intro ds
    rw [hrest.walk_isSome_iff, hlevel.walk_isSome_iff]
    refine ⟨?_, ?_⟩
    · rintro ((hds | rfl) | ⟨es, hes, rfl⟩)
      · exact Or.inl hds
      · exact Or.inr ⟨[name], List.prefix_append [name] names, rfl⟩
      · exact Or.inr ⟨name :: es, (List.prefix_cons_inj name).mpr hes, happ es⟩
    · rintro (hds | ⟨es, hes, rfl⟩)
      · exact Or.inl (Or.inl hds)
      · cases es with
        | nil =>
            rw [List.append_nil]
            exact Or.inl (Or.inl (Option.isSome_iff_exists.mpr ⟨this, hpre⟩))
        | cons e es =>
            obtain ⟨rfl, hes'⟩ := List.cons_prefix_cons.mp hes
            exact Or.inr ⟨es, hes', (happ es).symm⟩
  · intro ds b hnone hne hb
    cases hmid : walk t₁.child root ds with
    | none => exact hrest.implied hmid (by rw [happ]; exact hne) hb
    | some b' =>
        -- made by this level, which is not the last one
        rcases hlevel.walk_iff.mp hmid with hx | ⟨rfl, rfl⟩
        · rw [hnone] at hx
          exact absurd hx (by simp)
        · have hmore : (!names.isEmpty) = true := by
            cases names with
            | nil => exact absurd rfl hne
            | cons _ _ => rfl
          obtain ⟨cs', hn'⟩ := hrest.extends_.old (hlevel.fresh hnone)
          have hb' := walk_mono hrest.extends_.child_mono hmid
          obtain rfl := Option.some.inj (hb'.symm.trans hb)
          exact ⟨_, hn', Implied.of_construct u _ _ _ _ hmore cs'⟩
  · intro b n hnone hn
    cases hmid : t₁.node? b with
    | none => exact hrest.made hmid hn
    | some m =>
        obtain ⟨cs', hcs'⟩ := hrest.extends_.old hmid
        obtain rfl := Option.some.inj (hcs'.symm.trans hn)
        obtain ⟨ino, parent, key, dir, -, rfl⟩ := hlevel.made hnone hmid
        exact ⟨ino, parent, key, dir, cs', rfl⟩

/-- **What `insertPath` does**, by induction on the components; the node
    reached so far moves from `pre` to `pre ++ [name]`. -/
theorem insertPath_spec (u : Uninit) {t : Tree} {root this : Addr} (h : t.WF root)
    (cs : List Bytes) {pre : List Bytes} (hpre : walk t.child root pre = some this) :
    Inserted u t (t.insertPath u this cs).1 root pre cs (t.insertPath u this cs).2 := by
  induction cs generalizing t this pre with
  | nil => exact Inserted.nil u h hpre
  | cons name names ih =>
      have hlevel := enter_spec u h name (!names.isEmpty) hpre
      have hpre' : walk (t.enter u this name (!names.isEmpty)).1.child root (pre ++ [name])
          = some (t.enter u this name (!names.isEmpty)).2 :=
        hlevel.walk_iff.mpr (Or.inr ⟨rfl, rfl⟩)
      exact Inserted.cons hpre hlevel (ih hlevel.wf hpre')

/-- The same for `insert`, from the root. -/
theorem insert_spec (u : Uninit) {t : Tree} {root : Addr} (h : t.WF root) (path : Bytes) :
    Inserted u t (t.insert u root path).1 root [] (components path) (t.insert u root path).2 := by
  rw [insert_eq]
  exact insertPath_spec u h (components path) rfl

end Tree
end Fuse7z
