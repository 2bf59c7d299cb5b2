/-
  Fuse7z.Shape

  The representation invariant of the node tree.

  `Built` are the trees insertions make of a fresh root.  What an insertion
  keeps is `Shape`: the links of `WF`, components for names, and inode numbers
  that count the nodes.  `RepInv` is what a reader of the tree can rely on, in
  terms of the children maps and the parent pointers as they are stored; a
  tree of that shape has it as long as the `int` that counts the inodes does
  not overflow (`built_repInv`).
-/
import Fuse7z.RoundTrip
import Fuse7z.Lib.Word

namespace Fuse7z

open Lib Fuse7z.Tree

/-! ## Trees that were built -/

/-- The trees made of a fresh root by insertions, each at any node there is.
    A path is a C string, so it has no NUL. -/
inductive Built (u : Uninit) : Tree → Prop where
  | fresh : Built u (freshRoot u)
  | insert {t : Tree} (h : Built u t) {this : Addr} {n : Node} (hthis : t.node? this = some n)
      {path : Bytes} (hpath : 0 ∉ path) : Built u (t.insert u this path).1

/-! ## Inode numbers -/

/-- `max_inode` has counted the nodes, and every node has the number it found. -/
structure Numbered (t : Tree) : Prop where
  counter : t.maxInode = Int32.ofNat t.nodes.size
  ino : ∀ {a : Addr} {n : Node}, t.node? a = some n → n.stat.stIno = inoOf (Int32.ofNat a)

theorem Numbered.empty : Numbered Tree.empty where
  counter := rfl
  ino := by
    intro a n hn
    have hnone : Tree.empty.node? a = none := Heap.get?_eq_none_iff.mpr (Nat.zero_le a)
    rw [hnone] at hn
    exact absurd hn (by simp)

theorem Numbered.newNode {t : Tree} (h : Numbered t) (u : Uninit) (parent : Option Addr)
    (name : Bytes) : Numbered (t.newNode u parent name) where
  counter := by
    show t.maxInode + 1 = Int32.ofNat (t.nodes.alloc _).size
    rw [Heap.size_alloc, Int32.ofNat_add, h.counter]
    rfl
  ino := by
    intro a n hn
    have halloc : (t.newNode u parent name).node? a =
        if a = t.nodes.size then some (construct u t.nodes.size t.maxInode parent name)
        else t.node? a := Heap.get?_alloc _ _ _
    rw [halloc] at hn
    split_ifs at hn with ha
    · obtain rfl := Option.some.inj hn
      rw [ha, ← h.counter]
      rfl
    · exact h.ino hn

theorem Numbered.modify {t : Tree} (h : Numbered t) (a : Addr) {f : Node → Node}
    (hf : ∀ n, (f n).stat.stIno = n.stat.stIno) : Numbered (t.modify a f) where
  counter := by
    show t.maxInode = Int32.ofNat (t.nodes.modify a f).size
    rw [Heap.size_modify, h.counter]
  ino := by
    intro b n hn
    rw [node?_modify] at hn
    split_ifs at hn
    · obtain ⟨m, hm, rfl⟩ := Option.map_eq_some_iff.mp hn
      rw [hf]
      exact h.ino hm
    · exact h.ino hn

theorem Numbered.newChild {t : Tree} (h : Numbered t) (u : Uninit) (this : Addr) (name : Bytes)
    (dir : Bool) : Numbered (t.newChild u this name dir).1 := by
  have hlinked := (h.newNode u (some this) name).modify this
    (f := fun n => { n with childs := n.childs.insert name t.nodes.size }) fun _ => rfl
  cases dir with
  | false => exact hlinked
  | true => exact hlinked.modify t.nodes.size fun _ => rfl

theorem Numbered.insertPath {t : Tree} (h : Numbered t) (u : Uninit) (this : Addr)
    (cs : List Bytes) : Numbered (t.insertPath u this cs).1 := by
  induction cs generalizing t this with
  | nil => exact h
  | cons name names ih =>
      apply ih
      -- one level makes at most one child
      rw [enter]
      cases t.child this name with
      | some c => exact h
      | none => exact h.newChild u this name _

/-- Below `2^31` nodes the numbers are different. -/
theorem Numbered.ino_inj {t : Tree} (h : Numbered t) (hcount : t.nodes.size < 2 ^ 31)
    {a b : Addr} {n m : Node} (hn : t.node? a = some n) (hm : t.node? b = some m)
    (heq : n.stat.stIno = m.stat.stIno) : a = b := by
  have ha : a < 2 ^ 31 := Nat.lt_trans (Heap.lt_size_of_get? hn) hcount
  have hb : b < 2 ^ 31 := Nat.lt_trans (Heap.lt_size_of_get? hm) hcount
  rw [h.ino hn, h.ino hm] at heq
  calc a = (inoOf (Int32.ofNat a)).toNat := (toNat_index ha).symm
    _ = (inoOf (Int32.ofNat b)).toNat := by rw [heq]
    _ = b := toNat_index hb

/-! ## What an insertion keeps -/

structure Shape (t : Tree) : Prop where
  wf : t.WF rootAddr
  root_name : ∃ n, t.node? rootAddr = some n ∧ n.sname = []
  names : ∀ {ks : List Bytes} {a : Addr}, walk t.child rootAddr ks = some a →
    ∀ k ∈ ks, slash ∉ k ∧ 0 ∉ k
  numbered : Numbered t

theorem Shape.fresh (u : Uninit) : Shape (freshRoot u) where
  wf := freshRoot_wf u
  root_name := ⟨_, by rw [freshRoot_node?, if_pos rfl], rfl⟩
  names := by
    intro ks a hw
    cases ks with
    | nil => simp
    | cons k ks =>
        rw [walk_cons, freshRoot_child] at hw
        exact absurd hw (by simp)
  numbered := Numbered.empty.newNode u none []

theorem Shape.insert {t : Tree} (h : Shape t) (u : Uninit) {this : Addr} {n : Node}
    (hthis : t.node? this = some n) {path : Bytes} (hpath : 0 ∉ path) :
    Shape (t.insert u this path).1 := by
  obtain ⟨pre, hpre⟩ := h.wf.reach hthis
  rw [insert_eq]
  have hins := insertPath_spec u h.wf (components path) hpre
  refine ⟨hins.wf, ?_, ?_, h.numbered.insertPath u this _⟩
  · obtain ⟨m, hm, hname⟩ := h.root_name
    obtain ⟨cs, hm'⟩ := hins.extends_.old hm
    exact ⟨_, hm', hname⟩
  · intro ks a hw k hk
    have hsome : (walk (t.insertPath u this (components path)).1.child rootAddr ks).isSome := by
      rw [hw]
      rfl
    rcases hins.walk_isSome_iff.mp hsome with hold | ⟨es, hes, rfl⟩
    · obtain ⟨b, hb⟩ := Option.isSome_iff_exists.mp hold
      exact h.names hb k hk
    · -- below `pre` the names are components of the path
      rcases List.mem_append.mp hk with hk | hk
      · exact h.names hpre k hk
      · have hcomp : k ∈ components path := hes.subset hk
        refine ⟨not_mem_of_mem_components hcomp, ?_⟩
        intro h0
        exact hpath ((mem_iff_components (by decide)).mpr ⟨k, hcomp, h0⟩)

/-- Every tree that was built has the shape. -/
theorem Built.shape {u : Uninit} {t : Tree} (h : Built u t) : Shape t := by
  induction h with
  | fresh => exact Shape.fresh u
  | insert _ hthis hpath ih => exact ih.insert u hthis hpath

/-- A history of insertions at the root builds a tree. -/
theorem built_run (u : Uninit) {t : Tree} (h : Built u t) {ps : List Bytes}
    (hps : ∀ p ∈ ps, 0 ∉ p) : Built u (run (insertStep u) t ps) := by
  induction ps generalizing t with
  | nil => exact h
  | cons p ps ih =>
      obtain ⟨n, hn, -⟩ := h.shape.wf.root_parent
      have hstep : Built u (insertStep u t p).2 := Built.insert h hn (hps p List.mem_cons_self)
      exact ih hstep fun q hq => hps q (List.mem_cons_of_mem p hq)

/-! ## The stored tree -/

/-- The parent pointer of the node at `a` leads to `b`. -/
def ParentOf (t : Tree) (a b : Addr) : Prop := ∃ n, t.node? a = some n ∧ n.parent = some b

/-- How often the children map of `n` has the node at `a`. -/
def occurrences (n : Node) (a : Addr) : Nat := (n.childs.entries.map Prod.snd).count a

/-- What is stored is a tree, in both directions: a node other than the root
    is in one children map, once, which is that of the node its parent pointer
    leads to, and the key there is its own name. -/
structure RepInv (t : Tree) (root : Addr) : Prop where
  root_apart : ∃ n, t.node? root = some n ∧ n.parent = none ∧
    ∀ b m, t.node? b = some m → occurrences m root = 0
  entry_node : ∀ a n k c, t.node? a = some n → (k, c) ∈ n.childs.entries →
    ∃ m, t.node? c = some m ∧ m.parent = some a ∧ m.sname = k
  occurs_once : ∀ a n, t.node? a = some n → a ≠ root →
    ∃ p m, n.parent = some p ∧ t.node? p = some m ∧ (n.sname, a) ∈ m.childs.entries ∧
      occurrences m a = 1 ∧ ∀ b m', t.node? b = some m' → b ≠ p → occurrences m' a = 0
  name_clean : ∀ a n, t.node? a = some n → a ≠ root → slash ∉ n.sname ∧ 0 ∉ n.sname
  ascending : ∀ a n, t.node? a = some n → n.childs.entries.Pairwise fun e e' =>
    ∀ m m', t.node? e.2 = some m → t.node? e'.2 = some m' → strcmp m.sname m'.sname < 0
  reaches_root : ∀ a n, t.node? a = some n → Relation.ReflTransGen (ParentOf t) a root
  ino_inj : ∀ a b n m, t.node? a = some n → t.node? b = some m →
    n.stat.stIno = m.stat.stIno → a = b

section Stored

variable {t : Tree} {root : Addr}

/-- The entries of a map are the edges. -/
theorem child_eq_of_entry {a c : Addr} {n : Node} {k : Bytes} (hn : t.node? a = some n)
    (he : (k, c) ∈ n.childs.entries) : t.child a k = some c :=
  child_eq_some.mpr ⟨n, hn, (OrdMap.find?_eq_some_iff _).mpr he⟩

/-- A node other than the root has an edge to it. -/
theorem exists_edge (h : t.WF root) {a : Addr} {n : Node} (hn : t.node? a = some n)
    (hroot : a ≠ root) : ∃ p, n.parent = some p ∧ t.child p n.sname = some a := by
  obtain ⟨ks, hks⟩ := h.reach hn
  rcases List.eq_nil_or_concat' ks with rfl | ⟨ks', k, rfl⟩
  · exact absurd (Option.some.inj hks).symm hroot
  · obtain ⟨p, m, -, hk, hm, hparent, hname⟩ := h.last_of_walk hks
    obtain rfl : n = m := Option.some.inj (hn.symm.trans hm)
    rw [hname]
    exact ⟨p, hparent, hk⟩

/-- Parent pointers lead up the edges, and nowhere else. -/
theorem parentOf_eq_hangs (h : t.WF root) : ParentOf t = Hangs t.child := by
  funext a b
  apply propext
  refine ⟨?_, ?_⟩
  · rintro ⟨n, hn, hparent⟩
    have hroot : a ≠ root := by
      rintro rfl
      obtain ⟨m, hm, hnone⟩ := h.root_parent
      obtain rfl : n = m := Option.some.inj (hn.symm.trans hm)
      exact absurd (hparent.symm.trans hnone) (by simp)
    obtain ⟨p, hp, hedge⟩ := exists_edge h hn hroot
    obtain rfl : b = p := Option.some.inj (hparent.symm.trans hp)
    exact ⟨n.sname, hedge⟩
  · rintro ⟨k, hk⟩
    obtain ⟨n, hn, hparent, -⟩ := h.link hk
    exact ⟨n, hn, hparent⟩

/-- A map has a node at most once, since the key is the node's name. -/
theorem children_nodup (h : t.WF root) {a : Addr} {n : Node} (hn : t.node? a = some n) :
    (n.childs.entries.map Prod.snd).Nodup := by
  apply List.Nodup.map_on
  · rintro ⟨k, c⟩ hk ⟨k', c'⟩ hk' hc
    obtain rfl : c = c' := hc
    obtain ⟨-, rfl⟩ :=
      h.arborescence.child_inj (child_eq_of_entry hn hk) (child_eq_of_entry hn hk')
    rfl
  · exact n.childs.keys_nodup.of_map

theorem occurrences_eq_zero_iff {n : Node} {c : Addr} :
    occurrences n c = 0 ↔ ∀ k, (k, c) ∉ n.childs.entries := by
  rw [occurrences, List.count_eq_zero, List.mem_map]
  refine ⟨?_, ?_⟩
  · exact fun h k hk => h ⟨(k, c), hk, rfl⟩
  · rintro h ⟨⟨k, c'⟩, hk, rfl⟩
    exact h k hk

end Stored

/-- **The shape is the representation invariant**, while the inode numbers do
    not overflow. -/
theorem Shape.repInv {t : Tree} (h : Shape t) (hcount : t.nodes.size < 2 ^ 31) :
    RepInv t rootAddr where
  root_apart := by
    obtain ⟨n, hn, hnone⟩ := h.wf.root_parent
    refine ⟨n, hn, hnone, ?_⟩
    intro b m hm
    rw [occurrences_eq_zero_iff]
    intro k hk
    exact h.wf.arborescence.root_not_child (child_eq_of_entry hm hk)
  entry_node _ _ _ _ hn hk := h.wf.link (child_eq_of_entry hn hk)
  occurs_once := by
    intro a n hn hroot
    obtain ⟨p, hparent, hedge⟩ := exists_edge h.wf hn hroot
    obtain ⟨m, hm, hfind⟩ := child_eq_some.mp hedge
    have hentry : (n.sname, a) ∈ m.childs.entries := (OrdMap.find?_eq_some_iff _).mp hfind
    refine ⟨p, m, hparent, hm, hentry, ?_, ?_⟩
    · exact List.count_eq_one_of_mem (children_nodup h.wf hm) (List.mem_map_of_mem hentry)
    · intro b m' hm' hb
      rw [occurrences_eq_zero_iff]
      intro k hk
      -- an entry elsewhere would be a second edge to the node
      exact hb (h.wf.arborescence.child_inj (child_eq_of_entry hm' hk) hedge).1
  name_clean := by
    intro a n hn hroot
    obtain ⟨p, -, hedge⟩ := exists_edge h.wf hn hroot
    obtain ⟨m, hm, -⟩ := child_eq_some.mp hedge
    obtain ⟨ks, hks⟩ := h.wf.reach hm
    have hwalk : walk t.child rootAddr (ks ++ [n.sname]) = some a :=
      walk_concat_eq_some.mpr ⟨p, hks, hedge⟩
    exact h.names hwalk n.sname (List.mem_append_right ks (List.mem_singleton.mpr rfl))
  ascending := by
    intro a n hn
    apply n.childs.sorted.imp_of_mem
    rintro ⟨k, c⟩ ⟨k', c'⟩ hk hk' hlt m m' hm hm'
    -- the keys are the names
    obtain ⟨m₁, hm₁, -, rfl⟩ := h.wf.link (child_eq_of_entry hn hk)
    obtain ⟨m₂, hm₂, -, rfl⟩ := h.wf.link (child_eq_of_entry hn hk')
    obtain rfl : m = m₁ := Option.some.inj (hm.symm.trans hm₁)
    obtain rfl : m' = m₂ := Option.some.inj (hm'.symm.trans hm₂)
    exact hlt
  reaches_root := by
    intro a n hn
    obtain ⟨ks, hks⟩ := h.wf.reach hn
    rw [parentOf_eq_hangs h.wf]
    exact reflTransGen_hangs_of_walk hks
  ino_inj _ _ _ _ hn hm heq := h.numbered.ino_inj hcount hn hm heq

/-- **Every tree that was built has the representation invariant**, if it has
    fewer than `2^31` nodes. -/
theorem built_repInv {u : Uninit} {t : Tree} (h : Built u t) (hcount : t.nodes.size < 2 ^ 31) :
    RepInv t rootAddr :=
  h.shape.repInv hcount

/-- The tree of "a/b" and "/": four nodes besides the root, two of them with an
    empty name. -/
theorem built_repInv_nested :
    RepInv (run (insertStep default) (freshRoot default) [[97, 47, 98], [slash]]) rootAddr := by
  have hbuilt : Built default (run (insertStep default) (freshRoot default) [[97, 47, 98], [slash]]) :=
    built_run default Built.fresh (by decide)
  exact built_repInv hbuilt (by decide +kernel)

end Fuse7z
