/-
  Fuse7z.Lib.Walk

  Walking a graph whose edges carry labels, at most one edge of a label at a
  node: `walk child a ks` follows the labels `ks` from `a`.

  A pointer structure is a tree when every node has at most one incoming edge
  and the root has none (`Arborescence`).  Then a node is reached from the
  root by one label list only (`Arborescence.walk_inj`), so the label lists
  can stand for the nodes.  Hanging a fresh node below a reached one adds one
  walk and changes no other (`AddsEdge.walk_iff`): the single fact the
  invariants of an insertion are derived from.

  Read backwards, a walk climbs: `Hangs child a b` is one step up, and the
  nodes above the end of a walk are the ones it passed
  (`transGen_hangs_of_walk`).  A walk in a tree passes no node twice, so it is
  shorter than the number of nodes (`Arborescence.length_lt`).
-/
import Mathlib.Data.List.Basic
import Mathlib.Data.List.Induction
import Mathlib.Data.List.Perm.Subperm
import Mathlib.Logic.Relation

namespace Lib

variable {A : Type _} {K : Type _} {child child' : A → K → Option A} {root : A}

/-- The node reached from `a` by following the labels in order. -/
def walk (child : A → K → Option A) (a : A) : List K → Option A
  | [] => some a
  | k :: ks => (child a k).bind fun c => walk child c ks

@[simp] theorem walk_nil (a : A) : walk child a [] = some a := rfl

theorem walk_cons (a : A) (k : K) (ks : List K) :
    walk child a (k :: ks) = (child a k).bind fun c => walk child c ks := rfl

@[simp] theorem walk_singleton (a : A) (k : K) : walk child a [k] = child a k := by
  rw [walk_cons]
  exact Option.bind_fun_some _

theorem walk_append (a : A) (ks ls : List K) :
    walk child a (ks ++ ls) = (walk child a ks).bind fun c => walk child c ls := by
  induction ks generalizing a with
  | nil => rfl
  | cons k ks ih =>
      rw [List.cons_append, walk_cons, walk_cons, Option.bind_assoc]
      exact congrArg _ (funext fun c => ih c)

/-- The last label of a walk, split off. -/
theorem walk_concat (a : A) (ks : List K) (k : K) :
    walk child a (ks ++ [k]) = (walk child a ks).bind fun c => child c k := by
  rw [walk_append]
  exact congrArg _ (funext fun c => walk_singleton c k)

theorem walk_concat_eq_some {a : A} {ks : List K} {k : K} {c : A} :
    walk child a (ks ++ [k]) = some c ↔ ∃ b, walk child a ks = some b ∧ child b k = some c := by
  rw [walk_concat, Option.bind_eq_some_iff]

theorem walk_append_eq_some {a : A} {ks ls : List K} {c : A} :
    walk child a (ks ++ ls) = some c ↔ ∃ b, walk child a ks = some b ∧ walk child b ls = some c := by
  rw [walk_append, Option.bind_eq_some_iff]

/-- More edges, more walks. -/
theorem walk_mono (h : ∀ a k c, child a k = some c → child' a k = some c)
    {a b : A} {ks : List K} (hw : walk child a ks = some b) : walk child' a ks = some b := by
  induction ks generalizing a with
  | nil => exact hw
  | cons k ks ih =>
      rw [walk_cons] at hw ⊢
      obtain ⟨c, hc, hrest⟩ := Option.bind_eq_some_iff.mp hw
      rw [h _ _ _ hc]
      exact ih hrest

/-! ## Trees -/

/-- Every node has at most one incoming edge, and the root has none. -/
structure Arborescence (child : A → K → Option A) (root : A) : Prop where
  child_inj : ∀ {a b c : A} {k l : K},
    child a k = some c → child b l = some c → a = b ∧ k = l
  root_not_child : ∀ {a : A} {k : K}, child a k ≠ some root

/-- In a tree the labels from the root determine the node and are determined
    by it. -/
theorem Arborescence.walk_inj (h : Arborescence child root) {a : A} {ks ls : List K}
    (hk : walk child root ks = some a) (hl : walk child root ls = some a) : ks = ls := by
  induction ks using List.reverseRecOn generalizing a ls with
  | nil =>
      obtain rfl : root = a := Option.some.inj hk
      rcases List.eq_nil_or_concat' ls with rfl | ⟨ls', l, rfl⟩
      · rfl
      · obtain ⟨b, -, hb⟩ := walk_concat_eq_some.mp hl
        exact absurd hb h.root_not_child
  | append_singleton ks k ih =>
      -- both walks enter `a` by its one edge, so they agree up to its parent
      obtain ⟨b, hb, hbk⟩ := walk_concat_eq_some.mp hk
      rcases List.eq_nil_or_concat' ls with rfl | ⟨ls', l, rfl⟩
      · obtain rfl : root = a := Option.some.inj hl
        exact absurd hbk h.root_not_child
      · obtain ⟨b', hb', hbl⟩ := walk_concat_eq_some.mp hl
        obtain ⟨rfl, rfl⟩ := h.child_inj hbk hbl
        rw [ih hb hb']

/-- The nodes a walk passes are different from each other, its ends included. -/
theorem Arborescence.exists_passed (h : Arborescence child root) {ks : List K} {a : A}
    (hw : walk child root ks = some a) :
    ∃ bs : List A, bs.Nodup ∧ bs.length = ks.length + 1 ∧
      ∀ b ∈ bs, ∃ ls, ls <+: ks ∧ walk child root ls = some b := by
  induction ks using List.reverseRecOn generalizing a with
  | nil =>
      refine ⟨[root], List.pairwise_singleton _ root, rfl, ?_⟩
      intro b hb
      obtain rfl := List.mem_singleton.mp hb
      exact ⟨[], List.nil_prefix, rfl⟩
  | append_singleton ks k ih =>
      obtain ⟨b, hb, -⟩ := walk_concat_eq_some.mp hw
      obtain ⟨bs, hnodup, hlen, hpassed⟩ := ih hb
      -- the end is no node passed before, since it has one list of labels only
      have hnew : a ∉ bs := by
        intro ha
        obtain ⟨ls, hls, hl⟩ := hpassed a ha
        have heq : ls = ks ++ [k] := h.walk_inj hl hw
        have hle : ls.length ≤ ks.length := hls.length_le
        rw [heq, List.length_append, List.length_singleton] at hle
        omega
      refine ⟨a :: bs, List.nodup_cons.mpr ⟨hnew, hnodup⟩, ?_, ?_⟩
      · rw [List.length_cons, hlen, List.length_append, List.length_singleton]
      · intro c hc
        rcases List.mem_cons.mp hc with rfl | hc
        · exact ⟨ks ++ [k], List.prefix_rfl, hw⟩
        · obtain ⟨ls, hls, hl⟩ := hpassed c hc
          exact ⟨ls, hls.trans (List.prefix_append ks [k]), hl⟩

/-- A walk in a tree is shorter than any list of the nodes it may pass. -/
theorem Arborescence.length_lt (h : Arborescence child root) {ks : List K} {a : A}
    (hw : walk child root ks = some a) {nodes : List A}
    (hnodes : ∀ ls b, walk child root ls = some b → b ∈ nodes) : ks.length < nodes.length := by
  obtain ⟨bs, hnodup, hlen, hpassed⟩ := h.exists_passed hw
  have hsub : bs ⊆ nodes := by
    intro b hb
    obtain ⟨ls, -, hl⟩ := hpassed b hb
    exact hnodes ls b hl
  have hle : bs.length ≤ nodes.length := (hnodup.subperm hsub).length_le
  omega

/-! ## The way up -/

/-- `a` hangs at `b`. -/
def Hangs (child : A → K → Option A) (a b : A) : Prop := ∃ k, child b k = some a

/-- A walk can be climbed back. -/
theorem reflTransGen_hangs_of_walk {a b : A} {ks : List K} (hw : walk child b ks = some a) :
    Relation.ReflTransGen (Hangs child) a b := by
  induction ks using List.reverseRecOn generalizing a with
  | nil =>
      obtain rfl := Option.some.inj hw
      exact Relation.ReflTransGen.refl
  | append_singleton ks k ih =>
      obtain ⟨c, hc, hk⟩ := walk_concat_eq_some.mp hw
      exact Relation.ReflTransGen.head ⟨k, hk⟩ (ih hc)

/-- One that is not empty ends properly below its start. -/
theorem transGen_hangs_of_walk {a b : A} {ks : List K} {k : K}
    (hw : walk child b (ks ++ [k]) = some a) : Relation.TransGen (Hangs child) a b := by
  obtain ⟨c, hc, hk⟩ := walk_concat_eq_some.mp hw
  exact Relation.TransGen.head' ⟨k, hk⟩ (reflTransGen_hangs_of_walk hc)

/-! ## Hanging a fresh node into the tree -/

/-- `child'` is `child` with the edge `k` from `a` to the fresh node `c`. -/
structure AddsEdge (child child' : A → K → Option A) (root a : A) (k : K) (c : A) : Prop where
  edge_iff : ∀ {b : A} {j : K} {x : A},
    child' b j = some x ↔ child b j = some x ∨ (b = a ∧ j = k ∧ x = c)
  no_out : ∀ {j : K} {x : A}, child c j ≠ some x
  no_in : ∀ {b : A} {j : K}, child b j ≠ some c
  ne_root : c ≠ root
  ne_parent : a ≠ c

theorem AddsEdge.arborescence {a c : A} {k : K} (h : AddsEdge child child' root a k c)
    (ht : Arborescence child root) : Arborescence child' root where
  child_inj := by
    intro b d x j l hb hd
    rcases h.edge_iff.mp hb with hb | ⟨rfl, rfl, rfl⟩
    · rcases h.edge_iff.mp hd with hd | ⟨rfl, rfl, rfl⟩
      · exact ht.child_inj hb hd
      · exact absurd hb h.no_in
    · rcases h.edge_iff.mp hd with hd | ⟨rfl, rfl, -⟩
      · exact absurd hd h.no_in
      · exact ⟨rfl, rfl⟩
  root_not_child := by
    intro b j hb
    rcases h.edge_iff.mp hb with hb | ⟨-, -, hc⟩
    · exact ht.root_not_child hb
    · exact h.ne_root hc.symm

/-- The walks of the larger tree: the old ones, and the one to the new node. -/
theorem AddsEdge.walk_iff {a c : A} {k : K} (h : AddsEdge child child' root a k c)
    (ht : Arborescence child root) {pre : List K} (hpre : walk child root pre = some a)
    {ks : List K} {x : A} :
    walk child' root ks = some x ↔
      walk child root ks = some x ∨ (ks = pre ++ [k] ∧ x = c) := by
  induction ks using List.reverseRecOn generalizing x with
  | nil => simp
  | append_singleton ks j ih =>
      rw [walk_concat_eq_some, walk_concat_eq_some]
      refine ⟨?_, ?_⟩
      · rintro ⟨b, hb, hbj⟩
        rcases ih.mp hb with hb | ⟨rfl, rfl⟩
        · rcases h.edge_iff.mp hbj with hbj | ⟨rfl, rfl, rfl⟩
          · exact Or.inl ⟨b, hb, hbj⟩
          · exact Or.inr ⟨by rw [ht.walk_inj hb hpre], rfl⟩
        · -- the fresh node has no edge of its own
          rcases h.edge_iff.mp hbj with hbj | ⟨hba, -, -⟩
          · exact absurd hbj h.no_out
          · exact absurd hba.symm h.ne_parent
      · rintro (⟨b, hb, hbj⟩ | ⟨heq, rfl⟩)
        · exact ⟨b, ih.mpr (Or.inl hb), h.edge_iff.mpr (Or.inl hbj)⟩
        · obtain ⟨rfl, hjk⟩ := List.append_inj' heq rfl
          obtain rfl := (List.cons.inj hjk).1
          exact ⟨a, ih.mpr (Or.inl hpre), h.edge_iff.mpr (Or.inr ⟨rfl, rfl, rfl⟩)⟩

end Lib
