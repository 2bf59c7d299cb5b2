/-
  Fuse7z.Lib.Traverse

  Visiting a tree of nodes with something to do before and after the children
  of each, as a recursive destructor does.

  `traverse` is the recursion, in at most so many levels; it gives up where a
  visit leads to no node.  In a tree it gives up nowhere and visits every node
  below its start exactly once (`Arborescence.exists_traverse`): what it does
  is what the single visits do, in some order.
-/
import Fuse7z.Lib.Walk
import Mathlib.Data.List.Perm.Basic
import Mathlib.Data.List.Nodup

namespace Lib

variable {A : Type _} {K : Type _} {E : Type _} {child : A → K → Option A} {root : A}

/-- What visiting a node comes to: what is done before its children, the
    children in order, and what is done after them. -/
structure Visit (A : Type _) (E : Type _) where
  before : List E
  kids : List A
  after : List E

/-- Visit `a` and what hangs below it. -/
def traverse (visit : A → Option (Visit A E)) : Nat → A → Option (List E)
  | 0, _ => none
  | levels + 1, a => do
      let v ← visit a
      let below ← v.kids.mapM (traverse visit levels)
      some (v.before ++ below.flatten ++ v.after)

/-- What a node's own visit does. -/
def ownEvents (visit : A → Option (Visit A E)) (a : A) : List E :=
  (visit a).elim [] fun v => v.before ++ v.after

theorem mapM_eq_some {α β : Type _} {f : α → Option β} {g : α → β} {l : List α}
    (h : ∀ x ∈ l, f x = some (g x)) : l.mapM f = some (l.map g) := by
  induction l with
  | nil => rfl
  | cons x l ih =>
      rw [List.mapM_cons, h x List.mem_cons_self, ih fun y hy => h y (List.mem_cons_of_mem x hy)]
      rfl

/-- The visit of a node leads to its children, once to each. -/
structure Visit.Of (child : A → K → Option A) (a : A) (v : Visit A E) : Prop where
  nodup : v.kids.Nodup
  mem_kids : ∀ {c : A}, c ∈ v.kids ↔ ∃ k, child a k = some c

/-- The events `es` are those of visiting `nodes`, which are what is below `a`,
    each once. -/
structure Traversed (child : A → K → Option A) (visit : A → Option (Visit A E)) (a : A)
    (es : List E) (nodes : List A) : Prop where
  nodup : nodes.Nodup
  mem_nodes : ∀ {b : A}, b ∈ nodes ↔ ∃ ks, walk child a ks = some b
  perm : es.Perm (nodes.flatMap (ownEvents visit))

/-- A walk never comes back to where it started. -/
theorem Arborescence.not_walk_self (h : Arborescence child root) {pre : List K} {a : A}
    (hpre : walk child root pre = some a) {k : K} {ks : List K} :
    walk child a (k :: ks) ≠ some a := by
  intro hloop
  have hlong : walk child root (pre ++ k :: ks) = some a := walk_append_eq_some.mpr ⟨a, hpre, hloop⟩
  have heq : pre = pre ++ k :: ks := h.walk_inj hpre hlong
  have hlen := congrArg List.length heq
  rw [List.length_append, List.length_cons] at hlen
  omega

/-- What is below one child is not below another. -/
theorem Arborescence.kids_apart (h : Arborescence child root) {pre : List K} {a : A}
    (hpre : walk child root pre = some a) {c d b : A} {j k : K} (hc : child a j = some c)
    (hd : child a k = some d) {ks ls : List K} (hcb : walk child c ks = some b)
    (hdb : walk child d ls = some b) : c = d := by
  have hviac : walk child root (pre ++ j :: ks) = some b := by
    rw [walk_append_eq_some]
    exact ⟨a, hpre, by rw [walk_cons, hc, Option.bind_some, hcb]⟩
  have hviad : walk child root (pre ++ k :: ls) = some b := by
    rw [walk_append_eq_some]
    exact ⟨a, hpre, by rw [walk_cons, hd, Option.bind_some, hdb]⟩
  -- the labels from the root are the same, so the first step below `a` is
  have heq := List.append_cancel_left (h.walk_inj hviac hviad)
  obtain rfl := (List.cons.inj heq).1
  exact Option.some.inj (hc.symm.trans hd)

/-- **A traversal of a tree visits what it can walk to, each node once.** -/
theorem Arborescence.exists_traverse (h : Arborescence child root)
    {visit : A → Option (Visit A E)}
    (hvisit : ∀ ks b, walk child root ks = some b → ∃ v, visit b = some v ∧ v.Of child b)
    {levels : Nat} {pre : List K} {a : A} (hpre : walk child root pre = some a)
    (hlevels : ∀ ks b, walk child root ks = some b → ks.length < pre.length + levels) :
    ∃ es nodes, traverse visit levels a = some es ∧ Traversed child visit a es nodes := by
  induction levels generalizing pre a with
  | zero =>
      have hlt := hlevels pre a hpre
      omega
  | succ levels ih =>
      obtain ⟨v, hv, hof⟩ := hvisit pre a hpre
      -- every child is traversed in one level less
      have hkid : ∀ c, ∃ es nodes, c ∈ v.kids →
          traverse visit levels c = some es ∧ Traversed child visit c es nodes := by
        intro c
        by_cases hc : c ∈ v.kids
        · obtain ⟨k, hk⟩ := hof.mem_kids.mp hc
          have hprec : walk child root (pre ++ [k]) = some c := walk_concat_eq_some.mpr ⟨a, hpre, hk⟩
          have hless : ∀ ks b, walk child root ks = some b →
              ks.length < (pre ++ [k]).length + levels := by
            intro ks b hb
            have hlt := hlevels ks b hb
            rw [List.length_append, List.length_singleton]
            omega
          obtain ⟨es, nodes, hes⟩ := ih hprec hless
          exact ⟨es, nodes, fun _ => hes⟩
        · exact ⟨[], [], fun hin => absurd hin hc⟩
      choose es nodes hspec using hkid
      have hrun : v.kids.mapM (traverse visit levels) = some (v.kids.map es) :=
        mapM_eq_some fun c hc => (hspec c hc).1
      refine ⟨v.before ++ (v.kids.map es).flatten ++ v.after, a :: v.kids.flatMap nodes, ?_,
        ?_, ?_, ?_⟩
      · simp only [traverse, hv, hrun, Option.bind_eq_bind, Option.bind_some]
      · rw [List.nodup_cons, List.nodup_flatMap]
        refine ⟨?_, fun c hc => (hspec c hc).2.nodup, ?_⟩
        · intro ha
          obtain ⟨c, hc, hac⟩ := List.mem_flatMap.mp ha
          obtain ⟨k, hk⟩ := hof.mem_kids.mp hc
          obtain ⟨ks, hks⟩ := (hspec c hc).2.mem_nodes.mp hac
          exact h.not_walk_self hpre (by rw [walk_cons, hk, Option.bind_some, hks])
        · apply hof.nodup.imp_of_mem
          intro c d hc hd hne b hbc hbd
          obtain ⟨j, hj⟩ := hof.mem_kids.mp hc
          obtain ⟨k, hk⟩ := hof.mem_kids.mp hd
          obtain ⟨ks, hks⟩ := (hspec c hc).2.mem_nodes.mp hbc
          obtain ⟨ls, hls⟩ := (hspec d hd).2.mem_nodes.mp hbd
          exact hne (h.kids_apart hpre hj hk hks hls)
      · intro b
        rw [List.mem_cons, List.mem_flatMap]
        refine ⟨?_, ?_⟩
        · rintro (rfl | ⟨c, hc, hb⟩)
          · exact ⟨[], rfl⟩
          · obtain ⟨k, hk⟩ := hof.mem_kids.mp hc
            obtain ⟨ks, hks⟩ := (hspec c hc).2.mem_nodes.mp hb
            exact ⟨k :: ks, by rw [walk_cons, hk, Option.bind_some, hks]⟩
        · rintro ⟨ks, hks⟩
          cases ks with
          | nil => exact Or.inl (Option.some.inj hks).symm
          | cons k ks =>
              rw [walk_cons] at hks
              obtain ⟨c, hk, hc⟩ := Option.bind_eq_some_iff.mp hks
              have hkid : c ∈ v.kids := hof.mem_kids.mpr ⟨k, hk⟩
              exact Or.inr ⟨c, hkid, (hspec c hkid).2.mem_nodes.mpr ⟨ks, hc⟩⟩
      · -- the children in order do what the nodes below them do
        have hbelow : (v.kids.map es).flatten.Perm
            ((v.kids.flatMap nodes).flatMap (ownEvents visit)) := by
          rw [List.flatMap_assoc, ← List.flatMap_def]
          exact List.Perm.flatMap_left _ fun c hc => (hspec c hc).2.perm
        have hown : ownEvents visit a = v.before ++ v.after := by
          rw [ownEvents, hv]
          rfl
        rw [List.flatMap_cons, hown, List.append_assoc, List.append_assoc]
        apply List.Perm.append_left
        exact List.perm_append_comm.trans (List.Perm.append_left _ hbelow)

end Lib
