/-
  Fuse7z.RoundTrip

  Histories of `Node::insert`, and what `Node::find` makes of them.

  A history is a run of `insertStep` from a fresh root.  Insertion only ever
  adds edges, so a node once returned for a path stays where that path leads
  (`walk_of_mem_transcript`), and a tree has one node for one path.  A later
  `insert` of the path therefore finds everything there (`insert_of_walk`).
-/
import Fuse7z.Index
import Fuse7z.Lib.Run

namespace Fuse7z

open Lib Fuse7z.Tree

/-! ## A fresh root -/

theorem freshRoot_child (u : Uninit) (b : Addr) (k : Bytes) : (freshRoot u).child b k = none := by
  rw [child, freshRoot_node?]
  by_cases hb : b = rootAddr
  · rw [if_pos hb]
    rfl
  · rw [if_neg hb]
    rfl

theorem freshRoot_wf (u : Uninit) : (freshRoot u).WF rootAddr where
  root_parent := ⟨_, by rw [freshRoot_node?, if_pos rfl], rfl⟩
  link := by
    intro a c k hk
    rw [freshRoot_child] at hk
    exact absurd hk (by simp)
  reach := by
    intro a n hn
    rw [freshRoot_node?] at hn
    split_ifs at hn with ha
    exact ⟨[], by rw [ha]; rfl⟩

/-! ## Histories -/

/-- One `insert` at the root, with the node it returns. -/
def insertStep (u : Uninit) (t : Tree) (path : Bytes) : Addr × Tree :=
  ((t.insert u rootAddr path).2, (t.insert u rootAddr path).1)

section History

variable {u : Uninit} {t : Tree}

theorem insertStep_wf (h : t.WF rootAddr) (path : Bytes) : (insertStep u t path).2.WF rootAddr :=
  (insert_spec u h path).wf

/-- The node `insert` returns is the one the components lead to. -/
theorem walk_insertStep (h : t.WF rootAddr) (path : Bytes) :
    walk (insertStep u t path).2.child rootAddr (components path)
      = some (insertStep u t path).1 := by
  have hlast := (insert_spec u h path).walk_last
  rw [List.nil_append] at hlast
  exact hlast

/-- An insertion keeps what every component list leads to. -/
theorem insertStep_walk_mono (h : t.WF rootAddr) (path : Bytes) {ds : List Bytes} {a : Addr}
    (hw : walk t.child rootAddr ds = some a) :
    walk (insertStep u t path).2.child rootAddr ds = some a :=
  walk_mono (insert_spec u h path).extends_.child_mono hw

/-- So does a history, which leaves a tree. -/
theorem run_insertStep_spec (h : t.WF rootAddr) (ps : List Bytes) :
    (run (insertStep u) t ps).WF rootAddr ∧
      ∀ {ds : List Bytes} {a : Addr}, walk t.child rootAddr ds = some a →
        walk (run (insertStep u) t ps).child rootAddr ds = some a := by
  apply run_invariant' (I := fun s : Tree => s.WF rootAddr ∧
    ∀ {ds : List Bytes} {a : Addr}, walk t.child rootAddr ds = some a →
      walk s.child rootAddr ds = some a)
  · rintro s p ⟨hs, hkept⟩
    exact ⟨insertStep_wf hs p, fun hw => insertStep_walk_mono hs p (hkept hw)⟩
  · exact ⟨h, fun hw => hw⟩

/-- What an insertion of the history returned is still where its path leads
    when the history is over. -/
theorem walk_of_mem_transcript (h : t.WF rootAddr) {ps : List Bytes} {p : Bytes} {a : Addr}
    (hmem : (p, a) ∈ transcript (insertStep u) t ps) :
    walk (run (insertStep u) t ps).child rootAddr (components p) = some a := by
  induction ps generalizing t with
  | nil => exact absurd hmem List.not_mem_nil
  | cons q ps ih =>
      have hwf : (insertStep u t q).2.WF rootAddr := insertStep_wf h q
      rw [transcript_cons] at hmem
      rw [run_cons]
      rcases List.mem_cons.mp hmem with heq | hmem
      · obtain ⟨rfl, rfl⟩ := Prod.mk.inj heq
        -- returned by this insertion, kept by the others
        exact (run_insertStep_spec hwf ps).2 (walk_insertStep h p)
      · exact ih hwf hmem

/-- Every path of a history got a node. -/
theorem exists_mem_transcript {ps : List Bytes} {p : Bytes} (hp : p ∈ ps) :
    ∃ a, (p, a) ∈ transcript (insertStep u) t ps := by
  induction ps generalizing t with
  | nil => exact absurd hp List.not_mem_nil
  | cons q ps ih =>
      rw [transcript_cons]
      rcases List.mem_cons.mp hp with rfl | hp
      · exact ⟨_, List.mem_cons_self⟩
      · obtain ⟨a, ha⟩ := ih hp
        exact ⟨a, List.mem_cons_of_mem _ ha⟩

end History

/-! ## Inserting again -/

/-- Components that are all there are entered and not made. -/
theorem insertPath_of_walk (u : Uninit) {t : Tree} {this a : Addr} {cs : List Bytes}
    (hw : walk t.child this cs = some a) : t.insertPath u this cs = (t, a) := by
  induction cs generalizing this with
  | nil =>
      obtain rfl := Option.some.inj hw
      rfl
  | cons name names ih =>
      rw [walk_cons] at hw
      obtain ⟨c, hc, hrest⟩ := Option.bind_eq_some_iff.mp hw
      have henter : t.enter u this name (!names.isEmpty) = (t, c) := by rw [enter, hc]
      rw [insertPath, henter]
      exact ih hrest

theorem insert_of_walk (u : Uninit) {t : Tree} {this a : Addr} {path : Bytes}
    (hw : walk t.child this (components path) = some a) : t.insert u this path = (t, a) := by
  rw [insert_eq]
  exact insertPath_of_walk u hw

/-- **insert and find round-trip.**  For a path of the history with a last
    component that is not empty, and others that fit `pouet`: all its
    insertions returned one node, which `find` gets to, no other path's
    insertion returned, and one more insertion returns without a change. -/
theorem insert_find_round_trip (u : Uninit) (ps : List Bytes) {p : Bytes} (hp : p ∈ ps)
    (hlast : (components p).getLast (components_ne_nil p) ≠ [])
    (hshort : ∀ name ∈ (components p).dropLast, name.length ≤ 254) :
    ∃ a, (∀ b, (p, b) ∈ transcript (insertStep u) (freshRoot u) ps → b = a) ∧
      (run (insertStep u) (freshRoot u) ps).find rootAddr p = .ok (some a) ∧
      (∀ q b, (q, b) ∈ transcript (insertStep u) (freshRoot u) ps → q ≠ p → b ≠ a) ∧
      (run (insertStep u) (freshRoot u) ps).insert u rootAddr p
        = (run (insertStep u) (freshRoot u) ps, a) := by
  have hfresh : (freshRoot u).WF rootAddr := freshRoot_wf u
  have hwf : (run (insertStep u) (freshRoot u) ps).WF rootAddr := (run_insertStep_spec hfresh ps).1
  obtain ⟨a, ha⟩ := exists_mem_transcript (u := u) (t := freshRoot u) hp
  have hwalk := walk_of_mem_transcript hfresh ha
  refine ⟨a, ?_, ?_, ?_, ?_⟩
  · intro b hb
    have hb' := walk_of_mem_transcript hfresh hb
    exact Option.some.inj (hb'.symm.trans hwalk)
  · have hs : Short p := fun name hname => Nat.lt_succ_of_le (hshort name hname)
    have hkeys : lookupKeys p = components p := if_neg hlast
    rw [find_eq_walk _ _ _ hs, hkeys, hwalk]
  · intro q b hb hne
    -- in a tree, one node is at the end of one component list
    apply hwf.addr_ne (walk_of_mem_transcript hfresh hb) hwalk
    intro heq
    exact hne (components_inj heq)
  · exact insert_of_walk u hwalk

/-- The paths "a/b", "a" and "a/b" again. -/
theorem insert_find_round_trip_nested :
    ∃ a, (run (insertStep default) (freshRoot default) [[97, 47, 98], [97], [97, 47, 98]]).find
      rootAddr [97, 47, 98] = .ok (some a) := by
  have hp : ([97, 47, 98] : Bytes) ∈ ([[97, 47, 98], [97], [97, 47, 98]] : List Bytes) := by decide
  obtain ⟨a, -, hfind, -, -⟩ := insert_find_round_trip default _ hp (by decide) (by decide)
  exact ⟨a, hfind⟩

end Fuse7z
