/-
  Fuse7z.Leftover

  What memory held before, and what of it `getattr` reports.

  `Node::Node` writes `st_ino` and the indexing loop the size and the times;
  the rest of `stat` stays as memory had it (`indexTree_keepsMemory`), and
  `getattr` copies it out.  So no answer of `getattr` is the archive's alone
  (`stat_never_determined`).  Within one turn of the loop, a missing time is
  left with the time read before it (`timesOwn_iff`).
-/
import Fuse7z.Times

namespace Fuse7z

open Lib Fuse7z.Tree Fuse7zLib7zip

/-! ## What the loop leaves alone -/

/-- A `stat` without the fields the constructors of the nodes and of the
    archive write. -/
def untouched (s : Stat) : Stat :=
  { s with stIno := 0, stSize := 0, stAtim := default, stMtim := default, stCtim := default }

/-- Every node still has the rest of what memory held at its place. -/
def KeepsMemory (u : Uninit) (t : Tree) : Prop :=
  ∀ a n, t.node? a = some n → untouched n.stat = untouched (u.stat a)

theorem setItem_untouched (u : Uninit) (i : Nat) (x : Item) (n : Node) :
    untouched (setItem u i x n).stat = untouched n.stat := rfl

theorem initTree_keepsMemory (u : Uninit) : KeepsMemory u (initTree u) := by
  intro a n hn
  rw [initTree_node?] at hn
  split_ifs at hn with ha
  obtain rfl := Option.some.inj hn
  rw [ha]
  rfl

/-- An insertion takes the memory of the nodes it makes as it is. -/
theorem KeepsMemory.inserted {u : Uninit} {t t' : Tree} (h : KeepsMemory u t) {cs : List Bytes}
    {c : Addr} (hins : Inserted u t t' rootAddr [] cs c) : KeepsMemory u t' := by
  intro a n hn
  cases hm : t.node? a with
  | none =>
      obtain ⟨_, _, _, _, _, rfl⟩ := hins.made hm hn
      rfl
  | some m =>
      have hold : untouched m.stat = untouched (u.stat a) := h a m hm
      obtain ⟨ks, hks⟩ := hins.extends_.old hm
      obtain rfl := Option.some.inj (hks.symm.trans hn)
      exact hold

theorem KeepsMemory.modify {u : Uninit} {t : Tree} (h : KeepsMemory u t) (a : Addr)
    {f : Node → Node} (hf : ∀ n, untouched (f n).stat = untouched n.stat) :
    KeepsMemory u (t.modify a f) := by
  intro b n hn
  rw [node?_modify] at hn
  split_ifs at hn
  · obtain ⟨m, hm, rfl⟩ := Option.map_eq_some_iff.mp hn
    rw [hf]
    exact h b m hm
  · exact h b n hn

theorem indexTree_keepsMemory (u : Uninit) (items : List Item) :
    KeepsMemory u (indexTree u items) := by
  induction items using List.reverseRecOn with
  | nil => exact initTree_keepsMemory u
  | append_singleton items x ih =>
      rw [indexTree_concat, indexItem]
      have hins := insert_spec u (indexTree_refines u items).wf (narrow x.fullPath)
      exact (ih.inserted hins).modify _ (setItem_untouched u items.length x)

/-- So `getattr` reports the device number memory held. -/
theorem getattr_stDev {u : Uninit} {archive : Archive} {euid egid : UInt32} {path : Bytes}
    {st : Stat} (h : fuse7zGetattr (mount u archive euid egid) path = .attr st) :
    ∃ a, st.stDev = (u.stat a).stDev := by
  obtain ⟨a, n, -, hn, rfl⟩ := node_of_getattr h
  have hkeeps : untouched n.stat = untouched (u.stat a) :=
    indexTree_keepsMemory u archive.items a n hn
  refine ⟨a, ?_⟩
  have hreported : (attrOf (mount u archive euid egid) n).stDev = n.stat.stDev := by
    rw [attrOf]
    cases n.isDir with
    | true => rfl
    | false => rfl
  rw [hreported]
  show (untouched n.stat).stDev = (untouched (u.stat a)).stDev
  rw [hkeeps]

/-! ## Times that are missing -/

/-- The item with other values of the times it has. -/
def Item.mapTimes (f : UInt64 → UInt64) (x : Item) : Item :=
  { x with aTime := x.aTime.map f, cTime := x.cTime.map f, mTime := x.mTime.map f }

/-- What is stored for a missing time does not depend on the times that are
    there. -/
def Item.TimesOwn (x : Item) : Prop :=
  ∀ (u : Uninit) (i : Nat) (n : Node) (f : UInt64 → UInt64),
    (x.aTime = none →
      (setItem u i (x.mapTimes f) n).stat.stAtim = (setItem u i x n).stat.stAtim) ∧
    (x.cTime = none →
      (setItem u i (x.mapTimes f) n).stat.stCtim = (setItem u i x n).stat.stCtim) ∧
    (x.mTime = none →
      (setItem u i (x.mapTimes f) n).stat.stMtim = (setItem u i x n).stat.stMtim)

/-- **Which items keep their missing times apart**: a time that is missing has
    none in front of it, in the order access, change, modification. -/
theorem timesOwn_iff (x : Item) :
    x.TimesOwn ↔ (x.cTime = none → x.aTime = none) ∧
      (x.mTime = none → x.cTime = none ∧ x.aTime = none) := by
  -- a time that is there is what the missing ones behind it are left with
  have hleft : ∀ {o : Option UInt64} {d d' : UInt64},
      toTimespec ((o.map (· + 1)).getD d) = toTimespec (o.getD d') → o = none := by
    intro o d d' heq
    cases o with
    | none => rfl
    | some t => exact absurd (toTimespec_inj heq) (add_one_ne t)
  refine ⟨?_, ?_⟩
  · intro h
    obtain ⟨-, hc, hm⟩ := h default 0 (construct default 0 0 none []) (· + 1)
    refine ⟨?_, ?_⟩
    · intro hnone
      have heq : toTimespec (((x.cTime.map (· + 1)).getD ((x.aTime.map (· + 1)).getD 0)))
          = toTimespec (x.cTime.getD (x.aTime.getD 0)) := hc hnone
      rw [hnone] at heq
      exact hleft heq
    · intro hnone
      have heq : toTimespec ((x.mTime.map (· + 1)).getD
            ((x.cTime.map (· + 1)).getD ((x.aTime.map (· + 1)).getD 0)))
          = toTimespec (x.mTime.getD (x.cTime.getD (x.aTime.getD 0))) := hm hnone
      rw [hnone] at heq
      have hcnone : x.cTime = none := hleft heq
      rw [hcnone] at heq
      exact ⟨hcnone, hleft heq⟩
  · rintro ⟨hc, hm⟩ u i n f
    refine ⟨?_, ?_, ?_⟩
    · intro hnone
      simp only [setItem, Item.mapTimes, hnone, Option.map_none, Option.getD_none]
    · intro hnone
      simp only [setItem, Item.mapTimes, hnone, hc hnone, Option.map_none, Option.getD_none]
    · intro hnone
      obtain ⟨hcnone, hanone⟩ := hm hnone
      simp only [setItem, Item.mapTimes, hnone, hcnone, hanone, Option.map_none,
        Option.getD_none]

/-! ## Two mounts of one archive -/

/-- Memory that held `dev` as the device number everywhere. -/
def Uninit.withDev (u : Uninit) (dev : UInt64) : Uninit :=
  { u with stat := fun a => { u.stat a with stDev := dev } }

/-- **No answer of `getattr` is determined by the archive**: other contents of
    memory give another one at the same path.  And the times of an item are
    kept apart only as far as `timesOwn_iff` says. -/
theorem stat_never_determined (archive : Archive) (euid egid : UInt32) :
    (∀ u path st, fuse7zGetattr (mount u archive euid egid) path = .attr st →
      ∃ u', fuse7zGetattr (mount u' archive euid egid) path ≠ .attr st) ∧
    (¬ ∀ u u' path, fuse7zGetattr (mount u archive euid egid) path
      = fuse7zGetattr (mount u' archive euid egid) path) ∧
    ∀ x ∈ archive.items, x.TimesOwn ↔ (x.cTime = none → x.aTime = none) ∧
      (x.mTime = none → x.cTime = none ∧ x.aTime = none) := by
  have hother : ∀ u path st, fuse7zGetattr (mount u archive euid egid) path = .attr st →
      ∃ u', fuse7zGetattr (mount u' archive euid egid) path ≠ .attr st := by
    intro u path st _
    refine ⟨u.withDev (st.stDev + 1), ?_⟩
    intro h
    -- the device number is what memory holds, wherever the node is
    obtain ⟨a, ha⟩ := getattr_stDev h
    have hdev : st.stDev = st.stDev + 1 := ha
    exact add_one_ne st.stDev hdev.symm
  refine ⟨hother, ?_, fun x _ => timesOwn_iff x⟩
  intro hsame
  -- the root is there in every mount
  have hwf := (indexTree_refines default archive.items).wf
  obtain ⟨n, hn, -⟩ := hwf.root_parent
  have hroot : lookup (mount default archive euid egid) [slash] = .ok (some rootAddr) :=
    find_nil _ _
  obtain ⟨u', hu'⟩ := hother default [slash] _ (fuse7zGetattr_eq hroot hn)
  exact hu' ((hsame u' default [slash]).trans (fuse7zGetattr_eq hroot hn))

/-- The archive of one item "a" that has an access time only. -/
def accessedArchive : Archive :=
  ⟨[{ fullPath := [97], isDir := false, size := some 0, aTime := some 116444736000000000,
      cTime := none, mTime := none }], by decide⟩

/-- Two mounts of it differ at "/", and "a" reports its access time three
    times. -/
theorem memory_reported :
    fuse7zGetattr (mount default accessedArchive 0 0) [slash]
      ≠ fuse7zGetattr (mount ((default : Uninit).withDev 1) accessedArchive 0 0) [slash] ∧
    ¬ ∀ x ∈ accessedArchive.items, x.TimesOwn := by
  refine ⟨by decide +kernel, ?_⟩
  intro h
  have hown := (timesOwn_iff _).mp (h _ List.mem_cons_self)
  exact absurd (hown.1 rfl) (by decide)

end Fuse7z
