/-
  Fuse7z.Fullname

  `Node::fullname`, and `Node::find` of what it returns.

  `fullname` climbs the parent pointers and puts a '/' in front of every name
  but those of the root and of its children; the components of the result are
  the names on the way down (`fullnameIn_of_walk`), empty ones included, and it
  comes back from every node (`fullname_total`).  So `find` from the root comes
  back to the node, as long as its own name is not empty and the others fit
  `pouet` (`find_fullname`).
-/
import Fuse7z.Shape

namespace Fuse7z

open Lib Fuse7z.Tree

/-! ## The way up -/

section Climb

variable {t : Tree} {a p : Addr} {n pn : Node}

/-- At the root, and with the root for a parent, the name is the answer. -/
theorem fullnameIn_root (hn : t.node? a = some n) (hnone : n.parent = none) (calls : Nat) :
    fullnameIn t (calls + 1) a = some n.sname := by
  simp only [fullnameIn, hn, hnone, Option.bind_eq_bind, Option.bind_some]

theorem fullnameIn_top (hn : t.node? a = some n) (hp : n.parent = some p)
    (hpn : t.node? p = some pn) (hnone : pn.parent = none) (calls : Nat) :
    fullnameIn t (calls + 1) a = some n.sname := by
  simp only [fullnameIn, hn, hp, hpn, hnone, Option.bind_eq_bind, Option.bind_some]

/-- Further down, the parent's full name goes in front. -/
theorem fullnameIn_below (hn : t.node? a = some n) (hp : n.parent = some p)
    (hpn : t.node? p = some pn) {pp : Addr} (hpp : pn.parent = some pp) (calls : Nat) :
    fullnameIn t (calls + 1) a
      = (fullnameIn t calls p).map fun dir => dir ++ slash :: n.sname := by
  simp only [fullnameIn, hn, hp, hpn, hpp, Option.bind_eq_bind, Option.bind_some]
  cases fullnameIn t calls p with
  | none => rfl
  | some dir => rfl

end Climb

/-- An answer does not depend on how many calls were allowed. -/
theorem fullnameIn_mono {t : Tree} {a : Addr} {path : Bytes} {calls calls' : Nat}
    (h : fullnameIn t calls a = some path) (hle : calls ≤ calls') :
    fullnameIn t calls' a = some path := by
  induction calls generalizing a path calls' with
  | zero => exact absurd h (by simp [fullnameIn])
  | succ calls ih =>
      obtain ⟨more, rfl⟩ : ∃ c, calls' = c + 1 := Nat.exists_eq_add_one.mpr (by omega)
      cases hn : t.node? a with
      | none => exact absurd h (by simp [fullnameIn, hn])
      | some n =>
          cases hp : n.parent with
          | none =>
              rw [fullnameIn_root hn hp] at h
              rw [fullnameIn_root hn hp, h]
          | some p =>
              cases hpn : t.node? p with
              | none => exact absurd h (by simp [fullnameIn, hn, hp, hpn])
              | some pn =>
                  cases hpp : pn.parent with
                  | none =>
                      rw [fullnameIn_top hn hp hpn hpp] at h
                      rw [fullnameIn_top hn hp hpn hpp, h]
                  | some pp =>
                      rw [fullnameIn_below hn hp hpn hpp] at h
                      obtain ⟨dir, hdir, rfl⟩ := Option.map_eq_some_iff.mp h
                      rw [fullnameIn_below hn hp hpn hpp, ih hdir (Nat.le_of_succ_le_succ hle),
                        Option.map_some]

/-- The components of the full name are the names on the way to the node. -/
theorem fullnameIn_of_walk {t : Tree} (h : Shape t) {ks : List Bytes} {k : Bytes} {a : Addr}
    (hw : walk t.child rootAddr (ks ++ [k]) = some a) {calls : Nat} (hcalls : ks.length < calls) :
    ∃ path, fullnameIn t calls a = some path ∧ components path = ks ++ [k] := by
  induction ks using List.reverseRecOn generalizing k a calls with
  | nil =>
      obtain ⟨calls, rfl⟩ : ∃ c, calls = c + 1 := Nat.exists_eq_add_one.mpr hcalls
      have hk : components k = [k] := components_of_not_mem (h.names hw k List.mem_cons_self).1
      obtain ⟨p, n, hroot, -, hn, hp, rfl⟩ := h.wf.last_of_walk hw
      obtain rfl : rootAddr = p := Option.some.inj hroot
      obtain ⟨r, hr, hnone⟩ := h.wf.root_parent
      exact ⟨n.sname, fullnameIn_top hn hp hr hnone calls, hk⟩
  | append_singleton ks k' ih =>
      rw [List.length_append, List.length_singleton] at hcalls
      obtain ⟨calls, rfl⟩ : ∃ c, calls = c + 1 := Nat.exists_eq_add_one.mpr (by omega)
      have hk : components k = [k] :=
        components_of_not_mem (h.names hw k (List.mem_append_right _ List.mem_cons_self)).1
      obtain ⟨p, n, hwp, -, hn, hp, rfl⟩ := h.wf.last_of_walk hw
      -- the parent hangs at `k'`, so it is not the root
      obtain ⟨pp, pn, -, -, hpn, hpp, -⟩ := h.wf.last_of_walk hwp
      have hless : ks.length < calls := by omega
      obtain ⟨dir, hdir, hcomps⟩ := ih hwp hless
      refine ⟨dir ++ slash :: n.sname, ?_, ?_⟩
      · rw [fullnameIn_below hn hp hpn hpp, hdir, Option.map_some]
      · rw [components_join, hcomps, hk]

theorem fullname_of_walk {t : Tree} (h : Shape t) {ks : List Bytes} {k : Bytes} {a : Addr}
    (hw : walk t.child rootAddr (ks ++ [k]) = some a) :
    ∃ path, fullname t a = some path ∧ components path = ks ++ [k] := by
  have hlt := h.wf.length_lt_size hw
  rw [List.length_append, List.length_singleton] at hlt
  exact fullnameIn_of_walk h hw (by omega)

theorem fullname_root {t : Tree} (h : Shape t) : fullname t rootAddr = some [] := by
  obtain ⟨n, hn, hname⟩ := h.root_name
  obtain ⟨m, hm, hnone⟩ := h.wf.root_parent
  obtain rfl : n = m := Option.some.inj (hn.symm.trans hm)
  obtain ⟨calls, hcalls⟩ : ∃ c, t.nodes.size = c + 1 :=
    Nat.exists_eq_add_one.mpr (Heap.lt_size_of_get? hn)
  rw [fullname, hcalls, fullnameIn_root hn hnone, hname]

/-- `fullname` comes back from every node: more calls than there are nodes are
    never made. -/
theorem fullname_total {t : Tree} (h : Shape t) {a : Addr} {n : Node} (hn : t.node? a = some n) :
    ∃ path, fullname t a = some path ∧
      ∀ calls, t.nodes.size ≤ calls → fullnameIn t calls a = some path := by
  have hsome : ∃ path, fullname t a = some path := by
    obtain ⟨ks, hks⟩ := h.wf.reach hn
    rcases List.eq_nil_or_concat' ks with rfl | ⟨ks, k, rfl⟩
    · obtain rfl : rootAddr = a := Option.some.inj hks
      exact ⟨[], fullname_root h⟩
    · obtain ⟨path, hpath, -⟩ := fullname_of_walk h hks
      exact ⟨path, hpath⟩
  obtain ⟨path, hpath⟩ := hsome
  exact ⟨path, hpath, fun _ hle => fullnameIn_mono hpath hle⟩

/-! ## find of a full name -/

/-- The node is the root or has a name, and the names of all nodes above it fit
    `pouet`. -/
def Nameable (t : Tree) (a : Addr) : Prop :=
  ∃ n, t.node? a = some n ∧ (a = rootAddr ∨ n.sname ≠ []) ∧
    ∀ b m, Relation.TransGen (ParentOf t) a b → t.node? b = some m → m.sname.length ≤ 254

/-- The names on the way to a node are those of the nodes above it. -/
theorem exists_above {t : Tree} (h : Shape t) {ks : List Bytes} {k : Bytes} {a : Addr}
    (hw : walk t.child rootAddr (ks ++ [k]) = some a) {name : Bytes} (hname : name ∈ ks) :
    ∃ b m, Relation.TransGen (ParentOf t) a b ∧ t.node? b = some m ∧ m.sname = name := by
  obtain ⟨pre, post, rfl⟩ := List.append_of_mem hname
  have hsplit : pre ++ name :: post ++ [k] = (pre ++ [name]) ++ (post ++ [k]) := by simp
  rw [hsplit] at hw
  -- the node the name leads to, and the walk on from there
  obtain ⟨b, hb, hrest⟩ := walk_append_eq_some.mp hw
  obtain ⟨-, m, -, -, hm, -, hsname⟩ := h.wf.last_of_walk hb
  have habove : Relation.TransGen (ParentOf t) a b := by
    rw [parentOf_eq_hangs h.wf]
    exact transGen_hangs_of_walk hrest
  exact ⟨b, m, habove, hm, hsname⟩

/-- `find` of the full name comes back to the node. -/
theorem find_fullname_of_nameable {t : Tree} (h : Shape t) {a : Addr} (ha : Nameable t a) :
    ∃ path, fullname t a = some path ∧ t.find rootAddr (cStr path) = .ok (some a) := by
  obtain ⟨n, hn, hnamed, hshort⟩ := ha
  obtain ⟨ks, hks⟩ := h.wf.reach hn
  rcases List.eq_nil_or_concat' ks with rfl | ⟨ks, k, rfl⟩
  · obtain rfl : rootAddr = a := Option.some.inj hks
    exact ⟨[], fullname_root h, find_nil t rootAddr⟩
  · obtain ⟨path, hpath, hcomps⟩ := fullname_of_walk h hks
    refine ⟨path, hpath, ?_⟩
    -- no NUL cuts it off
    have hnul : 0 ∉ path := by
      rw [mem_iff_components (by decide), hcomps]
      rintro ⟨name, hname, h0⟩
      exact (h.names hks name hname).2 h0
    have hs : Short path := by
      intro name hname
      rw [hcomps, List.dropLast_concat] at hname
      obtain ⟨b, m, hup, hm, rfl⟩ := exists_above h hks hname
      exact Nat.lt_succ_of_le (hshort b m hup hm)
    -- the last component is the node's own name
    have hlast : k ≠ [] := by
      obtain ⟨p, m, -, hk, hm, -, hsname⟩ := h.wf.last_of_walk hks
      obtain rfl : n = m := Option.some.inj (hn.symm.trans hm)
      rcases hnamed with rfl | hne
      · exact absurd hk h.wf.arborescence.root_not_child
      · exact hsname ▸ hne
    rw [cStr_of_not_mem hnul, find_eq_walk t rootAddr path hs,
      lookupKeys_of_concat hcomps hlast, hks]

/-- **`find` of the full name is the node itself**, in every tree that was
    built, so nodes with the same full name are the same node. -/
theorem find_fullname {u : Uninit} {t : Tree} (h : Built u t) :
    (∀ a, Nameable t a →
      ∃ path, fullname t a = some path ∧ t.find rootAddr (cStr path) = .ok (some a)) ∧
    ∀ a b, Nameable t a → Nameable t b → fullname t a = fullname t b → a = b := by
  have hfind := fun a (ha : Nameable t a) => find_fullname_of_nameable h.shape ha
  refine ⟨hfind, ?_⟩
  intro a b ha hb hsame
  obtain ⟨path, hpath, hpa⟩ := hfind a ha
  obtain ⟨path', hpath', hpb⟩ := hfind b hb
  rw [hsame, hpath'] at hpath
  obtain rfl : path' = path := Option.some.inj hpath
  rw [hpa] at hpb
  exact Option.some.inj (Except.ok.inj hpb)

/-- The tree of "a//b" and "/a": empty names lie above "b" and the second "a". -/
theorem find_fullname_doubled :
    let t := run (insertStep default) (freshRoot default) [[97, 47, 47, 98], [47, 97]]
    (∃ path, fullname t 3 = some path ∧ t.find rootAddr (cStr path) = .ok (some 3)) ∧
    (fullname t 3 = fullname t 5 → 3 = 5) := by
  intro t
  have hbuilt : Built default t := built_run default Built.fresh (by decide)
  have hshort : ∀ b < t.nodes.size, ∀ m ∈ t.node? b, m.sname.length ≤ 254 := by decide +kernel
  have hname : ∀ a ∈ [3, 5], ∃ n ∈ t.node? a, n.sname ≠ [] := by decide +kernel
  have hnameable : ∀ a ∈ [3, 5], Nameable t a := by
    intro a ha
    obtain ⟨n, hn, hne⟩ := hname a ha
    refine ⟨n, hn, Or.inr hne, ?_⟩
    intro b m _ hm
    exact hshort b (Heap.lt_size_of_get? hm) m hm
  have h3 : Nameable t 3 := hnameable 3 (by decide)
  have h5 : Nameable t 5 := hnameable 5 (by decide)
  exact ⟨(find_fullname hbuilt).1 3 h3, (find_fullname hbuilt).2 3 5 h3 h5⟩

end Fuse7z
