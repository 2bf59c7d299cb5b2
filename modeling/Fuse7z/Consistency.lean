/-
  Fuse7z.Consistency

  What holds of the mounted archive in every state a run leads to.

  The tree keeps the shape insertions gave it (`run_shape`), and has one node
  for each path the items' paths begin with (`size_indexTree`).  So the inode
  numbers are names of the paths, the same at any two moments
  (`ino_identifies`), and the callbacks that look a path up give answers that
  go together (`callbacks_agree`).
-/
import Fuse7z.Extraction
import Fuse7z.Shape
import Fuse7z.Stability
import Mathlib.Data.List.Dedup

namespace Fuse7z

open Lib Fuse7z.Tree Fuse7zLib7zip

/-! ## The shape, over a run -/

/-- A change of a node that keeps its links and its number. -/
theorem Shape.modify {t : Tree} (h : Shape t) (a : Addr) {f : Node → Node} (hf : KeepsLinks f)
    (hino : ∀ n, (f n).stat.stIno = n.stat.stIno) : Shape (t.modify a f) where
  wf := h.wf.modify a hf
  root_name := by
    obtain ⟨n, hn, hname⟩ := h.root_name
    obtain ⟨m, hm, rfl | rfl⟩ := exists_node?_modify (a := a) f hn
    · exact ⟨m, hm, hname⟩
    · exact ⟨f n, hm, (hf n).2.2.trans hname⟩
  names := by
    intro ks b hw
    rw [child_modify t a hf] at hw
    exact h.names hw
  numbered := h.numbered.modify a hino

/-- No NUL is left in a path that was read as a C string. -/
theorem narrow_not_mem (w : List WChar) : 0 ∉ narrow w := by
  intro h
  have hne := List.mem_takeWhile_imp h
  exact absurd hne (by decide)

theorem shape_indexItem {u : Uninit} {t : Tree} (h : Shape t) (i : Nat) (x : Item) :
    Shape (indexItem u rootAddr i x t) := by
  obtain ⟨n, hn, -⟩ := h.wf.root_parent
  have hins := h.insert u hn (narrow_not_mem x.fullPath)
  exact hins.modify _ (setItem_keepsLinks u i x) fun _ => rfl

/-- The tree of an archive has the shape. -/
theorem shape_indexTree (u : Uninit) (items : List Item) : Shape (indexTree u items) := by
  induction items using List.reverseRecOn with
  | nil => exact (Shape.fresh u).modify rootAddr (fun _ => ⟨rfl, rfl, rfl⟩) fun _ => rfl
  | append_singleton items x ih =>
      rw [indexTree_concat]
      exact shape_indexItem ih items.length x

theorem Fuse7zLib7zip.Effect.shape {fs fs' : Fuse7zLib7zip} {e : Callback}
    (heff : Effect fs e fs') (h : Shape fs.tree) : Shape fs'.tree := by
  cases heff with
  | unchanged => exact h
  | opened found node file newOk => exact h.modify _ (fun _ => ⟨rfl, rfl, rfl⟩) fun _ => rfl
  | released node => exact h.modify _ (fun _ => ⟨rfl, rfl, rfl⟩) fun _ => rfl
  | timed => exact h.modify _ (fun _ => ⟨rfl, rfl, rfl⟩) fun _ => rfl

section Mounted

variable (u : Uninit) (archive : Archive) (euid egid : UInt32)

/-- **The tree keeps its shape** in every run. -/
theorem run_shape (es : List Callback) :
    Shape (run step (mount u archive euid egid) es).tree :=
  run_invariant' (I := fun fs => Shape fs.tree) (fun fs e h => (step_effect fs e).shape h) es
    (shape_indexTree u archive.items)

end Mounted

/-! ## How many nodes -/

/-- The paths the items' paths begin with, each once; the empty one is the
    root's. -/
def paths (items : List Item) : List (List Bytes) :=
  ([] :: items.flatMap fun x => x.path.inits).dedup

theorem mem_paths_iff {items : List Item} {ds : List Bytes} :
    ds ∈ paths items ↔ (index items ds).isSome := by
  rw [paths, List.mem_dedup, List.mem_cons, List.mem_flatMap, index_isSome_iff]
  simp only [List.mem_inits]

/-- What lies above a path of the archive is a path of the archive. -/
theorem index_isSome_of_append {items : List Item} {ds es : List Bytes}
    (h : (index items (ds ++ es)).isSome) : (index items ds).isSome := by
  rw [index_isSome_iff] at h ⊢
  rcases h with hnil | ⟨x, hx, hpre⟩
  · exact Or.inl (List.append_eq_nil_iff.mp hnil).1
  · exact Or.inr ⟨x, hx, (List.prefix_append ds es).trans hpre⟩

/-- A tree has as many nodes as it has paths. -/
theorem Tree.WF.size_eq {t : Tree} {root : Addr} (h : t.WF root) {ps : List (List Bytes)}
    (hnodup : ps.Nodup) (hmem : ∀ ds, ds ∈ ps ↔ (walk t.child root ds).isSome) :
    t.nodes.size = ps.length := by
  have hwalks : ∀ {ds : List Bytes}, ds ∈ ps →
      walk t.child root ds = some ((walk t.child root ds).getD 0) := by
    intro ds hds
    obtain ⟨a, ha⟩ := Option.isSome_iff_exists.mp ((hmem ds).mp hds)
    rw [ha, Option.getD_some]
  -- the nodes the paths lead to are all nodes, each once
  have hperm : (ps.map fun ds => (walk t.child root ds).getD 0).Perm (List.range t.nodes.size) := by
    rw [List.perm_ext_iff_of_nodup]
    · intro a
      rw [List.mem_map, List.mem_range]
      refine ⟨?_, ?_⟩
      · rintro ⟨ds, hds, rfl⟩
        obtain ⟨n, hn⟩ := h.node_of_walk (hwalks hds)
        exact Heap.lt_size_of_get? hn
      · intro ha
        obtain ⟨n, hn⟩ := Option.isSome_iff_exists.mp (Heap.get?_isSome_iff.mpr ha)
        obtain ⟨ds, hds⟩ := h.reach hn
        refine ⟨ds, (hmem ds).mpr (by rw [hds]; rfl), ?_⟩
        rw [hds, Option.getD_some]
    · apply List.Nodup.map_on _ hnodup
      intro ds hds ds' hds' heq
      have hw := hwalks hds
      rw [heq] at hw
      exact h.arborescence.walk_inj hw (hwalks hds')
    · exact List.nodup_range
  rw [← List.length_range (n := t.nodes.size), ← hperm.length_eq, List.length_map]

/-- **One node for each path** the items' paths begin with. -/
theorem size_indexTree (u : Uninit) (items : List Item) :
    (indexTree u items).nodes.size = (paths items).length := by
  have href := indexTree_refines u items
  have hnodup : (paths items).Nodup := List.nodup_dedup _
  apply href.wf.size_eq hnodup
  intro ds
  rw [mem_paths_iff, href.dom]

/-! ## Inode numbers -/

section Mounted

variable {u : Uninit} {archive : Archive} {euid egid : UInt32}

/-- What `getattr` reports as the inode number, in any state: the number of the
    node in the order of construction. -/
theorem ino_of_getattr {es : List Callback} {path : Bytes} {st : Stat}
    (h : fuse7zGetattr (run step (mount u archive euid egid) es) path = .attr st) :
    ∃ a, lookup (mount u archive euid egid) path = .ok (some a) ∧
      a < (indexTree u archive.items).nodes.size ∧ st.stIno = inoOf (Int32.ofNat a) := by
  have hframe := run_frame (mount u archive euid egid) es
  obtain ⟨a, n, hfound, hn, rfl⟩ := node_of_getattr h
  obtain ⟨m, hm, -⟩ := hframe.node hn
  have hino := (run_shape u archive euid egid es).numbered.ino hn
  refine ⟨a, (hframe.lookup_eq path).symm.trans hfound, Heap.lt_size_of_get? hm, ?_⟩
  rw [← hino, attrOf]
  cases n.isDir with
  | true => rfl
  | false => rfl

/-- **The inode number names the path**: at any two moments of any two runs,
    two paths FUSE sends are reported with one number just when they are one
    path.  The number is that of the constructor's counter, an `int`, so there
    must be fewer paths than it counts. -/
theorem ino_identifies (hcount : (paths archive.items).length < 2 ^ 31) {es es' : List Callback}
    {p p' : Bytes} (hp : FusePath p) (hp' : FusePath p') {st st' : Stat}
    (hst : fuse7zGetattr (run step (mount u archive euid egid) es) p = .attr st)
    (hst' : fuse7zGetattr (run step (mount u archive euid egid) es') p' = .attr st') :
    st.stIno = st'.stIno ↔ p = p' := by
  obtain ⟨a, hfound, ha, hino⟩ := ino_of_getattr hst
  obtain ⟨b, hfound', hb, hino'⟩ := ino_of_getattr hst'
  rw [size_indexTree] at ha hb
  rw [hino, hino']
  refine ⟨?_, ?_⟩
  · intro heq
    have hnat : a = b :=
      calc a = (inoOf (Int32.ofNat a)).toNat := (toNat_index (Nat.lt_trans ha hcount)).symm
        _ = (inoOf (Int32.ofNat b)).toNat := by rw [heq]
        _ = b := toNat_index (Nat.lt_trans hb hcount)
    subst hnat
    have hwf : (mount u archive euid egid).tree.WF (mount u archive euid egid).rootNode :=
      (indexTree_refines u archive.items).wf
    exact fusePath_inj hwf hp hp' hfound hfound'
  · rintro rfl
    obtain rfl := Option.some.inj (Except.ok.inj (hfound.symm.trans hfound'))
    rfl

/-- What a path resolves to is a node, in any state. -/
theorem node_of_lookup_framed {fs : Fuse7zLib7zip} (hframe : Frame (mount u archive euid egid) fs)
    {path : Bytes} {a : Addr} (hfound : lookup fs path = .ok (some a)) :
    ∃ n, fs.node? a = some n := by
  cases path with
  | nil => exact absurd hfound (by simp [lookup])
  | cons c q =>
      rw [lookup, hframe.rootNode] at hfound
      have hwf := hframe.wf (indexTree_refines u archive.items).wf
      exact hwf.node_of_walk (walk_of_find hfound)

theorem node_of_lookup {es : List Callback} {path : Bytes} {a : Addr}
    (hfound : lookup (run step (mount u archive euid egid) es) path = .ok (some a)) :
    ∃ n, (run step (mount u archive euid egid) es).node? a = some n :=
  node_of_lookup_framed (run_frame (mount u archive euid egid) es) hfound

end Mounted

/-- "/a" and "/a/b" have different numbers. -/
theorem ino_identifies_nested :
    ∃ st st', fuse7zGetattr (mount default nestedArchive 0 0) [slash, 97] = .attr st ∧
      fuse7zGetattr (mount default nestedArchive 0 0) [slash, 97, slash, 98] = .attr st' ∧
      (st.stIno = st'.stIno ↔ ([slash, 97] : Bytes) = [slash, 97, slash, 98]) := by
  have ha : lookup (run step (mount default nestedArchive 0 0) []) [slash, 97] = .ok (some 1) := by
    decide +kernel
  have hb : lookup (run step (mount default nestedArchive 0 0) []) [slash, 97, slash, 98]
      = .ok (some 2) := by
    decide +kernel
  obtain ⟨n, hn⟩ := node_of_lookup ha
  obtain ⟨m, hm⟩ := node_of_lookup hb
  have hst := fuse7zGetattr_eq ha hn
  have hst' := fuse7zGetattr_eq hb hm
  refine ⟨_, _, hst, hst', ?_⟩
  exact ino_identifies (by decide) ⟨[97], rfl, by decide⟩ ⟨[97, slash, 98], rfl, by decide⟩ hst hst'

/-! ## Callbacks that look a path up -/

/-- How an `open` of a file ends that `getattr` reports with `size` bytes. -/
inductive OpensFile (fs : Fuse7zLib7zip) (path : Bytes) (fh : Addr) (size : UInt64) (env : OpenEnv) :
    Prop where
  | handle (reply : (fuse7zOpen fs path env).1 = .opened 0 fh)
  | noMemory (reply : (fuse7zOpen fs path env).1 = .opened (-enomem) fh)
      (memory : env.newOk = false ∨ env.alloc.grants = false ∨ env.callbackOk = false)
  /-- `std::length_error` leaves the callback -/
  | tooLong (reply : (fuse7zOpen fs path env).1 = .fault (.uncaught .lengthError))
      (size : env.alloc.maxSize < size.toNat)
  /-- the archive delivers more bytes than it declares, and they do harm -/
  | overrun (n : Node) (node : fs.node? fh = some n)
      (reply : (fuse7zOpen fs path env).1 = .fault .segfault)
      (longer : size.toNat < (fs.extracted n env).length)

/-- How the callbacks answer at one path, in one state. -/
inductive Verdict (fs : Fuse7zLib7zip) (path : Bytes) : Prop where
  /-- looking the path up crashes, for all of them -/
  | fault (f : Fault) (getattr : fuse7zGetattr fs path = .fault f)
      (readdir : fuse7zReaddir fs path = .fault f)
      (open_ : ∀ env, fuse7zOpen fs path env = (.fault f, fs))
      (utimens : ∀ tv0 tv1, fuse7zUtimens fs path tv0 tv1 = (.fault f, fs))
  /-- nothing is there, for all of them -/
  | missing (getattr : fuse7zGetattr fs path = .ret (-enoent))
      (readdir : fuse7zReaddir fs path = .ret (-enoent))
      (open_ : ∀ env, fuse7zOpen fs path env = (.ret (-enoent), fs))
      (utimens : ∀ tv0 tv1, fuse7zUtimens fs path tv0 tv1 = (.ret (-enoent), fs))
  /-- a directory: its size is the number of the names listed, which are all
      different, and it cannot be opened -/
  | dir (st : Stat) (names : List Bytes) (getattr : fuse7zGetattr fs path = .attr st)
      (mode : st.stMode = dirMode)
      (readdir : fuse7zReaddir fs path = .names ([46] :: [46, 46] :: names))
      (ascending : names.Pairwise ltstr)
      (size : st.stSize = names.length.toUInt64.toInt64)
      (nlink : st.stNlink = 2 + names.length.toUInt64)
      (open_ : ∀ env, fuse7zOpen fs path env = (.ret (-eisdir), fs))
      (utimens : ∀ tv0 tv1, (fuse7zUtimens fs path tv0 tv1).1 = .ret 0)
  /-- a file: it can be opened, always with the same handle, as far as there is
      memory and it holds what it declares, and listed like a directory -/
  | file (st : Stat) (names : List Bytes) (fh : Addr)
      (getattr : fuse7zGetattr fs path = .attr st) (mode : st.stMode = regMode)
      (nlink : st.stNlink = 1)
      (readdir : fuse7zReaddir fs path = .names ([46] :: [46, 46] :: names))
      (open_ : ∀ env, OpensFile fs path fh st.stSize.toUInt64 env)
      (utimens : ∀ tv0 tv1, (fuse7zUtimens fs path tv0 tv1).1 = .ret 0)

/-- Where a file is, it opens. -/
theorem opensFile {fs : Fuse7zLib7zip} {path : Bytes} {a : Addr} {n : Node}
    (hfound : lookup fs path = .ok (some a)) (hn : fs.node? a = some n) (hfile : n.isDir = false)
    (env : OpenEnv) : OpensFile fs path a n.stat.stSize.toUInt64 env := by
  have hreply := fuse7zOpen_reply hfound hn hfile env
  by_cases hnew : env.newOk = false
  · rw [if_pos hnew] at hreply
    exact .noMemory hreply (Or.inl hnew)
  · rw [if_neg hnew] at hreply
    by_cases hserves : env.alloc.Serves n.stat.stSize.toUInt64
    · rw [if_pos hserves] at hreply
      by_cases hcallback : fs.callbackThrows n env = true
      · rw [if_pos hcallback] at hreply
        have hnone : env.callbackOk = false := by
          simpa using (Bool.and_eq_true_iff.mp hcallback).2
        exact .noMemory hreply (Or.inr (Or.inr hnone))
      · rw [if_neg hcallback] at hreply
        by_cases hsurvives : fs.Survives n env
        · rw [if_pos hsurvives] at hreply
          exact .handle hreply
        · rw [if_neg hsurvives] at hreply
          exact .overrun n hn hreply (Nat.lt_of_not_le fun hfit => hsurvives (Or.inl hfit))
    · rw [if_neg hserves] at hreply
      by_cases hmax : env.alloc.maxSize < n.stat.stSize.toUInt64.toNat
      · rw [if_pos hmax] at hreply
        exact .tooLong hreply hmax
      · rw [if_neg hmax] at hreply
        have hgrants : env.alloc.grants = false := by
          rw [← Bool.not_eq_true]
          exact fun hgrants => hserves (Or.inr ⟨Nat.le_of_not_lt hmax, hgrants⟩)
        exact .noMemory hreply (Or.inr (Or.inl hgrants))

/-- **The callbacks agree about every path in every state.** -/
theorem callbacks_agree (u : Uninit) (archive : Archive) (euid egid : UInt32)
    (es : List Callback) (path : Bytes) :
    Verdict (run step (mount u archive euid egid) es) path := by
  have hwf := run_wf u archive euid egid es
  have hnode : ∀ a, lookup (run step (mount u archive euid egid) es) path = .ok (some a) →
      ∃ n, (run step (mount u archive euid egid) es).node? a = some n := fun _ => node_of_lookup
  revert hwf hnode
  generalize run step (mount u archive euid egid) es = fs
  intro hwf hnode
  cases hfound : lookup fs path with
  | error f =>
      apply Verdict.fault f
      · simp only [fuse7zGetattr, hfound]
      · simp only [fuse7zReaddir, hfound]
      · intro env
        simp only [fuse7zOpen, hfound]
      · intro tv0 tv1
        simp only [fuse7zUtimens, hfound]
  | ok found =>
      cases found with
      | none =>
          apply Verdict.missing
          · simp only [fuse7zGetattr, hfound]
          · simp only [fuse7zReaddir, hfound]
          · intro env
            simp only [fuse7zOpen, hfound]
          · intro tv0 tv1
            simp only [fuse7zUtimens, hfound]
      | some a =>
          obtain ⟨n, hn⟩ := hnode a hfound
          have hattr := fuse7zGetattr_eq hfound hn
          have hnames := fuse7zReaddir_eq hwf hfound hn
          have hset : ∀ tv0 tv1, (fuse7zUtimens fs path tv0 tv1).1 = .ret 0 := by
            intro tv0 tv1
            simp only [fuse7zUtimens, hfound]
          have hlen : (n.childs.entries.map Prod.fst).length = n.childs.size := List.length_map ..
          cases hdir : n.isDir with
          | true =>
              refine Verdict.dir _ _ hattr ?_ hnames n.childs.keys_ascending ?_ ?_ ?_ hset
              · simp only [attrOf, hdir, if_true]
              · simp only [attrOf, hdir, if_true, hlen]
              · simp only [attrOf, hdir, if_true, hlen]
              · intro env
                simp only [fuse7zOpen, hfound, hn, hdir, if_true]
          | false =>
              refine Verdict.file _ _ a hattr ?_ ?_ hnames ?_ hset
              · simp only [attrOf, hdir, Bool.false_eq_true, if_false]
              · simp only [attrOf, hdir, Bool.false_eq_true, if_false]
              · intro env
                have hsize : (attrOf fs n).stSize = n.stat.stSize := by
                  simp only [attrOf, hdir, Bool.false_eq_true, if_false]
                rw [hsize]
                exact opensFile hfound hn hdir env

end Fuse7z
