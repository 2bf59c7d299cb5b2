/-
  Fuse7z.Crawl

  What a client sees that goes through the whole mount with `readdir` and
  `getattr`, as `find` or `ls -R` do.

  `crawl` lists what it comes to.  Where the names in the archive are ones a
  client can use, it finds each path once, and of the paths in the archive
  those that have directories above them only; so it finds every item unless
  there is one beneath a file (`crawl_finds`).
-/
import Fuse7z.Consistency
import Fuse7z.Volume
import Fuse7z.Lib.Explore

namespace Fuse7z

open Lib Fuse7z.Tree Fuse7zLib7zip

/-! ## The client -/

/-- The entries a client goes on with: all but "." and "..". -/
def entriesAt (fs : Fuse7zLib7zip) (path : Bytes) : List Bytes :=
  match fuse7zReaddir fs path with
  | .names names => names.filter fun name => name ≠ [46] ∧ name ≠ [46, 46]
  | _ => []

/-- Whether `getattr` reports a directory. -/
def isDirectory (fs : Fuse7zLib7zip) (path : Bytes) : Bool :=
  match fuse7zGetattr fs path with
  | .attr st => st.stMode = dirMode
  | _ => false

/-- What a client finds below a path, going at most `fuel` levels down. -/
def crawl (fs : Fuse7zLib7zip) : Nat → Bytes → List Bytes
  | 0, _ => []
  | fuel + 1, path =>
      (entriesAt fs path).flatMap fun name =>
        joinPath path name ::
          if isDirectory fs (joinPath path name) then crawl fs fuel (joinPath path name) else []

/-! ## What it looks for -/

/-- The path a client has for components. -/
def pathOf (ds : List Bytes) : Bytes := slash :: [slash].intercalate ds

/-- Names a client can look up behind a '/', with room for them in `pouet`. -/
def TidyNames (items : List Item) : Prop :=
  ∀ x ∈ items, ∀ name ∈ x.path,
    name ≠ [] ∧ name ≠ [46] ∧ name ≠ [46, 46] ∧ name.length < pouetSize

instance (items : List Item) : Decidable (TidyNames items) :=
  inferInstanceAs (Decidable (∀ x ∈ items, ∀ name ∈ x.path,
    name ≠ [] ∧ name ≠ [46] ∧ name ≠ [46, 46] ∧ name.length < pouetSize))

/-- Whether the archive has a directory there. -/
def dirAt (items : List Item) (ds : List Bytes) : Bool :=
  match index items ds with
  | some e => e.isDir
  | none => false

/-- All that lies above a path, below the root, are directories. -/
def Reached (items : List Item) (ds : List Bytes) : Prop :=
  ∀ es, es ≠ [] → es <+: ds → es ≠ ds → dirAt items es = true

instance (items : List Item) (ds : List Bytes) : Decidable (Reached items ds) :=
  decidable_of_iff (∀ es ∈ ds.inits, es ≠ [] → es ≠ ds → dirAt items es = true)
    ⟨fun h es hnil hpre hne => h es ((List.mem_inits es ds).mpr hpre) hnil hne,
      fun h es hmem hnil hne => h es hnil ((List.mem_inits es ds).mp hmem) hne⟩

/-! ## Paths and components -/

section Tidy

variable {items : List Item}

theorem TidyNames.name (h : TidyNames items) {ds : List Bytes} (hin : (index items ds).isSome)
    {name : Bytes} (hname : name ∈ ds) :
    slash ∉ name ∧ name ≠ [] ∧ name ≠ [46] ∧ name ≠ [46, 46] ∧ name.length < pouetSize := by
  rcases index_isSome_iff.mp hin with rfl | ⟨x, hx, hpre⟩
  · exact absurd hname List.not_mem_nil
  · have hmem : name ∈ x.path := hpre.subset hname
    exact ⟨not_mem_of_mem_components hmem, h x hx name hmem⟩

theorem TidyNames.components (h : TidyNames items) {ds : List Bytes}
    (hin : (index items ds).isSome) (hne : ds ≠ []) :
    components ([slash].intercalate ds) = ds :=
  List.splitOn_intercalate slash (fun _ hname => (h.name hin hname).1) hne

theorem TidyNames.lookupKeys (h : TidyNames items) {ds : List Bytes}
    (hin : (index items ds).isSome) (hne : ds ≠ []) :
    lookupKeys ([slash].intercalate ds) = ds := by
  have hcomp := h.components hin hne
  rcases List.eq_nil_or_concat' ds with rfl | ⟨front, name, rfl⟩
  · exact absurd rfl hne
  · exact lookupKeys_of_concat hcomp (h.name hin (by simp)).2.1

/-- A client joins the path of an entry from that of its directory. -/
theorem TidyNames.joinPath_pathOf (h : TidyNames items) {ds : List Bytes} {name : Bytes}
    (hin : (index items (ds ++ [name])).isSome) : joinPath (pathOf ds) name = pathOf (ds ++ [name]) := by
  have hslash : slash ∉ name := (h.name hin (by simp)).1
  have hcomp := h.components hin (by simp)
  rw [pathOf, pathOf, joinPath_eq]
  apply congrArg
  apply components_inj
  rw [components_joinRel hslash, hcomp]
  by_cases hds : ds = []
  · rw [hds]
    rfl
  · have hin' := index_isSome_of_append hin
    have hcomp' := h.components hin' hds
    have hne : [slash].intercalate ds ≠ [] := by
      intro hnil
      rw [hnil, components_nil] at hcomp'
      exact (h.name hin' (by rw [← hcomp']; simp : ([] : Bytes) ∈ ds)).2.1 rfl
    rw [if_neg hne, hcomp']

theorem TidyNames.pathOf_inj (h : TidyNames items) {ds es : List Bytes}
    (hds : (index items ds).isSome) (hes : (index items es).isSome) (hne : ds ≠ []) (hne' : es ≠ [])
    (heq : pathOf ds = pathOf es) : ds = es := by
  rw [← h.components hds hne, ← h.components hes hne', (List.cons.inj heq).2]

end Tidy

/-! ## What the callbacks answer at a path of the archive -/

section Framed

variable {u : Uninit} {archive : Archive} {euid egid : UInt32} {fs : Fuse7zLib7zip}

/-- A path of the archive leads to a node that is what the archive says. -/
theorem node_of_pathOf (hframe : Frame (mount u archive euid egid) fs)
    (htidy : TidyNames archive.items) {ds : List Bytes} {e : Entry}
    (he : index archive.items ds = some e) :
    ∃ a n, lookup fs (pathOf ds) = .ok (some a) ∧ fs.node? a = some n ∧ n.isDir = e.isDir ∧
      walk (indexTree u archive.items).child rootAddr ds = some a := by
  have href := indexTree_refines u archive.items
  have hin : (index archive.items ds).isSome := by
    rw [he]
    rfl
  obtain ⟨a, ha⟩ := Option.isSome_iff_exists.mp ((href.dom ds).mpr hin)
  obtain ⟨m, hm⟩ := href.wf.node_of_walk ha
  obtain ⟨n, hn, hfixed⟩ := hframe.node_of_old hm
  refine ⟨a, n, ?_, hn, ?_, ha⟩
  · rw [hframe.lookup_eq, ← ha]
    show (indexTree u archive.items).find rootAddr ([slash].intercalate ds) = _
    by_cases hds : ds = []
    · rw [hds]
      exact find_nil _ _
    · have hshort : Short ([slash].intercalate ds) := by
        intro name hname
        rw [htidy.components hin hds] at hname
        exact (htidy.name hin (List.mem_of_mem_dropLast hname)).2.2.2.2
      rw [find_eq_walk _ _ _ hshort, htidy.lookupKeys hin hds]
  · rw [fixedPart_isDir hfixed]
    have hagree := href.agree ha hm he
    cases e with
    | implied => exact Implied.isDir hagree
    | item i x =>
        have heq : setItem u i x m = m := hagree
        exact congrArg Node.isDir heq.symm

theorem isDirectory_pathOf (hframe : Frame (mount u archive euid egid) fs)
    (htidy : TidyNames archive.items) {ds : List Bytes} (hin : (index archive.items ds).isSome) :
    isDirectory fs (pathOf ds) = dirAt archive.items ds := by
  obtain ⟨e, he⟩ := Option.isSome_iff_exists.mp hin
  obtain ⟨a, n, hfound, hn, hdir, -⟩ := node_of_pathOf hframe htidy he
  have hmode : (attrOf fs n).stMode = if n.isDir then dirMode else regMode := by
    rw [attrOf]
    cases n.isDir with
    | true => rfl
    | false => rfl
  simp only [isDirectory, fuse7zGetattr_eq hfound hn, hmode, dirAt, he, ← hdir]
  cases n.isDir with
  | true => rfl
  | false => decide

/-- The names a client goes on with are those in the archive. -/
theorem entriesAt_pathOf (hframe : Frame (mount u archive euid egid) fs)
    (htidy : TidyNames archive.items) {ds : List Bytes} (hin : (index archive.items ds).isSome) :
    entriesAt fs (pathOf ds) = (Volume.mount archive euid egid).children ds := by
  obtain ⟨e, he⟩ := Option.isSome_iff_exists.mp hin
  obtain ⟨a, n, hfound, hn, -, hwalk⟩ := node_of_pathOf hframe htidy he
  have hwf := hframe.wf (indexTree_refines u archive.items).wf
  have hkeys : n.childs.entries.map Prod.fst = (Volume.mount archive euid egid).children ds := by
    apply Volume.eq_children n.childs.keys_ascending
    intro c
    have hchild : fs.tree.child a c = n.childs.find? c := by
      have hn' : fs.tree.node? a = some n := hn
      rw [child, hn', Option.bind_some]
    rw [OrdMap.mem_keys_iff, ← hchild, hframe.child_eq]
    exact child_isSome_iff u hwalk c
  have hnames := fuse7zReaddir_eq hwf hfound hn
  rw [hkeys] at hnames
  -- none of the archive's names is "." or ".."
  have hall : ((Volume.mount archive euid egid).children ds).filter
      (fun name => name ≠ [46] ∧ name ≠ [46, 46]) = (Volume.mount archive euid egid).children ds := by
    rw [List.filter_eq_self]
    intro c hc
    obtain ⟨x, hx, hpre⟩ := Volume.mem_children_iff.mp hc
    obtain ⟨-, hdot, hdots, -⟩ := htidy x hx c (hpre.subset (by simp))
    simp [hdot, hdots]
  simp only [entriesAt, hnames]
  rw [List.filter_cons_of_neg (by simp), List.filter_cons_of_neg (by simp)]
  exact hall

theorem mem_children_iff_index {ds : List Bytes} {name : Bytes} :
    name ∈ (Volume.mount archive euid egid).children ds ↔
      (index archive.items (ds ++ [name])).isSome := by
  have hne : ds ++ [name] ≠ [] := by simp
  rw [Volume.mem_children_iff, index_isSome_iff, or_iff_right hne]
  rfl

/-- The client explores the paths of the archive. -/
theorem crawl_eq (hframe : Frame (mount u archive euid egid) fs) (htidy : TidyNames archive.items)
    (fuel : Nat) {ds : List Bytes} (hin : (index archive.items ds).isSome) :
    crawl fs fuel (pathOf ds) =
      (explore (Volume.mount archive euid egid).children (dirAt archive.items) fuel ds).map
        pathOf := by
  induction fuel generalizing ds with
  | zero => rfl
  | succ fuel ih =>
      rw [crawl, explore, entriesAt_pathOf hframe htidy hin, List.map_flatMap]
      apply List.flatMap_congr
      intro name hname
      have hbelow := mem_children_iff_index.mp hname
      rw [htidy.joinPath_pathOf hbelow, isDirectory_pathOf hframe htidy hbelow, List.map_cons]
      cases dirAt archive.items (ds ++ [name]) with
      | true => rw [if_pos rfl, if_pos rfl, ih hbelow]
      | false => rfl

end Framed

/-! ## Whole archives -/

/-- No path of the archive has more components than the longest item. -/
theorem length_le_of_index {items : List Item} {fuel : Nat}
    (hfuel : ∀ x ∈ items, x.path.length ≤ fuel) {ds : List Bytes}
    (hin : (index items ds).isSome) : ds.length ≤ fuel := by
  rcases index_isSome_iff.mp hin with rfl | ⟨x, hx, hpre⟩
  · exact Nat.zero_le fuel
  · exact Nat.le_trans hpre.length_le (hfuel x hx)

section Mounted

variable {u : Uninit} {archive : Archive} {euid egid : UInt32} {fuel : Nat}

/-- What is explored from the root. -/
theorem mem_explore_root_iff (hfuel : ∀ x ∈ archive.items, x.path.length ≤ fuel)
    {ds : List Bytes} :
    ds ∈ explore (Volume.mount archive euid egid).children (dirAt archive.items) fuel [] ↔
      ds ≠ [] ∧ (index archive.items ds).isSome ∧ Reached archive.items ds := by
  have hpasses : ∀ ks, Passes (Volume.mount archive euid egid).children (dirAt archive.items) [] ks
      ↔ ks ≠ [] ∧ (index archive.items ks).isSome ∧ Reached archive.items ks := by
    intro ks
    exact passes_iff (P := fun ds => (index archive.items ds).isSome)
      (fun _ _ => mem_children_iff_index) (fun _ _ => index_isSome_of_append)
  rw [mem_explore_iff]
  refine ⟨?_, ?_⟩
  · rintro ⟨ks, hks, -, rfl⟩
    exact (hpasses _).mp hks
  · intro h
    exact ⟨ds, (hpasses ds).mpr h, length_le_of_index hfuel h.2.1, rfl⟩

theorem crawl_root_eq (htidy : TidyNames archive.items) (es : List Callback) :
    crawl (run step (mount u archive euid egid) es) fuel [slash] =
      (explore (Volume.mount archive euid egid).children (dirAt archive.items) fuel []).map
        pathOf :=
  crawl_eq (run_frame (mount u archive euid egid) es) htidy fuel (index_isSome_iff.mpr (Or.inl rfl))

theorem crawl_nodup (htidy : TidyNames archive.items)
    (hfuel : ∀ x ∈ archive.items, x.path.length ≤ fuel) (es : List Callback) :
    (crawl (run step (mount u archive euid egid) es) fuel [slash]).Nodup := by
  rw [crawl_root_eq htidy]
  apply List.Nodup.map_on
  · intro ds hds ds' hds' heq
    obtain ⟨hne, hin, -⟩ := (mem_explore_root_iff hfuel).mp hds
    obtain ⟨hne', hin', -⟩ := (mem_explore_root_iff hfuel).mp hds'
    exact htidy.pathOf_inj hin hin' hne hne' heq
  · exact explore_nodup (Volume.children_nodup _) fuel []

theorem mem_crawl_iff (htidy : TidyNames archive.items)
    (hfuel : ∀ x ∈ archive.items, x.path.length ≤ fuel) (es : List Callback) {path : Bytes} :
    path ∈ crawl (run step (mount u archive euid egid) es) fuel [slash] ↔
      ∃ ds, ds ≠ [] ∧ path = pathOf ds ∧ (index archive.items ds).isSome ∧
        Reached archive.items ds := by
  rw [crawl_root_eq htidy, List.mem_map]
  refine ⟨?_, ?_⟩
  · rintro ⟨ds, hds, rfl⟩
    obtain ⟨hne, hin, hreached⟩ := (mem_explore_root_iff hfuel).mp hds
    exact ⟨ds, hne, rfl, hin, hreached⟩
  · rintro ⟨ds, hne, rfl, hin, hreached⟩
    exact ⟨ds, (mem_explore_root_iff hfuel).mpr ⟨hne, hin, hreached⟩, rfl⟩

/-- An item is found when no item above it is a file. -/
theorem item_mem_crawl_iff (htidy : TidyNames archive.items)
    (hfuel : ∀ x ∈ archive.items, x.path.length ≤ fuel) (es : List Callback) {x : Item}
    (hx : x ∈ archive.items) :
    slash :: narrow x.fullPath ∈ crawl (run step (mount u archive euid egid) es) fuel [slash] ↔
      Reached archive.items x.path := by
  have hin : (index archive.items x.path).isSome :=
    index_isSome_iff.mpr (Or.inr ⟨x, hx, List.prefix_rfl⟩)
  have hne : x.path ≠ [] := components_ne_nil _
  have hpath : slash :: narrow x.fullPath = pathOf x.path := by
    rw [pathOf, Item.path, intercalate_components]
  rw [mem_crawl_iff htidy hfuel, hpath]
  refine ⟨?_, ?_⟩
  · rintro ⟨ds, hds, heq, hknown, hreached⟩
    rw [htidy.pathOf_inj hin hknown hne hds heq]
    exact hreached
  · exact fun h => ⟨x.path, hne, rfl, hin, h⟩

end Mounted

/-- **What a client finds that goes through the mount**, at any time, when the
    names are ones it can use and it goes deep enough: each path once; of the
    paths in the archive those with directories above them only; and every
    item just when there is no file above one. -/
theorem crawl_finds (u : Uninit) {archive : Archive} (euid egid : UInt32)
    (htidy : TidyNames archive.items) {fuel : Nat}
    (hfuel : ∀ x ∈ archive.items, x.path.length ≤ fuel) (es : List Callback) :
    (crawl (run step (mount u archive euid egid) es) fuel [slash]).Nodup ∧
      (∀ path, path ∈ crawl (run step (mount u archive euid egid) es) fuel [slash] ↔
        ∃ ds, ds ≠ [] ∧ path = pathOf ds ∧ (index archive.items ds).isSome ∧
          Reached archive.items ds) ∧
      ((∀ x ∈ archive.items,
          slash :: narrow x.fullPath ∈ crawl (run step (mount u archive euid egid) es) fuel [slash]) ↔
        ∀ x ∈ archive.items, Reached archive.items x.path) := by
  refine ⟨crawl_nodup htidy hfuel es, fun _ => mem_crawl_iff htidy hfuel es, ?_⟩
  exact forall₂_congr fun x hx => item_mem_crawl_iff htidy hfuel es hx

/-- The item of the archive of "a/b" is found. -/
theorem crawl_finds_nested :
    [slash, 97, slash, 98] ∈ crawl (mount default nestedArchive 0 0) 2 [slash] := by
  have hreached : ∀ x ∈ nestedArchive.items, Reached nestedArchive.items x.path := by
    decide +kernel
  have hdeep : ∀ x ∈ nestedArchive.items, x.path.length ≤ 2 := by decide
  exact (crawl_finds default 0 0 (by decide) hdeep []).2.2.mpr hreached _ List.mem_cons_self

end Fuse7z
