/-
  Fuse7z.Node

  The node tree: `Node`, `Node::insert`, `Node::find`, `Node::fullname`.

  Nodes live in a heap and know each other by address, as the source's
  pointers do: a node has a `parent` and a map `childs` from names to
  children.  The tree grows only, no node is freed while the archive is
  mounted.

  `insert` and `find` recurse on the path with their own scan for '/', and
  end differently on an empty rest: `find` answers the node it stands on,
  `insert` makes a child with an empty name.
-/
import Fuse7z.OutStream
import Fuse7z.Lib.Heap
import Fuse7z.Lib.Walk

namespace Fuse7z

open Lib

/-! ## Data -/

/-- `struct timespec` -/
structure Timespec where
  tvSec : Int64
  tvNsec : Int64
deriving DecidableEq, Repr, Inhabited

/-- `struct stat` -/
structure Stat where
  stDev : UInt64
  stIno : UInt64
  stMode : UInt32
  stNlink : UInt64
  stUid : UInt32
  stGid : UInt32
  stRdev : UInt64
  stSize : Int64
  stBlksize : Int64
  stBlocks : Int64
  stAtim : Timespec
  stMtim : Timespec
  stCtim : Timespec
deriving DecidableEq, Repr, Inhabited

/-- What memory holds where the code reads before it writes: the members
    `stat` and `id` of a node when it is constructed, and the locals `size`
    and `time` of each turn of the indexing loop. -/
structure Uninit where
  stat : Addr → Stat
  id : Addr → Int32
  size : Nat → UInt64
  time : Nat → UInt64
deriving Inhabited

/-- `Node::nodeState` -/
inductive NodeState where
  | closed
  | opened
  | changed
  | new
deriving DecidableEq, Repr

/-- `nodelist_t` -/
abbrev NodeList := OrdMap Bytes Addr ltstr

/-- `Node`; the member `name` points to the characters of `sname`. -/
structure Node where
  openCount : Int32
  state : NodeState
  buffer : Option Fuse7zOutStream
  sname : Bytes
  isDir : Bool
  id : Int32
  childs : NodeList
  parent : Option Addr
  stat : Stat

/-- The nodes, and the static counter `Node::max_inode`. -/
structure Tree where
  nodes : Heap Node
  maxInode : Int32

namespace Tree

/-! ## Construction -/

/-- The tree before the first node. -/
def empty : Tree := { nodes := Heap.empty, maxInode := 0 }

/-- `stat.st_ino = max_inode++`, an `int` stored in an `ino_t`. -/
def inoOf (maxInode : Int32) : UInt64 := maxInode.toInt64.toUInt64

/-- `Node::Node`, for an object at address `a`. -/
def construct (u : Uninit) (a : Addr) (maxInode : Int32) (parent : Option Addr)
    (name : Bytes) : Node :=
  { openCount := 0
    state := .closed
    buffer := none
    sname := name
    isDir := false
    id := u.id a
    childs := OrdMap.empty
    parent
    stat := { u.stat a with stIno := inoOf maxInode } }

/-- `new Node(parent, name)`, at address `t.nodes.size`. -/
def newNode (u : Uninit) (t : Tree) (parent : Option Addr) (name : Bytes) : Tree :=
  { nodes := t.nodes.alloc (construct u t.nodes.size t.maxInode parent name)
    maxInode := t.maxInode + 1 }

/-- The tree of a node `new Node(NULL, "")` alone. -/
def freshRoot (u : Uninit) : Tree := empty.newNode u none []

def node? (t : Tree) (a : Addr) : Option Node := t.nodes.get? a

def modify (t : Tree) (a : Addr) (f : Node → Node) : Tree :=
  { t with nodes := t.nodes.modify a f }

/-- `childs.find(name)` in the node at `a`. -/
def child (t : Tree) (a : Addr) (name : Bytes) : Option Addr :=
  (t.node? a).bind fun n => n.childs.find? name

/-- `Node *child = new Node(this, name); childs[child->name] = child;` and, in
    the branch for a subdirectory, `child->is_dir = true;`. -/
def newChild (u : Uninit) (t : Tree) (this : Addr) (name : Bytes) (dir : Bool) : Tree × Addr :=
  let child := t.nodes.size
  let linked := (newNode u t (some this) name).modify this fun n =>
    { n with childs := n.childs.insert name child }
  (if dir then linked.modify child fun n => { n with isDir := true } else linked, child)

/-! ## insert and find -/

/-- `Node::insert` -/
def insert (u : Uninit) (t : Tree) (this : Addr) (path : Bytes) : Tree × Addr :=
  match _h : splitSlash path with
  | (name, some path2) =>
      match t.child this name with
      -- an existing child keeps its `is_dir`
      | some child => insert u t child path2
      | none => insert u (t.newChild u this name true).1 (t.newChild u this name true).2 path2
  | (name, none) =>
      match t.child this name with
      | some child => (t, child)
      | none => t.newChild u this name false
termination_by path.length
decreasing_by all_goals exact splitSlash_rest_length _h

/-- The length of the array `pouet` in `Node::find`. -/
def pouetSize : Nat := 255

/-- `Node::find`.  A component with a '/' behind it is copied to `pouet`; its
    terminating NUL goes to the index that is its length. -/
def find (t : Tree) (this : Addr) (path : Bytes) : Except Fault (Option Addr) :=
  if path = [] then .ok (some this)
  else
    match _h : splitSlash path with
    | (name, some path2) =>
        if pouetSize ≤ name.length then .error (.stackSmash name.length)
        else
          match t.child this name with
          | some child => find t child path2
          | none => .ok none
    | (name, none) => .ok (t.child this name)
termination_by path.length
decreasing_by exact splitSlash_rest_length _h

/-- `Node::fullname`, in at most so many calls.  `none` is no answer of the
    source: the calls were too few, or a pointer led to no node. -/
def fullnameIn (t : Tree) : Nat → Addr → Option Bytes
  | 0, _ => none
  | calls + 1, this => do
      let n ← t.node? this
      match n.parent with
      | none => some n.sname
      | some p => do
          let pn ← t.node? p
          match pn.parent with
          | none => some n.sname
          | some _ => do
              let dir ← fullnameIn t calls p
              some (dir ++ slash :: n.sname)

/-- `Node::fullname`; climbing, it calls itself on no node twice. -/
def fullname (t : Tree) (this : Addr) : Option Bytes := fullnameIn t t.nodes.size this

/-! ## Component by component -/

/-- One level of `insert`: the child of that name, made when it is missing. -/
def enter (u : Uninit) (t : Tree) (this : Addr) (name : Bytes) (dir : Bool) : Tree × Addr :=
  match t.child this name with
  | some child => (t, child)
  | none => t.newChild u this name dir

/-- `insert` on the components of a path. -/
def insertPath (u : Uninit) (t : Tree) (this : Addr) : List Bytes → Tree × Addr
  | [] => (t, this)
  | name :: names =>
      insertPath u (t.enter u this name (!names.isEmpty)).1
        (t.enter u this name (!names.isEmpty)).2 names

/-- `insert` of a path without '/'. -/
theorem insert_leaf (u : Uninit) (t : Tree) (this : Addr) {path name : Bytes}
    (h : splitSlash path = (name, none)) : insert u t this path = t.enter u this name false := by
  rw [insert]
  split
  · rename_i name' path2 h'
    exact absurd (h.symm.trans h') (by simp)
  · rename_i name' h'
    obtain rfl : name = name' := (Prod.mk.inj (h.symm.trans h')).1
    rfl

/-- `insert` of a path with '/': the child of the first component takes the
    rest. -/
theorem insert_dir (u : Uninit) (t : Tree) (this : Addr) {path name rest : Bytes}
    (h : splitSlash path = (name, some rest)) :
    insert u t this path
      = insert u (t.enter u this name true).1 (t.enter u this name true).2 rest := by
  rw [insert]
  split
  · rename_i name' path2 h'
    obtain ⟨rfl, hrest⟩ := Prod.mk.inj (h.symm.trans h')
    obtain rfl := Option.some.inj hrest
    rw [enter]
    cases t.child this name with
    | some c => rfl
    | none => rfl
  · rename_i name' h'
    exact absurd (h.symm.trans h') (by simp)

theorem insert_eq (u : Uninit) (t : Tree) (this : Addr) (path : Bytes) :
    insert u t this path = insertPath u t this (components path) := by
  induction path using path_induction generalizing t this with
  | leaf path name h =>
      rw [insert_leaf u t this h, components_of_splitSlash_none h]
      rfl
  | dir path name rest h ih =>
      -- more components follow, so this level is a directory's
      have hmore : (!(components rest).isEmpty) = true := by
        simp [components_ne_nil rest]
      rw [insert_dir u t this h, ih, components_of_splitSlash_some h, insertPath, hmore]

/-! ## find, level by level -/

theorem find_nil (t : Tree) (this : Addr) : find t this [] = .ok (some this) := by
  rw [find, if_pos rfl]

/-- `find` of a path without '/' looks for a child of that name. -/
theorem find_leaf (t : Tree) (this : Addr) {path name : Bytes} (hne : path ≠ [])
    (h : splitSlash path = (name, none)) : find t this path = .ok (t.child this name) := by
  rw [find, if_neg hne]
  split
  · rename_i name' path2 h'
    exact absurd (h.symm.trans h') (by simp)
  · rename_i name' h'
    obtain rfl : name = name' := (Prod.mk.inj (h.symm.trans h')).1
    rfl

/-- `find` of a path with '/': the first component goes through `pouet`. -/
theorem find_dir (t : Tree) (this : Addr) {path name rest : Bytes}
    (h : splitSlash path = (name, some rest)) :
    find t this path =
      if pouetSize ≤ name.length then .error (.stackSmash name.length)
      else
        match t.child this name with
        | some child => find t child rest
        | none => .ok none := by
  have hne : path ≠ [] := by
    rw [splitSlash_some h]
    simp
  rw [find, if_neg hne]
  split
  · rename_i name' path2 h'
    obtain ⟨rfl, hrest⟩ := Prod.mk.inj (h.symm.trans h')
    obtain rfl := Option.some.inj hrest
    rfl
  · rename_i name' h'
    exact absurd (h.symm.trans h') (by simp)

/-- The labels `find` follows: the components, less an empty last one. -/
def lookupKeys (path : Bytes) : List Bytes :=
  if (components path).getLast (components_ne_nil path) = [] then (components path).dropLast
  else components path

theorem lookupKeys_of_concat {path : Bytes} {ks : List Bytes} {k : Bytes}
    (h : components path = ks ++ [k]) (hk : k ≠ []) : lookupKeys path = ks ++ [k] := by
  have hlast : (components path).getLast (components_ne_nil path) = k := by
    simp only [h, List.getLast_concat]
  rw [lookupKeys, hlast, if_neg hk, h]

/-- No component with a '/' behind it overruns `pouet`. -/
def Short (path : Bytes) : Prop := ∀ name ∈ (components path).dropLast, name.length < pouetSize

theorem lookupKeys_leaf {path name : Bytes} (hne : path ≠ [])
    (h : splitSlash path = (name, none)) : lookupKeys path = [name] := by
  have hpath : path = name := splitSlash_none h
  have hname : name ≠ [] := hpath ▸ hne
  simp only [lookupKeys, components_of_splitSlash_none h, List.getLast_singleton, if_neg hname]

theorem lookupKeys_dir {path name rest : Bytes} (h : splitSlash path = (name, some rest)) :
    lookupKeys path = name :: lookupKeys rest := by
  simp only [lookupKeys, components_of_splitSlash_some h,
    List.getLast_cons (components_ne_nil rest),
    List.dropLast_cons_of_ne_nil (components_ne_nil rest)]
  split_ifs <;> rfl

/-- Behind a first component that fits, the path has to be short as well. -/
theorem short_dir_iff {path name rest : Bytes} (h : splitSlash path = (name, some rest)) :
    Short path ↔ name.length < pouetSize ∧ Short rest := by
  have hdrop : (components path).dropLast = name :: (components rest).dropLast := by
    rw [components_of_splitSlash_some h, List.dropLast_cons_of_ne_nil (components_ne_nil rest)]
  rw [Short, Short, hdrop]
  exact List.forall_mem_cons

/-- On paths short enough, `find` walks the tree. -/
theorem find_eq_walk (t : Tree) (this : Addr) (path : Bytes) (hs : Short path) :
    find t this path = .ok (walk t.child this (lookupKeys path)) := by
  induction path using path_induction generalizing this with
  | leaf path name h =>
      by_cases hne : path = []
      · rw [hne, find_nil]
        rfl
      · rw [find_leaf t this hne h, lookupKeys_leaf hne h, walk_singleton]
  | dir path name rest h ih =>
      obtain ⟨hname, hrest⟩ := (short_dir_iff h).mp hs
      -- the component fits `pouet`; go on from its child, if there is one
      rw [find_dir t this h, if_neg (Nat.not_le.mpr hname), lookupKeys_dir h, walk_cons]
      cases t.child this name with
      | some c => exact ih c hrest
      | none => rfl

/-- `find` comes back with a node only from paths it can take in. -/
theorem short_of_find {t : Tree} {this a : Addr} {q : Bytes}
    (h : t.find this q = .ok (some a)) : Short q := by
  induction q using path_induction generalizing this with
  | leaf path name hsplit =>
      intro k hk
      rw [components_of_splitSlash_none hsplit] at hk
      exact absurd hk (by simp)
  | dir path name rest hsplit ih =>
      rw [find_dir t this hsplit] at h
      split_ifs at h with hlong
      cases hc : t.child this name with
      | none =>
          rw [hc] at h
          exact absurd (Except.ok.inj h) (by simp)
      | some c =>
          rw [hc] at h
          exact (short_dir_iff hsplit).mpr ⟨Nat.lt_of_not_le hlong, ih h⟩

/-- A path resolves to the node its labels lead to. -/
theorem walk_of_find {t : Tree} {this a : Addr} {q : Bytes} (h : t.find this q = .ok (some a)) :
    walk t.child this (lookupKeys q) = some a := by
  have hs : Short q := short_of_find h
  rw [find_eq_walk t this q hs] at h
  exact Except.ok.inj h

/-- A path that does not end in '/' is looked up by its components. -/
theorem lookupKeys_of_not_slash {path : Bytes} (hne : path ≠ [])
    (hend : path.getLast? ≠ some slash) : lookupKeys path = components path := by
  rw [lookupKeys, if_neg]
  rw [getLast_components_eq_nil]
  rintro (h | h)
  · exact hne h
  · exact hend h

end Tree
end Fuse7z
