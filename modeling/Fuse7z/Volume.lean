/-
  Fuse7z.Volume

  What the mounted archive is for: a file system over component lists, with
  no nodes, no addresses and no memory.

  A `Volume` is the archive with what was opened and what `utimens` set, path
  by path.  An `Answer` is a reply as far as the archive settles it; what it
  does not settle (the size of an item that reports none, the content of a
  stream that was overrun, the memory behind the end of a file, the times of a
  directory no item names) is left open there, and `Answer.Fits` says which
  replies it allows.
-/
import Fuse7z.Readdir
import Mathlib.Data.List.Dedup
import Mathlib.Data.List.Sort
import Mathlib.Logic.Function.Basic

namespace Fuse7z

open Lib Fuse7z.Tree Fuse7zLib7zip

/-! ## What an entry says -/

namespace Entry

def isDir : Entry → Bool
  | implied => true
  | item _ x => x.isDir

def size : Entry → Option UInt64
  | implied => none
  | item _ x => x.size

def aTime : Entry → Option UInt64
  | implied => none
  | item _ x => x.aTime

/-- A missing time is the one in front of it. -/
def cTime : Entry → Option UInt64
  | implied => none
  | item _ x => x.cTime.or x.aTime

def mTime : Entry → Option UInt64
  | implied => none
  | item _ x => x.mTime.or (x.cTime.or x.aTime)

end Entry

/-! ## The state -/

/-- What is behind a path. -/
inductive Contents where
  | closed
  /-- a stream, of which the archive does not say what is in it -/
  | unsettled
  | bytes (c : Bytes)
deriving DecidableEq, Repr

structure Volume where
  archive : Archive
  euid : UInt32
  egid : UInt32
  contents : List Bytes → Contents
  /-- the seconds of the modification time `utimens` set last -/
  mtime : List Bytes → Option Int64

/-- The archive as it is mounted: nothing is open, no time is set. -/
def Volume.mount (archive : Archive) (euid egid : UInt32) : Volume :=
  { archive, euid, egid, contents := fun _ => .closed, mtime := fun _ => none }

/-! ## Answers -/

/-- `struct stat`, as far as the archive settles it. -/
structure Attr where
  mode : UInt32
  nlink : UInt64
  uid : UInt32
  gid : UInt32
  size : Option Int64
  atime : Option Timespec
  ctime : Option Timespec
  mtimeSec : Option Int64
  mtimeNsec : Option Int64
deriving DecidableEq, Repr

/-- The number of blocks a file of that size has. -/
def blocksOf (size : Int64) : Int64 := (size + standardBlockSize - 1) / standardBlockSize

/-- A `stat` is what the attributes say. -/
structure Attr.Fits (a : Attr) (st : Stat) : Prop where
  mode : st.stMode = a.mode
  nlink : st.stNlink = a.nlink
  uid : st.stUid = a.uid
  gid : st.stGid = a.gid
  blksize : st.stBlksize = standardBlockSize
  blocks : st.stBlocks = blocksOf st.stSize
  size : ∀ s, a.size = some s → st.stSize = s
  atime : ∀ t, a.atime = some t → st.stAtim = t
  ctime : ∀ t, a.ctime = some t → st.stCtim = t
  mtimeSec : ∀ s, a.mtimeSec = some s → st.stMtim.tvSec = s
  mtimeNsec : ∀ s, a.mtimeNsec = some s → st.stMtim.tvNsec = s

/-- A reply as far as the archive settles it. -/
inductive Answer where
  /-- this reply -/
  | reply (r : Reply)
  | attr (a : Attr)
  /-- a return value, and a handle on the path -/
  | opened (r : Int32) (ds : List Bytes)
  /-- the same for a file that reports no size: what the missing size asks of
      memory and leaves of room decides -/
  | openedOrNot (ds : List Bytes)
  /-- these bytes -/
  | data (size : UInt64) (bytes : Bytes)
  /-- so many bytes, the first of which are these, or no memory to load the
      others from -/
  | dataOrNot (size : UInt64) (front : Bytes)

/-- The replies an answer allows; `names` tells the path of a handle. -/
def Answer.Fits (names : Addr → Option (List Bytes)) : Answer → Reply → Prop
  | .reply r, r' => r' = r
  | .attr a, r' => ∃ st, r' = .attr st ∧ a.Fits st
  | .opened r ds, r' => ∃ fh, r' = .opened r fh ∧ names fh = some ds
  | .openedOrNot ds, r' =>
      r' = .fault (.uncaught .lengthError) ∨ r' = .fault .segfault ∨
        ∃ r fh, r' = .opened r fh ∧ names fh = some ds ∧ (r = 0 ∨ r = -enomem)
  | .data size bytes, r' => ∃ d, r' = .data d ∧ d.ret = size.toUInt32.toInt32 ∧ d.data = bytes
  | .dataOrNot size front, r' =>
      r' = .fault .segfault ∨
        ∃ d, r' = .data d ∧ d.ret = size.toUInt32.toInt32 ∧ d.data.length = size.toNat ∧
          front <+: d.data

namespace Volume

/-! ## Looking up -/

/-- What the archive has at a path. -/
def entry (v : Volume) (ds : List Bytes) : Option Entry := index v.archive.items ds

/-- What a path resolves to.  A name of 255 bytes or more with a '/' behind it
    overruns the array it is copied to, if the lookup gets that far. -/
def resolve (v : Volume) : Bytes → Except Fault (Option (List Bytes × Entry))
  | [] => .ok none
  | _ :: q =>
      match (components q).dropLast.findIdx? fun name => pouetSize ≤ name.length with
      | some i =>
          if (v.entry ((components q).take i)).isSome then
            .error (.stackSmash ((components q)[i]?.getD []).length)
          else .ok none
      | none => .ok ((v.entry (lookupKeys q)).map fun e => (lookupKeys q, e))

/-- Answer for what is at the path: the fault of looking it up, -ENOENT, or
    what `k` makes of it. -/
def «at» (v : Volume) (path : Bytes) (k : List Bytes → Entry → Answer × Volume) :
    Answer × Volume :=
  match v.resolve path with
  | .error f => (.reply (.fault f), v)
  | .ok none => (.reply (.ret (-enoent)), v)
  | .ok (some (ds, e)) => k ds e

/-- The component behind `ds`, in a path that begins with `ds`. -/
def nextName (ds p : List Bytes) : Option Bytes := if ds <+: p then p[ds.length]? else none

/-- The names in a directory, in the order of `strcmp`. -/
def children (v : Volume) (ds : List Bytes) : List Bytes :=
  (v.archive.items.filterMap fun x => nextName ds x.path).dedup.insertionSort
    fun a b => ¬ ltstr b a

/-! ## The callbacks -/

/-- The attributes of what is at a path. -/
def attr (v : Volume) (ds : List Bytes) (e : Entry) : Attr where
  mode := if e.isDir then dirMode else regMode
  nlink := if e.isDir then 2 + (v.children ds).length.toUInt64 else 1
  uid := v.euid
  gid := v.egid
  size :=
    if e.isDir then some (v.children ds).length.toUInt64.toInt64 else e.size.map UInt64.toInt64
  atime := e.aTime.map toTimespec
  ctime := e.cTime.map toTimespec
  mtimeSec := (v.mtime ds).or (e.mTime.map fun t => (toTimespec t).tvSec)
  mtimeNsec := e.mTime.map fun t => (toTimespec t).tvNsec

/-- The bytes an extraction of item `i` brings. -/
def brings (env : OpenEnv) (i : Nat) : Bytes :=
  if env.callbackOk then delivered (env.codec (UInt32.ofNat i)).writes else []

/-- What `open` puts behind the path of item `i`. -/
def opening (env : OpenEnv) (i : Nat) (size : Option UInt64) : Contents :=
  match size with
  | none => .unsettled
  | some s =>
      if env.alloc.Serves s then
        if (brings env i).length ≤ s.toNat then .bytes (filled 0 s.toNat (brings env i))
        else .unsettled
      else .bytes []

/-- What `open` of item `i` answers when its stream got memory. -/
def openAnswer (env : OpenEnv) (ds : List Bytes) (i : Nat) (size : Option UInt64) : Answer :=
  match size with
  | none => .openedOrNot ds
  | some s =>
      if env.alloc.Serves s then
        if env.callbackOk = false then .opened (-enomem) ds
        else if (brings env i).length ≤ s.toNat ∨ (s ≠ 0 ∧ env.overrunOk = true) then .opened 0 ds
        else .reply (.fault .segfault)
      else if env.alloc.maxSize < s.toNat then .reply (.fault (.uncaught .lengthError))
      else .opened (-enomem) ds

def setContents (v : Volume) (ds : List Bytes) (c : Contents) : Volume :=
  { v with contents := Function.update v.contents ds c }

def setMtime (v : Volume) (ds : List Bytes) (sec : Int64) : Volume :=
  { v with mtime := Function.update v.mtime ds (some sec) }

/-- `open` at what is at `ds`. -/
def openAt (v : Volume) (env : OpenEnv) (ds : List Bytes) : Entry → Answer × Volume
  | .implied => (.reply (.ret (-eisdir)), v)
  | .item i x =>
      if x.isDir then (.reply (.ret (-eisdir)), v)
      else if env.newOk then
        (openAnswer env ds i x.size, v.setContents ds (opening env i x.size))
      else (.opened (-enomem) ds, v)

/-- `read` of what is behind a path. -/
def readAt (size : UInt64) (offset : Int64) : Contents → Answer
  | .closed => .reply (.fault .nullDeref)
  | .unsettled => .dataOrNot size []
  | .bytes c =>
      let front := window c offset.toUInt64.toNat size.toNat
      if size = 0 ∨ offset.toUInt64.toNat + size.toNat ≤ c.length then .data size front
      else .dataOrNot size front

/-- One callback, `names` telling the path of a handle. -/
def step (names : Addr → Option (List Bytes)) (v : Volume) : Callback → Answer × Volume
  | .getattr path => v.at path fun ds e => (.attr (v.attr ds e), v)
  | .readdir path => v.at path fun ds _ => (.reply (.names ([46] :: [46, 46] :: v.children ds)), v)
  | .statfs err st buf => (.reply (fuse7zStatfs err st buf), v)
  | .open path env => v.at path (v.openAt env)
  | .read fh size offset _ =>
      match names fh with
      | none => (.reply (.fault .danglingPointer), v)
      | some ds => (readAt size offset (v.contents ds), v)
  | .release fh =>
      match names fh with
      | none => (.reply (.fault .danglingPointer), v)
      | some ds => (.reply (.ret 0), v.setContents ds .closed)
  | .utimens path _ tv1 => v.at path fun ds _ => (.reply (.ret 0), v.setMtime ds tv1.tvSec)
  | .create | .write | .ftruncate | .truncate | .unlink | .rmdir | .mkdir | .rename | .setxattr
  | .getxattr | .listxattr | .removexattr | .chmod | .chown => (.reply (.ret (-enotsup)), v)
  | .flush | .fsync | .fsyncdir | .opendir | .releasedir | .access => (.reply (.ret 0), v)

/-! ## Children -/

theorem nextName_eq_some_iff {ds p : List Bytes} {c : Bytes} :
    nextName ds p = some c ↔ ds ++ [c] <+: p := by
  rw [nextName]
  refine ⟨?_, ?_⟩
  · intro h
    split_ifs at h with hpre
    obtain ⟨rest, rfl⟩ := hpre
    rw [List.getElem?_append_right (Nat.le_refl _), Nat.sub_self] at h
    cases rest with
    | nil => exact absurd h (by simp)
    | cons k rest =>
        obtain rfl := Option.some.inj h
        exact ⟨rest, by simp⟩
  · rintro ⟨rest, rfl⟩
    have hpre : ds <+: ds ++ [c] ++ rest := ⟨[c] ++ rest, by simp⟩
    rw [if_pos hpre]
    simp

theorem mem_children_iff {v : Volume} {ds : List Bytes} {c : Bytes} :
    c ∈ v.children ds ↔ ∃ x ∈ v.archive.items, ds ++ [c] <+: x.path := by
  rw [children, List.mem_insertionSort, List.mem_dedup, List.mem_filterMap]
  simp only [nextName_eq_some_iff]

theorem children_nodup (v : Volume) (ds : List Bytes) : (v.children ds).Nodup := by
  rw [children, (List.perm_insertionSort _ _).nodup_iff]
  exact List.nodup_dedup _

/-- Not to stand behind: the order the names are sorted by. -/
instance : Std.Total fun a b : Bytes => ¬ ltstr b a where
  total a b := by
    by_contra h
    rw [not_or, not_not, not_not] at h
    exact irrefl a (IsTrans.trans a b a h.2 h.1)

instance : IsTrans Bytes fun a b => ¬ ltstr b a where
  trans a b c hab hbc hca := by
    -- `c` is in front of `a`, so it would be in front of `b` as well
    rcases trichotomous_of ltstr a b with h | rfl | h
    · exact hbc (IsTrans.trans c a b hca h)
    · exact hbc hca
    · exact hab h

/-- The names ascend. -/
theorem children_ascending (v : Volume) (ds : List Bytes) : (v.children ds).Pairwise ltstr := by
  have hsorted : (v.children ds).Pairwise fun a b => ¬ ltstr b a := List.pairwise_insertionSort _ _
  have hboth := hsorted.and (v.children_nodup ds)
  apply hboth.imp
  rintro a b ⟨hba, hne⟩
  rcases trichotomous_of ltstr a b with h | h | h
  · exact h
  · exact absurd h hne
  · exact absurd h hba

/-- Ascending names are determined by which they are. -/
theorem eq_children {v : Volume} {ds : List Bytes} {names : List Bytes}
    (hsorted : names.Pairwise ltstr)
    (hmem : ∀ c, c ∈ names ↔ ∃ x ∈ v.archive.items, ds ++ [c] <+: x.path) :
    names = v.children ds := by
  have hiff : ∀ c, c ∈ names ↔ c ∈ v.children ds := by
    intro c
    rw [hmem, mem_children_iff]
  exact hsorted.eq_of_mem_iff (v.children_ascending ds) hiff

end Volume
end Fuse7z
