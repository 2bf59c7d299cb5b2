/-
  Fuse7z.Callbacks

  The FUSE callbacks of fuse-7z, and the mounted file system as a machine
  that answers them one at a time, as `fuse_loop` calls them.

  `step` is total: a callback that crashes answers with the `Fault` and leaves
  the state as it was when it crashed.  A run may go on after a fault; this
  only adds runs.
-/
import Fuse7z.Lib7zip

namespace Fuse7z

open Lib Fuse7zLib7zip

/-! ## Constants -/

def enoent : Int32 := 2
def eio : Int32 := 5
def enomem : Int32 := 12
def eisdir : Int32 := 21
def enotsup : Int32 := 95

/-- `S_IFDIR | 0755` -/
def dirMode : UInt32 := 0o40755

/-- `S_IFREG | 0644` -/
def regMode : UInt32 := 0o100644

/-- `STANDARD_BLOCK_SIZE` -/
def standardBlockSize : Int64 := 512

/-! ## Calls and replies -/

/-- `struct statvfs`, the fields `fuse7z_statfs` reads or writes. -/
structure Statvfs where
  fBsize : UInt64
  fFrsize : UInt64
  fBlocks : UInt64
  fBfree : UInt64
  fBavail : UInt64
  fFiles : UInt64
  fFfree : UInt64
  fFavail : UInt64
  fNamemax : UInt64
deriving DecidableEq, Repr

/-- A call of a callback, with the arguments it looks at.  A handle `fh` is
    the address of the node `fuse7z_open` stored in `fi->fh`. -/
inductive Callback where
  | getattr (path : Bytes)
  | readdir (path : Bytes)
  | statfs (err : Int32) (st buf : Statvfs)
  | open (path : Bytes) (env : OpenEnv)
  | read (fh : Addr) (size : UInt64) (offset : Int64) (mem : Nat → Option Byte)
  | release (fh : Addr)
  | utimens (path : Bytes) (tv0 tv1 : Timespec)
  | create
  | write
  | ftruncate
  | truncate
  | unlink
  | rmdir
  | mkdir
  | rename
  | setxattr
  | getxattr
  | listxattr
  | removexattr
  | chmod
  | chown
  | flush
  | fsync
  | fsyncdir
  | opendir
  | releasedir
  | access

/-- What the caller of a callback sees. -/
inductive Reply where
  /-- a return value and nothing else -/
  | ret (r : Int32)
  /-- 0, and `*stbuf` -/
  | attr (stbuf : Stat)
  /-- 0, and the names given to `filler` in order -/
  | names (names : List Bytes)
  /-- 0, and `*buf` -/
  | vfs (buf : Statvfs)
  /-- a return value, after `fi->fh` was set -/
  | opened (r : Int32) (fh : Addr)
  | data (r : ReadReply)
  | fault (f : Fault)
deriving DecidableEq, Repr

/-- The node a path resolves to, as `getattr`, `readdir`, `open` and `utimens`
    look it up: `root_node->find(path + 1)`, no node for the empty path. -/
def lookup (fs : Fuse7zLib7zip) : Bytes → Except Fault (Option Addr)
  | [] => .ok none
  | _ :: path => fs.tree.find fs.rootNode path

/-! ## The callbacks that answer -/

/-- `*stbuf` of `fuse7z_getattr` at a node. -/
def attrOf (fs : Fuse7zLib7zip) (n : Node) : Stat :=
  let copied := n.stat
  let typed :=
    if n.isDir then
      { copied with
        stMode := dirMode
        stNlink := 2 + n.childs.size.toUInt64
        stSize := n.childs.size.toUInt64.toInt64 }
    else { copied with stMode := regMode, stNlink := 1 }
  { typed with
    stBlksize := standardBlockSize
    stBlocks := (typed.stSize + standardBlockSize - 1) / standardBlockSize
    stUid := fs.euid
    stGid := fs.egid }

def fuse7zGetattr (fs : Fuse7zLib7zip) (path : Bytes) : Reply :=
  match lookup fs path with
  | .error f => .fault f
  | .ok none => .ret (-enoent)
  | .ok (some a) =>
      match fs.node? a with
      | none => .fault .danglingPointer
      | some n => .attr (attrOf fs n)

/-- The names of the children, in the order of the map. -/
def childNames (fs : Fuse7zLib7zip) (n : Node) : Except Fault (List Bytes) :=
  n.childs.entries.mapM fun e =>
    match fs.node? e.2 with
    | none => .error .danglingPointer
    | some c => .ok c.sname

def fuse7zReaddir (fs : Fuse7zLib7zip) (path : Bytes) : Reply :=
  match lookup fs path with
  | .error f => .fault f
  | .ok none => .ret (-enoent)
  | .ok (some a) =>
      match fs.node? a with
      | none => .fault .danglingPointer
      | some n =>
          match childNames fs n with
          | .error f => .fault f
          -- "." and ".." come first
          | .ok names => .names ([46] :: [46, 46] :: names)

/-- `fuse7z_statfs`, when `statvfs` on the working directory returns `err` and
    fills in `st`; `buf` is what the caller's buffer holds before. -/
def fuse7zStatfs (err : Int32) (st buf : Statvfs) : Reply :=
  if err ≠ 0 then .ret (-err)
  else
    .vfs { buf with
      fBavail := st.fFrsize * st.fBavail
      fBfree := st.fFrsize * st.fBavail
      fBsize := 1
      fBlocks := st.fFrsize * st.fBavail + 0
      fFfree := 0
      fFavail := 0
      fFiles := -1
      fNamemax := 255 }

/-- The catch clauses of `fuse7z_open`; `std::length_error` has none. -/
def openReply (fh : Addr) : OpenOutcome → Reply
  | .returned => .opened 0 fh
  | .threw .badAlloc => .opened (-enomem) fh
  | .threw .runtimeError => .opened (-eio) fh
  | .threw .lengthError => .fault (.uncaught .lengthError)
  | .crashed f => .fault f

def fuse7zOpen (fs : Fuse7zLib7zip) (path : Bytes) (env : OpenEnv) : Reply × Fuse7zLib7zip :=
  match lookup fs path with
  | .error f => (.fault f, fs)
  | .ok none => (.ret (-enoent), fs)
  | .ok (some a) =>
      match fs.node? a with
      | none => (.fault .danglingPointer, fs)
      | some n =>
          if n.isDir then (.ret (-eisdir), fs)
          else (openReply a (fs.openNode a n env).1, (fs.openNode a n env).2)

def fuse7zRead (fs : Fuse7zLib7zip) (fh : Addr) (size : UInt64) (offset : Int64)
    (mem : Nat → Option Byte) : Reply :=
  match fs.readNode fh size offset mem with
  | .error f => .fault f
  | .ok r => .data r

def fuse7zRelease (fs : Fuse7zLib7zip) (fh : Addr) : Reply × Fuse7zLib7zip :=
  match fs.node? fh with
  | none => (.fault .danglingPointer, fs)
  | some _ => (.ret 0, fs.closeNode fh)

/-- `node->stat.st_mtime = tv[1].tv_sec` -/
def setMtime (tv1 : Timespec) (n : Node) : Node :=
  { n with stat := { n.stat with stMtim := { n.stat.stMtim with tvSec := tv1.tvSec } } }

def fuse7zUtimens (fs : Fuse7zLib7zip) (path : Bytes) (_tv0 tv1 : Timespec) :
    Reply × Fuse7zLib7zip :=
  match lookup fs path with
  | .error f => (.fault f, fs)
  | .ok none => (.ret (-enoent), fs)
  | .ok (some a) => (.ret 0, { fs with tree := fs.tree.modify a (setMtime tv1) })

/-! ## The callbacks that refuse, and those that agree -/

/-- `return -ENOTSUP;` -/
def refuse : Reply := .ret (-enotsup)

/-- `return 0;` -/
def agree : Reply := .ret 0

def fuse7zCreate : Reply := refuse
def fuse7zWrite : Reply := refuse
def fuse7zFtruncate : Reply := refuse
def fuse7zTruncate : Reply := refuse
def fuse7zUnlink : Reply := refuse
def fuse7zRmdir : Reply := refuse
def fuse7zMkdir : Reply := refuse
def fuse7zRename : Reply := refuse
def fuse7zSetxattr : Reply := refuse
def fuse7zGetxattr : Reply := refuse
def fuse7zListxattr : Reply := refuse
def fuse7zRemovexattr : Reply := refuse
def fuse7zChmod : Reply := refuse
def fuse7zChown : Reply := refuse
def fuse7zFlush : Reply := agree
def fuse7zFsync : Reply := agree
def fuse7zFsyncdir : Reply := agree
def fuse7zOpendir : Reply := agree
def fuse7zReleasedir : Reply := agree
def fuse7zAccess : Reply := agree

/-! ## The machine -/

/-- One callback. -/
def step (fs : Fuse7zLib7zip) : Callback → Reply × Fuse7zLib7zip
  | .getattr path => (fuse7zGetattr fs path, fs)
  | .readdir path => (fuse7zReaddir fs path, fs)
  | .statfs err st buf => (fuse7zStatfs err st buf, fs)
  | .open path env => fuse7zOpen fs path env
  | .read fh size offset mem => (fuse7zRead fs fh size offset mem, fs)
  | .release fh => fuse7zRelease fs fh
  | .utimens path tv0 tv1 => fuse7zUtimens fs path tv0 tv1
  | .create => (fuse7zCreate, fs)
  | .write => (fuse7zWrite, fs)
  | .ftruncate => (fuse7zFtruncate, fs)
  | .truncate => (fuse7zTruncate, fs)
  | .unlink => (fuse7zUnlink, fs)
  | .rmdir => (fuse7zRmdir, fs)
  | .mkdir => (fuse7zMkdir, fs)
  | .rename => (fuse7zRename, fs)
  | .setxattr => (fuse7zSetxattr, fs)
  | .getxattr => (fuse7zGetxattr, fs)
  | .listxattr => (fuse7zListxattr, fs)
  | .removexattr => (fuse7zRemovexattr, fs)
  | .chmod => (fuse7zChmod, fs)
  | .chown => (fuse7zChown, fs)
  | .flush => (fuse7zFlush, fs)
  | .fsync => (fuse7zFsync, fs)
  | .fsyncdir => (fuse7zFsyncdir, fs)
  | .opendir => (fuse7zOpendir, fs)
  | .releasedir => (fuse7zReleasedir, fs)
  | .access => (fuse7zAccess, fs)

end Fuse7z
