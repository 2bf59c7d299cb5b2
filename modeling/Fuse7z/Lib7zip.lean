/-
  Fuse7z.Lib7zip

  `Fuse7z_lib7zip`: the mounted archive.  The constructor indexes the items
  of the archive into the node tree; `open` extracts an item into a stream
  hung at its node, `read` copies out of that stream, `close` deletes it.

  What lib7zip hands over is a parameter: the items of the archive, and at
  every `open` what the format handler does to the stream.  So is the memory
  the constructor reads before writing it (`Uninit`).
-/
import Fuse7z.Node

namespace Fuse7z

open Lib

/-! ## The archive -/

/-- `C7ZipArchiveItem`: a property is `none` when its getter returns false and
    leaves the output argument as it was. -/
structure Item where
  fullPath : List WChar
  isDir : Bool
  size : Option UInt64
  aTime : Option UInt64
  cTime : Option UInt64
  mTime : Option UInt64
deriving DecidableEq, Repr

/-- An item that reports its size and no times. -/
def Item.sized (fullPath : List WChar) (isDir : Bool) (size : UInt64) : Item :=
  { fullPath, isDir, size := some size, aTime := none, cTime := none, mTime := none }

/-- `C7ZipArchive`; `GetItemCount` reports an `unsigned int`. -/
structure Archive where
  items : List Item
  count_lt : items.length < 2 ^ 32

/-- What a format handler does when it extracts an item: the `Write` calls it
    makes on the stream, and whether it reports success.  That is all it does
    to the stream; handlers that `Seek` or `SetSize` it are left out here.
    What runs out of memory inside the handler (also a `GetStream`, for its
    wrap) comes back as a failure: `COM_TRY_END` makes it E_OUTOFMEMORY. -/
structure Extraction where
  writes : List Chunk
  ok : Bool

/-- `C7ZipArchiveImpl::Extract` with the handler `codec` behind it, once
    `new CArchiveExtractCallback` got its memory. -/
def Archive.extract (archive : Archive) (codec : UInt32 → Extraction) (index : UInt32) :
    Extraction :=
  if index.toNat < archive.items.length then codec index else { writes := [], ok := false }

/-! ## Times -/

def secpy : UInt64 := 31536000

def gain : UInt64 := 10000000

/-- The ticks from the FILETIME epoch to the Unix epoch. -/
def bias : UInt64 := secpy * gain * 369 + secpy * 2438356 + 5184000

/-- A FILETIME as the constructor stores it, in unsigned 64-bit arithmetic. -/
def toTimespec (time : UInt64) : Timespec :=
  { tvSec := ((time - bias) / gain).toInt64
    tvNsec := ((time - bias) % gain * 100).toInt64 }

/-! ## The constructor -/

/-- `node->id = i`, an `unsigned int` stored in an `int`. -/
def idOf (i : Nat) : Int32 := (UInt32.ofNat i).toInt32

/-- The index `open` passes to `Extract`, the `int` read back as unsigned. -/
def Node.extractId (n : Node) : UInt32 := n.id.toUInt32

/-- What a turn of the indexing loop assigns to the node of its item.  A
    property that is missing leaves the local it would have been read into as
    it was: `size` is declared for itself, `time` once for all three times. -/
def setItem (u : Uninit) (i : Nat) (item : Item) (n : Node) : Node :=
  let size := item.size.getD (u.size i)
  let atime := item.aTime.getD (u.time i)
  let ctime := item.cTime.getD atime
  let mtime := item.mTime.getD ctime
  { n with
    id := idOf i
    isDir := item.isDir
    stat := { n.stat with
      stSize := size.toInt64
      stAtim := toTimespec atime
      stCtim := toTimespec ctime
      stMtim := toTimespec mtime } }

/-- One turn of the indexing loop. -/
def indexItem (u : Uninit) (root : Addr) (i : Nat) (item : Item) (t : Tree) : Tree :=
  let r := t.insert u root (narrow item.fullPath)
  r.1.modify r.2 (setItem u i item)

/-- The indexing loop from item `i` on. -/
def indexLoop (u : Uninit) (root : Addr) : Nat → List Item → Tree → Tree
  | _, [], t => t
  | i, item :: items, t => indexLoop u root (i + 1) items (indexItem u root i item t)

/-- The address of the root node, the first one constructed. -/
def rootAddr : Addr := 0

/-- `root_node = new Node(NULL, ""); root_node->is_dir = true;` -/
def initTree (u : Uninit) : Tree :=
  (Tree.empty.newNode u none []).modify rootAddr fun n => { n with isDir := true }

/-- The tree after the indexing loop has run over `items`. -/
def indexTree (u : Uninit) (items : List Item) : Tree :=
  indexLoop u rootAddr 0 items (initTree u)

/-- The mounted archive.  `nextStream` is the address the next
    `new Fuse7zOutStream` returns. -/
structure Fuse7zLib7zip where
  tree : Tree
  rootNode : Addr
  archive : Archive
  nextStream : Nat
  euid : UInt32
  egid : UInt32

/-- `Fuse7z_lib7zip::Fuse7z_lib7zip`, once the archive is opened. -/
def mount (u : Uninit) (archive : Archive) (euid egid : UInt32) : Fuse7zLib7zip :=
  { tree := indexTree u archive.items
    rootNode := rootAddr
    archive
    nextStream := 0
    euid
    egid }

namespace Fuse7zLib7zip

/-! ## open, close, read -/

def node? (fs : Fuse7zLib7zip) (a : Addr) : Option Node := fs.tree.node? a

/-- `node->buffer` -/
def buffer? (fs : Fuse7zLib7zip) (a : Addr) : Option Fuse7zOutStream :=
  (fs.node? a).bind Node.buffer

/-- `node->buffer = b` -/
def setBuffer (fs : Fuse7zLib7zip) (a : Addr) (b : Option Fuse7zOutStream) : Fuse7zLib7zip :=
  { fs with tree := fs.tree.modify a fun n => { n with buffer := b } }

/-- What one `open` meets outside the program. -/
structure OpenEnv where
  /-- whether `new Fuse7zOutStream` gets its memory -/
  newOk : Bool
  alloc : Allocator
  /-- whether `new CArchiveExtractCallback` gets its memory -/
  callbackOk : Bool
  /-- whether bytes stored behind the memory of the vector do no harm; when
      they do, the model gives the program up there -/
  overrunOk : Bool
  codec : UInt32 → Extraction

/-- How a call of `open` ends. -/
inductive OpenOutcome where
  | returned
  | threw (e : Exn)
  | crashed (f : Fault)
deriving DecidableEq, Repr

/-- `new CArchiveExtractCallback` throws in `Extract`, which gets there when the
    index is one of the array. -/
def callbackThrows (fs : Fuse7zLib7zip) (n : Node) (env : OpenEnv) : Bool :=
  n.extractId.toNat < fs.archive.items.length && !env.callbackOk

/-- `Fuse7z_lib7zip::open` on the node at `a`, which is `n`. -/
def openNode (fs : Fuse7zLib7zip) (a : Addr) (n : Node) (env : OpenEnv) :
    OpenOutcome × Fuse7zLib7zip :=
  if !env.newOk then (.threw .badAlloc, fs)
  else
    let stream := Fuse7zOutStream.new fs.nextStream
    let fs1 := { fs.setBuffer a (some stream) with nextStream := fs.nextStream + 1 }
    match stream.setSize env.alloc n.stat.stSize.toUInt64 with
    | .error e => (.threw e, fs1)
    | .ok sized =>
        if fs.callbackThrows n env then
          -- the stream stays at the node, all zeros
          (.threw .badAlloc, fs1.setBuffer a (some sized))
        else
          -- the answer of `Extract` is dropped
          match sized.fill env.overrunOk (fs.archive.extract env.codec n.extractId).writes with
          | (.ok (), filled) => (.returned, fs1.setBuffer a (some filled))
          | (.error f, filled) => (.crashed f, fs1.setBuffer a (some filled))

/-- `Fuse7z_lib7zip::close` on the node at `a`. -/
def closeNode (fs : Fuse7zLib7zip) (a : Addr) : Fuse7zLib7zip := fs.setBuffer a none

/-- What a `read` answers: its return value, the bytes it copies to the
    caller's buffer, and the indices of the vector it loads them from. -/
structure ReadReply where
  ret : Int32
  data : Bytes
  loads : List Nat
deriving DecidableEq, Repr

/-- `memcpy` from `&buffer[off]`, of so many bytes; `mem i` is what memory holds
    at `&buffer[i]` for an `i` past the end of the vector, `none` when there is
    no memory. -/
def loadBytes (mem : Nat → Option Byte) (buffer : Bytes) (off : Nat) : Nat → Option Bytes
  | 0 => some []
  | n + 1 => do
      let byte ← (buffer[off]?).or (mem off)
      let rest ← loadBytes mem buffer (off + 1) n
      some (byte :: rest)

/-- `Fuse7z_lib7zip::read` on the node at `a`. -/
def readNode (fs : Fuse7zLib7zip) (a : Addr) (size : UInt64) (offset : Int64)
    (mem : Nat → Option Byte) : Except Fault ReadReply :=
  match fs.node? a with
  | none => .error .danglingPointer
  | some n =>
      match n.buffer with
      | none => .error .nullDeref
      | some stream =>
          let off := offset.toUInt64.toNat
          match loadBytes mem stream.buffer off size.toNat with
          | none => .error .segfault
          | some data =>
              .ok
                { ret := size.toUInt32.toInt32
                  data
                  loads := List.range' off size.toNat }

end Fuse7zLib7zip
end Fuse7z
