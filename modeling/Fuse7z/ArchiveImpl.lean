/-
  Fuse7z.ArchiveImpl

  `C7ZipArchiveImpl`, the archive lib7zip hands to fuse-7z, over the
  `IInArchive` of a format handler, and the constructor's loop over it.

  The items are kept in a vector that is indexed with `(int)index`.  From
  2^31 on that is in front of the vector: the constructor gets through exactly
  the archives with no more items than that (`load_of_items`), and then the
  mounted file system is the one of the items as their properties describe
  them (`load_is_mount`).
-/
import Fuse7z.ArchiveItem

namespace Fuse7z

open Lib

/-! ## The archive of a handler -/

/-- `IInArchive` of an archive that is open, as far as it is asked for its
    items.  The handler answers the same whenever it is asked. -/
structure InArchive where
  getNumberOfItems : Option UInt32
  getProperty : UInt32 → GetHandlerProperty
  getArchiveProperty : GetHandlerProperty

/-- `C7ZipArchiveImpl`; an item of `m_ArchiveItems` is its `m_nIndex`. -/
structure ArchiveImpl where
  pInArchive : InArchive
  archiveItems : List UInt32
  count_lt : archiveItems.length < 2 ^ 32

/-- The loop of `C7ZipArchiveImpl::Initialize`, with `k` turns to go. -/
def initializeLoop : Nat → UInt32 → List UInt32 → List UInt32
  | 0, _, archiveItems => archiveItems
  | k + 1, i, archiveItems => initializeLoop k (i + 1) (archiveItems ++ [i])

/-- The items are numbered from 0. -/
theorem initializeLoop_eq (k : Nat) (i : Nat) (archiveItems : List UInt32) :
    initializeLoop k (UInt32.ofNat i) archiveItems =
      archiveItems ++ (List.range' i k).map UInt32.ofNat := by
  induction k generalizing i archiveItems with
  | zero =>
      rw [initializeLoop, List.range'_zero, List.map_nil, List.append_nil]
  | succ k ih =>
      have hnext : UInt32.ofNat i + 1 = UInt32.ofNat (i + 1) := (UInt32.ofNat_add i 1).symm
      rw [initializeLoop, hnext, ih, List.range'_succ, List.map_cons, List.append_assoc,
        List.singleton_append]

theorem initializeLoop_zero (k : Nat) :
    initializeLoop k 0 [] = (List.range k).map UInt32.ofNat := by
  have hloop : initializeLoop k 0 [] = [] ++ (List.range' 0 k).map UInt32.ofNat :=
    initializeLoop_eq k 0 []
  rw [hloop, List.nil_append, List.range_eq_range']

/-- `Create7ZipArchive`; `none` is false. -/
def create7ZipArchive (pInArchive : InArchive) : Option ArchiveImpl :=
  match pInArchive.getNumberOfItems with
  | none => none
  | some numItems =>
      some {
        pInArchive
        archiveItems := initializeLoop numItems.toNat 0 []
        count_lt := by
          rw [initializeLoop_zero, List.length_map, List.length_range]
          exact numItems.toNat_lt }

/-- What can go wrong while the items are read. -/
inductive LoadFault where
  /-- `m_ArchiveItems[(int)index]` outside the vector -/
  | outOfBounds (index : UInt32)
  /-- an `int` that is thrown and not caught -/
  | thrown (n : Nat)
deriving DecidableEq, Repr

namespace ArchiveImpl

/-- `C7ZipArchiveImpl::GetItemCount` -/
def getItemCount (impl : ArchiveImpl) : UInt32 := UInt32.ofNat impl.archiveItems.length

/-- `m_ArchiveItems[(int)index]`; the subscript is converted to `size_t`. -/
def itemAt (impl : ArchiveImpl) (index : UInt32) : Except LoadFault UInt32 :=
  match impl.archiveItems[index.toInt32.toInt64.toUInt64.toNat]? with
  | some item => .ok item
  | none => .error (.outOfBounds index)

/-- `C7ZipArchiveImpl::GetItemInfo` -/
def getItemInfo (impl : ArchiveImpl) (index : UInt32) : Except LoadFault (Option UInt32) :=
  if index.toNat < impl.archiveItems.length then (impl.itemAt index).map some else .ok none

/-- `C7ZipArchiveImpl::Extract`, which asks the handler for the one index of
    the item, once `new CArchiveExtractCallback` got its memory. -/
def extract (impl : ArchiveImpl) (codec : UInt32 → Extraction) (index : UInt32) :
    Except LoadFault Extraction :=
  if index.toNat < impl.archiveItems.length then (impl.itemAt index).map codec
  else .ok { writes := [], ok := false }

/-- What the constructor reads of the item it was given. -/
def readItem (impl : ArchiveImpl) (item : UInt32) : Except LoadFault Item :=
  (ArchiveItem.readItem (impl.pInArchive.getProperty item)).mapError .thrown

/-- The loop of the constructor, at index `i` with `k` turns to go. -/
def loadLoop (u : Uninit) (root : Addr) (impl : ArchiveImpl) :
    Nat → Nat → Tree → Except LoadFault Tree
  | 0, _, t => .ok t
  | k + 1, i, t =>
      match impl.getItemInfo (UInt32.ofNat i) with
      | .error f => .error f
      | .ok none => loadLoop u root impl k (i + 1) t
      | .ok (some nIndex) =>
          match impl.readItem nIndex with
          | .error f => .error f
          | .ok item => loadLoop u root impl k (i + 1) (indexItem u root i item t)

/-- The tree `Fuse7z_lib7zip::Fuse7z_lib7zip` makes of the archive. -/
def load (u : Uninit) (impl : ArchiveImpl) : Except LoadFault Tree :=
  loadLoop u rootAddr impl impl.getItemCount.toNat 0 (initTree u)

end ArchiveImpl

/-! ## Items as their properties describe them -/

/-- The item a handler describes. -/
def InArchive.item (pInArchive : InArchive) (i : UInt32) : Item :=
  { fullPath := ArchiveItem.getFullPath (pInArchive.getProperty i)
    isDir := ArchiveItem.isDir (pInArchive.getProperty i)
    size := (pInArchive.getProperty i 7).bind PropVariant.uint64?
    aTime := (pInArchive.getProperty i 11).bind PropVariant.fileTime?
    cTime := (pInArchive.getProperty i 10).bind PropVariant.fileTime?
    mTime := (pInArchive.getProperty i 12).bind PropVariant.fileTime? }

/-- The first `n` items. -/
def InArchive.items (pInArchive : InArchive) (n : Nat) : List Item :=
  (List.range n).map fun i => pInArchive.item (UInt32.ofNat i)

@[simp] theorem InArchive.items_length (pInArchive : InArchive) (n : Nat) :
    (pInArchive.items n).length = n := by
  rw [InArchive.items, List.length_map, List.length_range]

/-- All the items, as an archive. -/
def InArchive.archive (pInArchive : InArchive) (numItems : UInt32) : Archive where
  items := pInArchive.items numItems.toNat
  count_lt := by
    rw [InArchive.items_length]
    exact numItems.toNat_lt

/-- **Reading an item never throws**: a number is converted only when it is
    one the conversion knows. -/
theorem ArchiveImpl.readItem_eq (impl : ArchiveImpl) (i : UInt32) :
    impl.readItem i = .ok (impl.pInArchive.item i) := by
  rw [readItem, ArchiveItem.readItem, getUInt64Property_eq]
  simp only [getFileTimeProperty_eq]
  rfl

/-! ## The vector -/

/-- The archive `Create7ZipArchive` makes. -/
theorem create7ZipArchive_spec {pInArchive : InArchive} {numItems : UInt32}
    (hnum : pInArchive.getNumberOfItems = some numItems) :
    ∃ impl, create7ZipArchive pInArchive = some impl ∧ impl.pInArchive = pInArchive ∧
      impl.archiveItems = (List.range numItems.toNat).map UInt32.ofNat := by
  simp only [create7ZipArchive, hnum]
  exact ⟨_, rfl, rfl, initializeLoop_zero numItems.toNat⟩

/-- Only a handler that knows its number of items gets one. -/
theorem create7ZipArchive_eq_some {pInArchive : InArchive} {impl : ArchiveImpl}
    (h : create7ZipArchive pInArchive = some impl) :
    impl.pInArchive = pInArchive ∧ ∃ numItems, pInArchive.getNumberOfItems = some numItems ∧
      impl.archiveItems = (List.range numItems.toNat).map UInt32.ofNat := by
  cases hnum : pInArchive.getNumberOfItems with
  | none =>
      simp only [create7ZipArchive, hnum] at h
      exact absurd h (by simp)
  | some numItems =>
      obtain ⟨impl', hcreate, hin, hitems⟩ := create7ZipArchive_spec hnum
      obtain rfl := Option.some.inj (h.symm.trans hcreate)
      exact ⟨hin, numItems, rfl, hitems⟩

namespace ArchiveImpl

variable {impl : ArchiveImpl} {n : Nat}

/-- Where an index leads: to the item of that number, or from 2^31 on out of
    the vector. -/
theorem itemAt_eq (hitems : impl.archiveItems = (List.range n).map UInt32.ofNat)
    (hn : n < 2 ^ 32) (index : UInt32) (hlt : index.toNat < n) :
    impl.itemAt index =
      if index.toNat < 2 ^ 31 then .ok index else .error (.outOfBounds index) := by
  rw [itemAt, hitems, toNat_signExtend]
  split_ifs with hhalf
  · have hget : ((List.range n).map UInt32.ofNat)[index.toNat]? = some index := by
      rw [List.getElem?_map, List.getElem?_range hlt, Option.map_some, UInt32.ofNat_toNat]
    rw [hget]
  · -- what is behind the sign extension is far past the end
    have hover : ((List.range n).map UInt32.ofNat)[index.toNat + (2 ^ 64 - 2 ^ 32)]? = none := by
      rw [List.getElem?_eq_none_iff, List.length_map, List.length_range]
      omega
    rw [hover]

/-- One turn of the constructor's loop. -/
theorem loadLoop_succ (u : Uninit) (root : Addr)
    (hitems : impl.archiveItems = (List.range n).map UInt32.ofNat) (hn : n < 2 ^ 32) {k i : Nat}
    (hlt : i < n) (t : Tree) :
    loadLoop u root impl (k + 1) i t =
      if i < 2 ^ 31 then
        loadLoop u root impl k (i + 1) (indexItem u root i (impl.pInArchive.item (UInt32.ofNat i)) t)
      else .error (.outOfBounds (UInt32.ofNat i)) := by
  have hnat : (UInt32.ofNat i).toNat = i := UInt32.toNat_ofNat_of_lt' (Nat.lt_trans hlt hn)
  have hlt' : (UInt32.ofNat i).toNat < impl.archiveItems.length := by
    rw [hnat, hitems, List.length_map, List.length_range]
    exact hlt
  have hat := itemAt_eq hitems hn (UInt32.ofNat i) (hnat.symm ▸ hlt)
  rw [loadLoop, getItemInfo, if_pos hlt', hat, hnat]
  split_ifs with hhalf
  · rw [show (Except.ok (UInt32.ofNat i) : Except LoadFault UInt32).map some =
      .ok (some (UInt32.ofNat i)) from rfl]
    simp only [readItem_eq]
  · rfl

/-- The loop over items below 2^31 indexes them. -/
theorem loadLoop_small (u : Uninit) (root : Addr)
    (hitems : impl.archiveItems = (List.range n).map UInt32.ofNat) (hn : n < 2 ^ 32) {k i : Nat}
    (hend : i + k = n) (hsmall : n ≤ 2 ^ 31) (t : Tree) :
    loadLoop u root impl k i t =
      .ok (indexLoop u root i
        ((List.range' i k).map fun j => impl.pInArchive.item (UInt32.ofNat j)) t) := by
  induction k generalizing i t with
  | zero => rfl
  | succ k ih =>
      rw [loadLoop_succ u root hitems hn (by omega), if_pos (by omega), ih (by omega),
        List.range'_succ, List.map_cons, indexLoop]

/-- The loop over more of them stops at item 2^31. -/
theorem loadLoop_large (u : Uninit) (root : Addr)
    (hitems : impl.archiveItems = (List.range n).map UInt32.ofNat) (hn : n < 2 ^ 32) {k i : Nat}
    (hend : i + k = n) (hi : i ≤ 2 ^ 31) (hlarge : 2 ^ 31 < n) (t : Tree) :
    loadLoop u root impl k i t = .error (.outOfBounds (UInt32.ofNat (2 ^ 31))) := by
  induction k generalizing i t with
  | zero => omega
  | succ k ih =>
      rw [loadLoop_succ u root hitems hn (by omega)]
      split_ifs with hhalf
      · exact ih (by omega) (by omega) _
      · have hat : i = 2 ^ 31 := by omega
        rw [hat]

/-- The constructor's tree, or the item it fails at. -/
theorem load_of_items (u : Uninit) (hitems : impl.archiveItems = (List.range n).map UInt32.ofNat)
    (hn : n < 2 ^ 32) :
    impl.load u =
      if n ≤ 2 ^ 31 then .ok (indexTree u (impl.pInArchive.items n))
      else .error (.outOfBounds (UInt32.ofNat (2 ^ 31))) := by
  have hcount : impl.getItemCount.toNat = n := by
    rw [getItemCount, hitems, List.length_map, List.length_range]
    exact UInt32.toNat_ofNat_of_lt' hn
  rw [load, hcount]
  split_ifs with hsmall
  · rw [loadLoop_small u rootAddr hitems hn (Nat.zero_add n) hsmall, ← List.range_eq_range']
    rfl
  · exact loadLoop_large u rootAddr hitems hn (Nat.zero_add n) (Nat.zero_le _)
      (Nat.lt_of_not_le hsmall) _

/-- What an extraction asks the handler for. -/
theorem extract_of_items (codec : UInt32 → Extraction)
    (hitems : impl.archiveItems = (List.range n).map UInt32.ofNat) (hn : n < 2 ^ 32)
    (index : UInt32) :
    impl.extract codec index =
      if n ≤ index.toNat then .ok { writes := [], ok := false }
      else if index.toNat < 2 ^ 31 then .ok (codec index)
      else .error (.outOfBounds index) := by
  have hlen : impl.archiveItems.length = n := by
    rw [hitems, List.length_map, List.length_range]
  rw [extract, hlen]
  by_cases hlt : index.toNat < n
  · rw [if_pos hlt, if_neg (Nat.not_le_of_lt hlt), itemAt_eq hitems hn index hlt]
    split_ifs with hhalf
    · rfl
    · rfl
  · rw [if_neg hlt, if_pos (Nat.le_of_not_lt hlt)]

end ArchiveImpl

/-- **What the constructor makes of a handler's archive.**  With at most 2^31
    items it is the tree of the items as the handler describes them, and after
    it an extraction asks the handler for the item it is called with.  With
    more of them it reads in front of the vector. -/
theorem load_is_mount (u : Uninit) (pInArchive : InArchive) (euid egid : UInt32)
    (codec : UInt32 → Extraction) (index : UInt32) :
    (create7ZipArchive pInArchive).map
        (fun impl => (impl.load u).map fun t => (t, impl.extract codec index)) =
      pInArchive.getNumberOfItems.map fun numItems =>
        if numItems.toNat ≤ 2 ^ 31 then
          .ok ((mount u (pInArchive.archive numItems) euid egid).tree,
            .ok ((pInArchive.archive numItems).extract codec index))
        else .error (.outOfBounds (UInt32.ofNat (2 ^ 31))) := by
  cases hnum : pInArchive.getNumberOfItems with
  | none =>
      have hnone : create7ZipArchive pInArchive = none := by
        simp only [create7ZipArchive, hnum]
      rw [hnone, Option.map_none, Option.map_none]
  | some numItems =>
      have hn : numItems.toNat < 2 ^ 32 := numItems.toNat_lt
      obtain ⟨impl, hcreate, hin, hitems⟩ := create7ZipArchive_spec hnum
      have hload := ArchiveImpl.load_of_items u hitems hn
      have hextract := ArchiveImpl.extract_of_items codec hitems hn index
      have harchive : (pInArchive.archive numItems).extract codec index =
          if index.toNat < numItems.toNat then codec index else { writes := [], ok := false } := by
        rw [Archive.extract, InArchive.archive, InArchive.items_length]
      rw [hcreate, Option.map_some, Option.map_some, hload, hextract, harchive, hin]
      refine congrArg some ?_
      by_cases hsmall : numItems.toNat ≤ 2 ^ 31
      · rw [if_pos hsmall, if_pos hsmall]
        refine congrArg Except.ok (Prod.ext rfl ?_)
        by_cases hlt : index.toNat < numItems.toNat
        · have hhalf : index.toNat < 2 ^ 31 := Nat.lt_of_lt_of_le hlt hsmall
          show (if _ then _ else _) = Except.ok (if _ then _ else _)
          rw [if_neg (Nat.not_le_of_lt hlt), if_pos hhalf, if_pos hlt]
        · show (if _ then _ else _) = Except.ok (if _ then _ else _)
          rw [if_pos (Nat.le_of_not_lt hlt), if_neg hlt]
      · rw [if_neg hsmall, if_neg hsmall]
        rfl

end Fuse7z
