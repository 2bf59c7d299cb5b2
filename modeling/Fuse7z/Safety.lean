/-
  Fuse7z.Safety

  Which runs of the mounted archive crash or leave the vectors they use.

  A callback is `Safe` when it does not crash, stores inside the vector it
  sized and loads inside the vector it reads from.  Whether it is can be told
  from outside (`Tame`): from the archive, from the arguments, and from the
  length of the vector that the calls and replies before it left behind the
  handle (`Tracked`).  The two agree along every run (`run_safe_iff`).
-/
import Fuse7z.Consistency
import Fuse7z.Refinement
import Fuse7z.Handles

namespace Fuse7z

open Lib Fuse7z.Tree Fuse7zLib7zip

/-! ## Paths that crash the lookup -/

/-- A name `pouet` has no room for, with a '/' behind it, in a directory of the
    archive. -/
def Overruns (items : List Item) (path : Bytes) : Prop :=
  ∃ ds name rest, components path.tail = ds ++ name :: rest ∧ rest ≠ [] ∧
    pouetSize ≤ name.length ∧ (index items ds).isSome

/-- The first long name decides, and it is in the archive if a later one is. -/
theorem overruns_cons_iff {items : List Item} {c : Byte} {q : Bytes} :
    Overruns items (c :: q) ↔
      ∃ i, ((components q).dropLast.findIdx? fun name => pouetSize ≤ name.length) = some i ∧
        (index items ((components q).take i)).isSome := by
  refine ⟨?_, ?_⟩
  · rintro ⟨ds, name, rest, hq, hrest, hlong, hin⟩
    rw [List.tail_cons] at hq
    have hdrop : (components q).dropLast = ds ++ name :: rest.dropLast := by
      rw [hq, List.dropLast_append_of_ne_nil (List.cons_ne_nil _ _),
        List.dropLast_cons_of_ne_nil hrest]
    cases hidx : (components q).dropLast.findIdx? fun name => pouetSize ≤ name.length with
    | none =>
        rw [List.findIdx?_eq_none_iff] at hidx
        have hname := hidx name (by rw [hdrop]; simp)
        exact absurd hlong (by simpa using hname)
    | some i =>
        obtain ⟨hi, -, hfirst⟩ := List.findIdx?_eq_some_iff_getElem.mp hidx
        -- no name in front of the first long one is long
        have hle : i ≤ ds.length := by
          by_contra hlt
          have hshort := hfirst ds.length (by omega)
          simp only [hdrop] at hshort
          rw [List.getElem_append_right (Nat.le_refl _)] at hshort
          simp only [Nat.sub_self, List.getElem_cons_zero] at hshort
          exact hshort (decide_eq_true hlong)
        refine ⟨i, rfl, ?_⟩
        rw [hq, List.take_append_of_le_length hle]
        rw [← List.take_append_drop i ds] at hin
        exact index_isSome_of_append hin
  · rintro ⟨i, hidx, hin⟩
    obtain ⟨hi, hlong, -⟩ := List.findIdx?_eq_some_iff_getElem.mp hidx
    have hlen : i + 1 < (components q).length := by
      rw [List.length_dropLast] at hi
      omega
    refine ⟨(components q).take i, (components q)[i], (components q).drop (i + 1), ?_, ?_, ?_, hin⟩
    · rw [List.tail_cons, List.getElem_cons_drop, List.take_append_drop]
    · intro hnil
      have hdropped := congrArg List.length hnil
      rw [List.length_drop, List.length_nil] at hdropped
      omega
    · rw [List.getElem_dropLast] at hlong
      exact of_decide_eq_true hlong

section Framed

variable {u : Uninit} {archive : Archive} {euid egid : UInt32} {fs : Fuse7zLib7zip}

/-- **Which paths crash the lookup**, in any state. -/
theorem lookup_error_iff (hframe : Frame (mount u archive euid egid) fs) (path : Bytes) :
    (∃ f, lookup fs path = .error f) ↔ Overruns archive.items path := by
  rw [hframe.lookup_eq]
  cases path with
  | nil =>
      refine iff_of_false (by simp [lookup]) ?_
      rintro ⟨ds, name, rest, hnil, hrest, -, -⟩
      -- the empty path has one component
      have hlen := congrArg List.length hnil
      rw [List.length_append, List.length_cons] at hlen
      have hpos := List.length_pos_of_ne_nil hrest
      simp only [List.tail_nil, components_nil, List.length_singleton] at hlen
      omega
  | cons c q =>
      have hdom := (indexTree_refines u archive.items).dom
      rw [overruns_cons_iff]
      show (∃ f, (indexTree u archive.items).find rootAddr q = .error f) ↔ _
      rw [Tree.find_eq]
      cases (components q).dropLast.findIdx? fun name => pouetSize ≤ name.length with
      | none => exact iff_of_false (by simp) (by simp)
      | some i =>
          have hin := hdom ((components q).take i)
          by_cases hreach : (index archive.items ((components q).take i)).isSome
          · exact iff_of_true ⟨_, if_pos (hin.mpr hreach)⟩ ⟨i, rfl, hreach⟩
          · refine iff_of_false ?_ ?_
            · rintro ⟨f, hf⟩
              exact absurd ((if_neg (mt hin.mp hreach)).symm.trans hf) (by simp)
            · rintro ⟨j, hj, hex⟩
              obtain rfl := Option.some.inj hj
              exact hreach hex

/-! ## The file a path names -/

/-- The number of the item of a file, and the size the constructor stored. -/
def fileAt (u : Uninit) (items : List Item) : Bytes → Option (Nat × UInt64)
  | [] => none
  | _ :: q =>
      match index items (lookupKeys q) with
      | some (.item i x) => if x.isDir then none else some (i, x.size.getD (u.size i))
      | _ => none

theorem take_prefix_lookupKeys {q : Bytes} {i : Nat} (hi : i ≤ (components q).dropLast.length) :
    (components q).take i <+: lookupKeys q := by
  have htake : (components q).take i = (components q).dropLast.take i := by
    rw [List.dropLast_eq_take, List.take_take, ← List.length_dropLast, Nat.min_eq_left hi]
  rw [htake, lookupKeys]
  split_ifs
  · exact List.take_prefix i _
  · exact (List.take_prefix i _).trans (List.dropLast_prefix _)

/-- What a path resolves to, in any state, is the file it names, or none. -/
theorem fileAt_of_lookup (hframe : Frame (mount u archive euid egid) fs) {path : Bytes} {a : Addr}
    {n : Node} (hfound : lookup fs path = .ok (some a)) (hn : fs.node? a = some n) :
    fileAt u archive.items path =
      if n.isDir then none else some (n.extractId.toNat, n.stat.stSize.toUInt64) := by
  obtain ⟨m, hm, hfixed⟩ := hframe.node hn
  rw [hframe.lookup_eq] at hfound
  have hext : n.extractId = m.extractId := congrArg Int32.toUInt32 (fixedPart_id hfixed)
  rw [fixedPart_isDir hfixed, fixedPart_stSize hfixed, hext]
  cases path with
  | nil => exact absurd hfound (by simp [lookup])
  | cons c q =>
      have href := indexTree_refines u archive.items
      have hwalk : walk (indexTree u archive.items).child rootAddr (lookupKeys q) = some a :=
        walk_of_find hfound
      obtain ⟨e, he⟩ := Option.isSome_iff_exists.mp ((href.dom (lookupKeys q)).mp (by rw [hwalk]; rfl))
      have hagree := href.agree hwalk hm he
      simp only [fileAt, he]
      cases e with
      | implied =>
          have hdir : m.isDir = true := Implied.isDir hagree
          simp only [hdir, if_true]
      | item i x =>
          have heq : setItem u i x m = m := hagree
          have hid : m.id = idOf i := congrArg Node.id heq.symm
          have hdir : m.isDir = x.isDir := congrArg Node.isDir heq.symm
          have hsize : m.stat.stSize = (x.size.getD (u.size i)).toInt64 :=
            congrArg (fun n => n.stat.stSize) heq.symm
          have hbound : i < 2 ^ 32 :=
            Nat.lt_trans (isLast_of_index he).lt_length archive.count_lt
          simp only [hdir, hsize, Node.extractId, hid, toNat_idOf hbound, UInt64.toUInt64_toInt64]

/-- What does not resolve names no file. -/
theorem fileAt_of_lookup_none (hframe : Frame (mount u archive euid egid) fs) {path : Bytes}
    (hfound : lookup fs path = .ok none) : fileAt u archive.items path = none := by
  rw [hframe.lookup_eq] at hfound
  cases path with
  | nil => rfl
  | cons c q =>
      have hdom := (indexTree_refines u archive.items).dom
      have hfind : (indexTree u archive.items).find rootAddr q = .ok none := hfound
      suffices hnone : index archive.items (lookupKeys q) = none by
        simp only [fileAt, hnone]
      by_contra hsome
      have hin : (index archive.items (lookupKeys q)).isSome := Option.isSome_iff_ne_none.mpr hsome
      rw [Tree.find_eq] at hfind
      cases hidx : (components q).dropLast.findIdx? fun name => pouetSize ≤ name.length with
      | none =>
          simp only [hidx, Except.ok.injEq] at hfind
          have hwalk := (hdom (lookupKeys q)).mpr hin
          rw [hfind] at hwalk
          exact absurd hwalk (by simp)
      | some i =>
          -- the lookup stopped in front of a long name, where the archive ends
          obtain ⟨hi, -, -⟩ := List.findIdx?_eq_some_iff_getElem.mp hidx
          obtain ⟨es, hes⟩ := take_prefix_lookupKeys (Nat.le_of_lt hi)
          rw [← hes] at hin
          have hwalk := (hdom ((components q).take i)).mpr (index_isSome_of_append hin)
          simp only [hidx, hwalk, if_true] at hfind
          exact absurd hfind (by simp)

/-- What `open` comes to, in any state. -/
inductive Opens (u : Uninit) (items : List Item) (fs : Fuse7zLib7zip) (path : Bytes) : Prop where
  | crash (f : Fault) (overruns : Overruns items path) (found : lookup fs path = .error f)
  /-- nothing is there, or a directory -/
  | refused (fits : ¬ Overruns items path) (none : fileAt u items path = none)
      (reply : ∀ env, ∃ r, fuse7zOpen fs path env = (.ret r, fs))
      (dir : ∀ a n, lookup fs path = .ok (some a) → fs.node? a = some n → n.isDir = true)
  | file (fits : ¬ Overruns items path) (a : Addr) (n : Node)
      (found : lookup fs path = .ok (some a)) (node : fs.node? a = some n) (file : n.isDir = false)
      (at_ : fileAt u items path = some (n.extractId.toNat, n.stat.stSize.toUInt64))

theorem opens_cases (hframe : Frame (mount u archive euid egid) fs) (path : Bytes) :
    Opens u archive.items fs path := by
  have herror := lookup_error_iff hframe path
  cases hfound : lookup fs path with
  | error f => exact .crash f (herror.mp ⟨f, hfound⟩) hfound
  | ok found =>
      have hfits : ¬ Overruns archive.items path := by
        rw [← herror, hfound]
        simp
      cases found with
      | none =>
          refine .refused hfits (fileAt_of_lookup_none hframe hfound) ?_ ?_
          · exact fun env => ⟨-enoent, by simp only [fuse7zOpen, hfound]⟩
          · intro a n ha
            exact absurd (hfound.symm.trans ha) (by simp)
      | some a =>
          obtain ⟨n, hn⟩ := node_of_lookup_framed hframe hfound
          have hat := fileAt_of_lookup hframe hfound hn
          cases hdir : n.isDir with
          | true =>
              rw [hdir, if_pos rfl] at hat
              refine .refused hfits hat ?_ ?_
              · exact fun env => ⟨-eisdir, by simp [fuse7zOpen, hfound, hn, hdir]⟩
              · intro b m hb hm
                obtain rfl := Option.some.inj (Except.ok.inj (hfound.symm.trans hb))
                obtain rfl := Option.some.inj (hn.symm.trans hm)
                exact hdir
          | false =>
              rw [hdir, if_neg (by simp)] at hat
              exact .file hfits a n hfound hn hdir hat

end Framed

/-! ## Safe callbacks -/

/-- An `open` stores what the handler delivers inside the vector it sized. -/
def StoresInside (fs : Fuse7zLib7zip) : Callback → Prop
  | .open path env => ∀ a n sized, lookup fs path = .ok (some a) → fs.node? a = some n →
      n.isDir = false → env.newOk = true →
      (Fuse7zOutStream.new fs.nextStream).setSize env.alloc n.stat.stSize.toUInt64 = .ok sized →
      Along Fuse7zOutStream.write Fuse7zOutStream.Contained sized (fs.extraction n env).writes
  | _ => True

/-- A `read` loads inside the vector behind its handle. -/
def LoadsInside (fs : Fuse7zLib7zip) : Callback → Prop
  | .read fh size offset mem => ∀ s r, fs.buffer? fh = some s →
      fs.readNode fh size offset mem = .ok r → ∀ i ∈ r.loads, i < s.buffer.length
  | _ => True

/-- A callback does not crash and touches no memory outside the vectors. -/
structure Safe (fs : Fuse7zLib7zip) (e : Callback) : Prop where
  reply : ∀ f, (step fs e).1 ≠ .fault f
  stores : StoresInside fs e
  loads : LoadsInside fs e

/-! ## What can be told from outside -/

/-- The mounted file system, and for each handle the length of the vector
    behind it, which the code does not keep. -/
structure Tracked where
  fs : Fuse7zLib7zip
  behind : Addr → Option Nat

/-- The length of the vector an `open` leaves at a file of that size. -/
def sizedTo (env : OpenEnv) (size : UInt64) : Nat := if env.alloc.Serves size then size.toNat else 0

/-- The length behind a handle after a callback and its reply. -/
def track (u : Uninit) (items : List Item) (behind : Addr → Option Nat) :
    Callback → Reply → Addr → Option Nat
  | .open path env, .opened _ fh, a =>
      if fh = a ∧ env.newOk = true then
        (fileAt u items path).map fun file => sizedTo env file.2
      else behind a
  | .release fh, .ret _, a => if fh = a then none else behind a
  | _, _, a => behind a

def trackedStep (u : Uninit) (archive : Archive) (s : Tracked) (e : Callback) : Reply × Tracked :=
  ((step s.fs e).1,
    { fs := (step s.fs e).2, behind := track u archive.items s.behind e (step s.fs e).1 })

/-- Nothing is open yet. -/
def Tracked.start (fs : Fuse7zLib7zip) : Tracked := { fs, behind := fun _ => none }

/-- A callback keeps to what the archive and the calls before it allow: no path
    overruns `pouet`, an item delivers at most the size it has, which is one a
    vector can have, and what is read lies inside a vector. -/
def Tame (u : Uninit) (archive : Archive) (s : Tracked) : Callback → Prop
  | .getattr path => ¬ Overruns archive.items path
  | .readdir path => ¬ Overruns archive.items path
  | .utimens path _ _ => ¬ Overruns archive.items path
  | .open path env => ¬ Overruns archive.items path ∧
      ∀ i size, fileAt u archive.items path = some (i, size) → env.newOk = true →
        if env.alloc.Serves size then
          (Volume.brings env i).length ≤ size.toNat
        else size.toNat ≤ env.alloc.maxSize
  | .read fh size offset _ => ∃ len, s.behind fh = some len ∧
      (size = 0 ∨ offset.toUInt64.toNat + size.toNat ≤ len)
  | .release fh => fh < (paths archive.items).length
  | _ => True

/-! ## One callback -/

/-- What holds between callbacks: the tree is the archive's, and the lengths
    are those of the vectors. -/
structure TrackedInv (u : Uninit) (archive : Archive) (euid egid : UInt32) (s : Tracked) :
    Prop where
  frame : Frame (mount u archive euid egid) s.fs
  behind : ∀ a, s.behind a = (s.fs.buffer? a).map fun st => st.buffer.length

section Step

variable {u : Uninit} {archive : Archive} {euid egid : UInt32} {s : Tracked}

/-- A callback that answers a path, and does nothing to the streams. -/
theorem safe_path_iff (hinv : TrackedInv u archive euid egid s) {path : Bytes} {e : Callback}
    (hstores : StoresInside s.fs e) (hloads : LoadsInside s.fs e)
    (herror : ∀ f, lookup s.fs path = .error f → (step s.fs e).1 = .fault f)
    (hok : ∀ found f, lookup s.fs path = .ok found → (step s.fs e).1 ≠ .fault f) :
    Safe s.fs e ↔ ¬ Overruns archive.items path := by
  rw [← lookup_error_iff hinv.frame path]
  refine ⟨?_, ?_⟩
  · rintro h ⟨f, hf⟩
    exact h.reply f (herror f hf)
  · intro h
    cases hfound : lookup s.fs path with
    | error f => exact absurd ⟨f, hfound⟩ h
    | ok found => exact ⟨fun f => hok found f hfound, hstores, hloads⟩

theorem safe_getattr_iff (hinv : TrackedInv u archive euid egid s) (path : Bytes) :
    Safe s.fs (.getattr path) ↔ ¬ Overruns archive.items path := by
  refine safe_path_iff hinv ⟨⟩ ⟨⟩ ?_ ?_
  · intro f hf
    simp only [step, fuse7zGetattr, hf]
  · intro found f hfound
    cases found with
    | none => simp [step, fuse7zGetattr, hfound]
    | some a =>
        obtain ⟨n, hn⟩ := node_of_lookup_framed hinv.frame hfound
        simp [step, fuse7zGetattr_eq hfound hn]

theorem safe_readdir_iff (hinv : TrackedInv u archive euid egid s) (path : Bytes) :
    Safe s.fs (.readdir path) ↔ ¬ Overruns archive.items path := by
  refine safe_path_iff hinv ⟨⟩ ⟨⟩ ?_ ?_
  · intro f hf
    simp only [step, fuse7zReaddir, hf]
  · intro found f hfound
    cases found with
    | none => simp [step, fuse7zReaddir, hfound]
    | some a =>
        obtain ⟨n, hn⟩ := node_of_lookup_framed hinv.frame hfound
        have hwf := hinv.frame.wf (indexTree_refines u archive.items).wf
        simp [step, fuse7zReaddir_eq hwf hfound hn]

theorem safe_utimens_iff (hinv : TrackedInv u archive euid egid s) (path : Bytes)
    (tv0 tv1 : Timespec) :
    Safe s.fs (.utimens path tv0 tv1) ↔ ¬ Overruns archive.items path := by
  refine safe_path_iff hinv ⟨⟩ ⟨⟩ ?_ ?_
  · intro f hf
    simp only [step, fuse7zUtimens, hf]
  · intro found f hfound
    cases found with
    | none => simp [step, fuse7zUtimens, hfound]
    | some a => simp [step, fuse7zUtimens, hfound]

theorem lt_length_of_fileAt {path : Bytes} {i : Nat} {size : UInt64}
    (h : fileAt u archive.items path = some (i, size)) : i < archive.items.length := by
  cases path with
  | nil => exact absurd h (by simp [fileAt])
  | cons c q =>
      simp only [fileAt] at h
      split at h
      · rename_i j x hindex
        split_ifs at h
        obtain ⟨rfl, -⟩ := Prod.mk.inj (Option.some.inj h)
        exact (isLast_of_index hindex).lt_length
      · exact absurd h (by simp)

/-- An `open` of a file stores inside its vector when what is delivered fits. -/
theorem storesInside_open_iff {fs : Fuse7zLib7zip} {path : Bytes} {a : Addr} {n : Node}
    (hfound : lookup fs path = .ok (some a)) (hn : fs.node? a = some n) (hfile : n.isDir = false)
    (env : OpenEnv) :
    StoresInside fs (.open path env) ↔
      (env.newOk = true → env.alloc.Serves n.stat.stSize.toUInt64 →
        (fs.extracted n env).length ≤ n.stat.stSize.toUInt64.toNat) := by
  have hsized : ∀ sized, (Fuse7zOutStream.new fs.nextStream).setSize env.alloc
        n.stat.stSize.toUInt64 = .ok sized →
      (Along Fuse7zOutStream.write Fuse7zOutStream.Contained sized (fs.extraction n env).writes ↔
        (fs.extracted n env).length ≤ n.stat.stSize.toUInt64.toNat) := by
    intro sized h
    obtain ⟨hpos, hlen⟩ := Fuse7zOutStream.length_of_setSize h
    have hword := n.stat.stSize.toUInt64.toNat_lt
    rw [Fuse7zOutStream.along_contained_iff _ (by omega) (by omega), hpos, hlen, Nat.zero_add]
    rfl
  refine ⟨?_, ?_⟩
  · intro h hnew hserves
    have hset := Fuse7zOutStream.setSize_new fs.nextStream env.alloc n.stat.stSize.toUInt64
    rw [if_pos hserves] at hset
    exact (hsized _ hset).mp (h a n _ hfound hn hfile hnew hset)
  · intro h b m sized hb hm _ hnew hset
    obtain rfl := Option.some.inj (Except.ok.inj (hfound.symm.trans hb))
    obtain rfl := Option.some.inj (hn.symm.trans hm)
    apply (hsized sized hset).mpr
    apply h hnew
    -- `resize` threw nothing
    by_contra hno
    rw [Fuse7zOutStream.setSize_new, if_neg hno] at hset
    split_ifs at hset

theorem safe_open_iff (hinv : TrackedInv u archive euid egid s) (path : Bytes) (env : OpenEnv) :
    Safe s.fs (.open path env) ↔ Tame u archive s (.open path env) := by
  cases opens_cases hinv.frame path with
  | crash f hover hfound =>
      refine iff_of_false ?_ fun h => h.1 hover
      intro h
      exact h.reply f (by simp only [step, fuse7zOpen, hfound])
  | refused hfits hnone hreply hdir =>
      refine iff_of_true ⟨?_, ?_, trivial⟩ ⟨hfits, ?_⟩
      · obtain ⟨r, hr⟩ := hreply env
        simp [step, hr]
      · intro a n sized ha hn hfile
        exact absurd ((hdir a n ha hn).symm.trans hfile) (by simp)
      · intro i size hat
        exact absurd (hnone.symm.trans hat) (by simp)
  | file hfits a n hfound hn hfile hat =>
      have hreply := fuse7zOpen_reply hfound hn hfile env
      have hstores := storesInside_open_iff hfound hn hfile env
      have hbound : n.extractId.toNat < s.fs.archive.items.length := by
        rw [hinv.frame.archive]
        exact lt_length_of_fileAt hat
      have hdata := extracted_eq_brings hbound env
      refine ⟨?_, ?_⟩
      · intro h
        refine ⟨hfits, ?_⟩
        intro i size hat' hnew
        obtain ⟨rfl, rfl⟩ := Prod.mk.inj (Option.some.inj (hat.symm.trans hat'))
        split_ifs with hserves
        · rw [← hdata]
          exact hstores.mp h.stores hnew hserves
        · by_contra hmax
          rw [hnew, if_neg (by simp), if_neg hserves, if_pos (Nat.lt_of_not_le hmax)] at hreply
          exact h.reply _ hreply
      · rintro ⟨-, h⟩
        have hroom := h _ _ hat
        rw [← hdata] at hroom
        refine ⟨?_, hstores.mpr ?_, ⟨⟩⟩
        · intro f
          show (fuse7zOpen s.fs path env).1 ≠ .fault f
          rw [hreply]
          cases hnew : env.newOk with
          | false => simp
          | true =>
              have hroom' := hroom hnew
              rw [if_neg (by simp)]
              split_ifs at hroom' ⊢ with hserves hcallback hsurvives hmax
              · simp
              · simp
              · exact absurd (Or.inl hroom') hsurvives
              · omega
              · simp
        · intro hnew hserves
          have hroom' := hroom hnew
          rw [if_pos hserves] at hroom'
          exact hroom'

theorem safe_read_iff (hinv : TrackedInv u archive euid egid s) (fh : Addr) (size : UInt64)
    (offset : Int64) (mem : Nat → Option Byte) :
    Safe s.fs (.read fh size offset mem) ↔ Tame u archive s (.read fh size offset mem) := by
  have hbehind := hinv.behind fh
  cases hbuf : s.fs.buffer? fh with
  | none =>
      rw [hbuf] at hbehind
      refine iff_of_false ?_ ?_
      · intro h
        -- no node, or no stream at it
        cases hn : s.fs.node? fh with
        | none => exact h.reply .danglingPointer (by simp only [step, fuse7zRead, readNode, hn])
        | some n =>
            have hnull : n.buffer = none := by
              rw [buffer?, hn] at hbuf
              exact hbuf
            exact h.reply .nullDeref (by simp only [step, fuse7zRead, readNode, hn, hnull])
      · rintro ⟨len, hlen, -⟩
        exact absurd (hbehind.symm.trans hlen) (by simp)
  | some st =>
      rw [hbuf] at hbehind
      have htame : Tame u archive s (.read fh size offset mem) ↔
          size = 0 ∨ offset.toUInt64.toNat + size.toNat ≤ st.buffer.length := by
        refine ⟨?_, ?_⟩
        · rintro ⟨len, hlen, h⟩
          obtain rfl := Option.some.inj (hbehind.symm.trans hlen)
          exact h
        · exact fun h => ⟨_, hbehind, h⟩
      rw [htame]
      refine ⟨?_, ?_⟩
      · intro h
        by_contra hno
        rw [not_or] at hno
        have hpos : size.toNat ≠ 0 := fun h0 => hno.1 (UInt64.toNat_inj.mp h0)
        -- the last byte asked for lies outside
        have hlast : offset.toUInt64.toNat + size.toNat - 1
            ∈ List.range' offset.toUInt64.toNat size.toNat := by
          rw [List.mem_range'_1]
          omega
        rcases readNode_cases hbuf size offset mem with hfault | ⟨data, -, -, hread⟩
        · exact h.reply .segfault (by simp only [step, fuse7zRead, hfault])
        · have hlt := h.loads st _ hbuf hread _ hlast
          omega
      · intro h
        have hread := readNode_inside hbuf mem h
        refine ⟨?_, ⟨⟩, ?_⟩
        · intro f
          simp [step, fuse7zRead, hread]
        · intro st' r hst' hr i hi
          obtain rfl := Option.some.inj (hbuf.symm.trans hst')
          obtain rfl := Except.ok.inj (hread.symm.trans hr)
          have hrange := List.mem_range'_1.mp hi
          rcases h with rfl | hin
          · rw [UInt64.toNat_zero] at hrange
            omega
          · omega

theorem safe_release_iff (hinv : TrackedInv u archive euid egid s) (fh : Addr) :
    Safe s.fs (.release fh) ↔ fh < (paths archive.items).length := by
  rw [← size_indexTree u archive.items, ← Heap.get?_isSome_iff]
  show _ ↔ ((mount u archive euid egid).node? fh).isSome
  cases hn : s.fs.node? fh with
  | none =>
      refine iff_of_false ?_ ?_
      · intro h
        exact h.reply .danglingPointer (by simp only [step, fuse7zRelease, hn])
      · intro h
        obtain ⟨m, hm⟩ := Option.isSome_iff_exists.mp h
        obtain ⟨n, hn', -⟩ := hinv.frame.node_of_old hm
        exact absurd (hn.symm.trans hn') (by simp)
  | some n =>
      obtain ⟨m, hm, -⟩ := hinv.frame.node hn
      refine iff_of_true ⟨?_, ⟨⟩, ⟨⟩⟩ (by rw [hm]; rfl)
      intro f
      simp [step, fuse7zRelease, hn]

/-- **Which callbacks are safe** can be told from outside. -/
theorem safe_step_iff (hinv : TrackedInv u archive euid egid s) (e : Callback) :
    Safe s.fs e ↔ Tame u archive s e := by
  cases e with
  | getattr path => exact safe_getattr_iff hinv path
  | readdir path => exact safe_readdir_iff hinv path
  | utimens path tv0 tv1 => exact safe_utimens_iff hinv path tv0 tv1
  | «open» path env => exact safe_open_iff hinv path env
  | read fh size offset mem => exact safe_read_iff hinv fh size offset mem
  | release fh => exact safe_release_iff hinv fh
  | statfs err st buf =>
      refine iff_of_true ⟨?_, ⟨⟩, ⟨⟩⟩ ⟨⟩
      intro f
      simp only [step, fuse7zStatfs]
      split_ifs <;> simp
  | _ => exact iff_of_true ⟨fun _ h => Reply.noConfusion h, ⟨⟩, ⟨⟩⟩ ⟨⟩

/-! ## The lengths stay right -/

theorem behind_of_not_touches {a : Addr} {e : Callback} (h : ¬ Touches s.fs a e) :
    (trackedStep u archive s e).2.behind a = s.behind a := by
  cases e with
  | «open» path env =>
      simp only [trackedStep, step]
      cases hr : (fuse7zOpen s.fs path env).1 with
      | opened r fh =>
          -- the handle is another node's
          apply if_neg
          rintro ⟨rfl, -⟩
          exact h (lookup_of_opened hr)
      | _ => rfl
  | release fh =>
      simp only [trackedStep, step]
      cases hr : (fuse7zRelease s.fs fh).1 with
      | ret r => exact if_neg h
      | _ => rfl
  | _ => rfl

/-- A safe callback keeps the lengths right. -/
theorem trackedInv_step (hinv : TrackedInv u archive euid egid s) {e : Callback}
    (h : Safe s.fs e) : TrackedInv u archive euid egid (trackedStep u archive s e).2 := by
  refine ⟨hinv.frame.trans (step_effect s.fs e).frame, ?_⟩
  intro a
  by_cases htouch : Touches s.fs a e
  · cases e with
    | «open» path env =>
        have hfound : lookup s.fs path = .ok (some a) := htouch
        cases opens_cases hinv.frame path with
        | crash f hover hf => exact absurd (hfound.symm.trans hf) (by simp)
        | refused hfits hnone hreply hdir =>
            obtain ⟨r, hr⟩ := hreply env
            simp only [trackedStep, step, hr]
            exact hinv.behind a
        | file hfits b n hb hn hfile hat =>
            obtain rfl := Option.some.inj (Except.ok.inj (hfound.symm.trans hb))
            have hreply := fuse7zOpen_reply hfound hn hfile env
            have hstate : (fuse7zOpen s.fs path env).2 = (s.fs.openNode a n env).2 := by
              rw [fuse7zOpen_eq hfound hn hfile]
            rw [openNode_eq] at hstate
            simp only [trackedStep, step, hstate]
            cases hnew : env.newOk with
            | false =>
                rw [hnew, if_pos rfl] at hreply
                simp only [hreply, track, hnew]
                exact hinv.behind a
            | true =>
                rw [hnew, if_neg (by simp)] at hreply
                -- a handle or -ENOMEM, the vector is as long as it was sized
                have hopened : ∃ r, (fuse7zOpen s.fs path env).1 = .opened r a := by
                  rw [hreply]
                  split_ifs at hreply ⊢ <;> first | exact ⟨_, rfl⟩ | exact absurd hreply (h.reply _)
                obtain ⟨r, hr⟩ := hopened
                have hbuf := buffer?_hang_self hn (s.fs.openStream n env)
                rw [if_pos rfl, hbuf, Option.map_some, openStream_length, hr]
                simp [track, hnew, hat, sizedTo]
    | release fh =>
        obtain rfl : fh = a := htouch
        cases hn : s.fs.node? fh with
        | none =>
            exact absurd (by simp only [step, fuse7zRelease, hn]) (h.reply .danglingPointer)
        | some n =>
            have hbuf := buffer?_setBuffer_self hn none
            simp only [trackedStep, step, fuse7zRelease, hn, closeNode, hbuf]
            exact if_pos rfl
    | _ => exact absurd htouch id
  · have hbuf : (trackedStep u archive s e).2.fs.buffer? a = s.fs.buffer? a :=
      (step_effect s.fs e).buffer? htouch
    rw [behind_of_not_touches htouch, hbuf]
    exact hinv.behind a

end Step

/-! ## Whole runs -/

/-- No node of the mounted archive has a stream. -/
theorem trackedInv_start (u : Uninit) (archive : Archive) (euid egid : UInt32) :
    TrackedInv u archive euid egid (Tracked.start (mount u archive euid egid)) where
  frame := Frame.refl _
  behind := by
    intro a
    have hclosed : (mount u archive euid egid).buffer? a = none := by
      rw [buffer?]
      cases hn : (mount u archive euid egid).node? a with
      | none => rfl
      | some n => exact (indexTree_refines u archive.items).closed hn
    show none = ((mount u archive euid egid).buffer? a).map _
    rw [hclosed, Option.map_none]

/-- **Which runs are safe**: those whose every callback keeps to what the
    archive and the calls before it allow. -/
theorem run_safe_iff (u : Uninit) (archive : Archive) (euid egid : UInt32) (es : List Callback) :
    Along (trackedStep u archive) (fun s e => Safe s.fs e)
        (Tracked.start (mount u archive euid egid)) es ↔
      Along (trackedStep u archive) (Tame u archive)
        (Tracked.start (mount u archive euid egid)) es := by
  refine Along.iff_of_invariant (I := TrackedInv u archive euid egid) (P := fun _ _ => True) ?_ ?_
    (trackedInv_start u archive euid egid) (along_of_forall (fun _ _ => trivial) _ es)
  · intro s e hinv _
    exact safe_step_iff hinv e
  · intro s e hinv _ hsafe
    exact trackedInv_step hinv hsafe

end Fuse7z
