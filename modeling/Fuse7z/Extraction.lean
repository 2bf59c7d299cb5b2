/-
  Fuse7z.Extraction

  `open`: sizing a stream, filling it, and what is reported about it.

  `SetSize` gives the stream the size the archive declares, the `Write` calls
  bring what the archive contains.  Nothing compares the two, and nothing
  looks at the answer of `Extract`: a longer content runs over the end of the
  vector (`along_contained_iff`), a failed or short one is handed out as it is
  (`open_honest_iff`).  A `resize` that throws leaves the new stream at the
  node, and only one of its two exceptions is caught; the callback object of
  `Extract` may get no memory when the stream has its own, and the `Write`
  calls may be the end of the program (`open_atomic_iff`).
-/
import Fuse7z.Index
import Fuse7z.Steps

namespace Fuse7z

open Lib Fuse7z.Tree Fuse7zLib7zip

/-! ## Writing inside the buffer -/

namespace Fuse7zOutStream

/-- A `Write` stores inside the buffer, and a chunk that does not fit behind
    the position is given room or refused. -/
structure Contained (s : Fuse7zOutStream) (c : Chunk) : Prop where
  inside : ∀ i ∈ (s.write c).1.stores, i < (s.write c).2.buffer.length
  room : s.buffer.length < s.position.toNat + c.data.length →
    s.position.toNat + c.data.length ≤ (s.write c).2.buffer.length ∨
      (s.write c).1.ret ≠ 0 ∨ (s.write c).1.processedSize.toNat < c.data.length

theorem contained_iff (s : Fuse7zOutStream) (c : Chunk) :
    s.Contained c ↔ s.position.toNat + c.data.length ≤ s.buffer.length := by
  have hlen : (s.write c).2.buffer.length = s.buffer.length := write_length s c
  have hprocessed : (s.write c).1.processedSize.toNat = c.data.length :=
    UInt32.toNat_ofNat_of_lt' c.size_lt
  refine ⟨?_, ?_⟩
  · intro h
    by_contra hover
    -- the buffer keeps its size, and the reply is that of a chunk taken whole
    rcases h.room (Nat.lt_of_not_le hover) with hroom | hret | hshort
    · omega
    · exact hret rfl
    · omega
  · intro hfit
    refine ⟨?_, fun hover => by omega⟩
    intro i hi
    have hrange : i < s.position.toNat + c.data.length := (List.mem_range'_1.mp hi).2
    omega

/-- **The `Write` calls keep inside** exactly when their data fits, all
    together, behind the position they start from. -/
theorem along_contained_iff {s : Fuse7zOutStream} (cs : List Chunk)
    (hpos : s.position.toNat ≤ s.buffer.length) (hlen : s.buffer.length < 2 ^ 64) :
    Along write Contained s cs ↔ s.position.toNat + (delivered cs).length ≤ s.buffer.length := by
  induction cs generalizing s with
  | nil => exact iff_of_true trivial hpos
  | cons c cs ih =>
      have happend : (delivered (c :: cs)).length = c.data.length + (delivered cs).length := by
        rw [delivered_cons, List.length_append]
      rw [along_cons, contained_iff, happend]
      by_cases hfit : s.position.toNat + c.data.length ≤ s.buffer.length
      · -- this chunk fits, so the position moved on without wrapping
        have hmoved : (s.write c).2.position.toNat = s.position.toNat + c.data.length :=
          write_position s c (by omega)
        have hsame : (s.write c).2.buffer.length = s.buffer.length := write_length s c
        rw [ih (by omega) (by omega), hmoved, hsame]
        omega
      · omega

/-- **Which extractions stay inside the buffer** `SetSize(n)` made. -/
theorem writes_contained_iff {addr : Nat} {al : Allocator} {n : UInt64} {s : Fuse7zOutStream}
    (h : (new addr).setSize al n = .ok s) (cs : List Chunk) :
    Along write Contained s cs ↔ (delivered cs).length ≤ n.toNat := by
  obtain ⟨hpos, hlen⟩ := length_of_setSize h
  have hword : n.toNat < 2 ^ 64 := n.toNat_lt
  rw [along_contained_iff cs (by omega) (by omega), hpos, hlen, Nat.zero_add]

/-- Two chunks of one byte fit a stream of size 2. -/
theorem writes_contained_two :
    Along write Contained { addr := 0, position := 0, buffer := [0, 0] }
      [⟨[1], by decide⟩, ⟨[2], by decide⟩] := by
  have hsized : (new 0).setSize ⟨2, true⟩ 2 = .ok { addr := 0, position := 0, buffer := [0, 0] } :=
    by decide
  exact (writes_contained_iff hsized [⟨[1], by decide⟩, ⟨[2], by decide⟩]).mpr (by decide)

/-- A chunk of two bytes for a stream of size 1 is stored past its end. -/
theorem write_past_end :
    (new 0).setSize ⟨1, true⟩ 1 = .ok { addr := 0, position := 0, buffer := [0] } ∧
    (write { addr := 0, position := 0, buffer := [0] } ⟨[1, 2], by decide⟩).1
      = { ret := 0, processedSize := 2, stores := [0, 1] } ∧
    ¬ Along write Contained { addr := 0, position := 0, buffer := [0] }
      [⟨[1, 2], by decide⟩] := by
  refine ⟨by decide, by decide, ?_⟩
  rintro ⟨hfirst, -⟩
  rw [contained_iff] at hfirst
  exact absurd hfirst (by decide)

end Fuse7zOutStream

namespace Fuse7zLib7zip

/-! ## What open comes to -/

/-- The bytes an extraction of the item of `n` delivers. -/
def extracted (fs : Fuse7zLib7zip) (n : Node) (env : OpenEnv) : Bytes :=
  delivered (fs.extraction n env).writes

/-- The program survives the `Write` calls of an `open`: they fit the declared
    size, or they run over the end of a vector that has memory and do no harm
    there. -/
def Survives (fs : Fuse7zLib7zip) (n : Node) (env : OpenEnv) : Prop :=
  (fs.extracted n env).length ≤ n.stat.stSize.toUInt64.toNat ∨
    (n.stat.stSize.toUInt64 ≠ 0 ∧ env.overrunOk = true)

instance (fs : Fuse7zLib7zip) (n : Node) (env : OpenEnv) : Decidable (fs.Survives n env) :=
  inferInstanceAs (Decidable (_ ∨ _))

theorem extraction_of_callbackThrows {fs : Fuse7zLib7zip} {n : Node} {env : OpenEnv}
    (h : fs.callbackThrows n env = true) : fs.extraction n env = { writes := [], ok := false } :=
  if_pos h

/-- An extraction that succeeds got its callback object. -/
theorem callbackThrows_of_ok {fs : Fuse7zLib7zip} {n : Node} {env : OpenEnv}
    (h : (fs.extraction n env).ok = true) : fs.callbackThrows n env = false := by
  rw [← Bool.not_eq_true]
  intro hthrows
  rw [extraction_of_callbackThrows hthrows] at h
  exact absurd h (by simp)

theorem callbackThrows_eq {fs : Fuse7zLib7zip} {n : Node}
    (hbound : n.extractId.toNat < fs.archive.items.length) (env : OpenEnv) :
    fs.callbackThrows n env = !env.callbackOk := by
  rw [callbackThrows, decide_eq_true hbound, Bool.true_and]

/-- With its callback object, `Extract` asks the handler for the item. -/
theorem extraction_of_callbackOk {env : OpenEnv} (h : env.callbackOk = true) (fs : Fuse7zLib7zip)
    (n : Node) : fs.extraction n env = fs.archive.extract env.codec n.extractId := by
  have hno : fs.callbackThrows n env = false := by simp [callbackThrows, h]
  rw [extraction, hno, if_neg Bool.false_ne_true]

/-- The sized stream takes the `Write` calls just when the program survives
    them. -/
theorem fill_ok_iff_survives {fs : Fuse7zLib7zip} {n : Node} {env : OpenEnv}
    {sized : Fuse7zOutStream}
    (h : (Fuse7zOutStream.new fs.nextStream).setSize env.alloc n.stat.stSize.toUInt64 = .ok sized) :
    (sized.fill env.overrunOk (fs.extraction n env).writes).1 = .ok () ↔ fs.Survives n env := by
  obtain ⟨hpos, hlen⟩ := Fuse7zOutStream.length_of_setSize h
  have hword := n.stat.stSize.toUInt64.toNat_lt
  have hzero : n.stat.stSize.toUInt64.toNat ≠ 0 ↔ n.stat.stSize.toUInt64 ≠ 0 := by
    rw [ne_eq, ne_eq, ← UInt64.toNat_inj, UInt64.toNat_zero]
  rw [Fuse7zOutStream.fill_ok_iff _ (by omega) (by omega), hpos, hlen, Nat.zero_add, hzero]
  rfl

theorem openOutcome_eq (fs : Fuse7zLib7zip) (n : Node) (env : OpenEnv) :
    fs.openOutcome n env =
      if env.alloc.Serves n.stat.stSize.toUInt64 then
        if fs.callbackThrows n env then .threw .badAlloc
        else if fs.Survives n env then .returned
        else .crashed .segfault
      else if env.alloc.maxSize < n.stat.stSize.toUInt64.toNat then .threw .lengthError
      else .threw .badAlloc := by
  have hset := Fuse7zOutStream.setSize_new fs.nextStream env.alloc n.stat.stSize.toUInt64
  rw [openOutcome]
  by_cases hserves : env.alloc.Serves n.stat.stSize.toUInt64
  · rw [if_pos hserves] at hset ⊢
    have hsurvives := fill_ok_iff_survives hset
    simp only [hset]
    by_cases hcallback : fs.callbackThrows n env = true
    · rw [if_pos hcallback, if_pos hcallback]
    · rw [if_neg hcallback, if_neg hcallback]
      -- the `Write` calls come to an end, or to a store that kills
      rcases Fuse7zOutStream.fill_fst env.overrunOk _ (fs.extraction n env).writes with hok | hkilled
      · rw [if_pos (hsurvives.mp hok), hok]
      · rw [if_neg fun h => absurd (hkilled.symm.trans (hsurvives.mpr h)) (by simp), hkilled]
  · rw [if_neg hserves] at hset ⊢
    by_cases hmax : env.alloc.maxSize < n.stat.stSize.toUInt64.toNat
    · rw [if_pos hmax] at hset ⊢
      rw [hset]
    · rw [if_neg hmax] at hset ⊢
      rw [hset]

theorem openStream_of_not_serves {fs : Fuse7zLib7zip} {n : Node} {env : OpenEnv}
    (h : ¬ env.alloc.Serves n.stat.stSize.toUInt64) :
    fs.openStream n env = Fuse7zOutStream.new fs.nextStream := by
  rw [openStream, Fuse7zOutStream.setSize_new, if_neg h]
  split_ifs <;> rfl

/-- The stream of an `open` is as long as the declared size, or empty. -/
theorem openStream_length {fs : Fuse7zLib7zip} {n : Node} {env : OpenEnv} :
    (fs.openStream n env).buffer.length =
      if env.alloc.Serves n.stat.stSize.toUInt64 then n.stat.stSize.toUInt64.toNat else 0 := by
  split_ifs with hserves
  · rw [openStream, Fuse7zOutStream.setSize_new, if_pos hserves]
    exact (Fuse7zOutStream.fill_length _ _ _).trans List.length_replicate
  · rw [openStream_of_not_serves hserves]
    rfl

/-- The stream `open` leaves when the data fits: the data, then zeros. -/
theorem openStream_holds {fs : Fuse7zLib7zip} {n : Node} {env : OpenEnv}
    (hserves : env.alloc.Serves n.stat.stSize.toUInt64)
    (hfit : (fs.extracted n env).length ≤ n.stat.stSize.toUInt64.toNat) :
    (fs.openStream n env).Holds n.stat.stSize.toUInt64.toNat (fs.extracted n env) := by
  obtain ⟨sized, hsized⟩ : ∃ sized, (Fuse7zOutStream.new fs.nextStream).setSize env.alloc
      n.stat.stSize.toUInt64 = .ok sized := by
    rw [Fuse7zOutStream.setSize_new, if_pos hserves]
    exact ⟨_, rfl⟩
  -- from a stream of zeros, the chunks one behind the other
  obtain ⟨hempty, -⟩ := Fuse7zOutStream.holds_of_setSize hsized
  have hall := hempty.writes (fs.extraction n env).writes
    (by rw [List.length_nil, Nat.zero_add]; exact hfit) (UInt64.toNat_lt _)
  have hok := (fill_ok_iff_survives hsized).mpr (Or.inl hfit)
  rw [List.nil_append] at hall
  rw [openStream, hsized]
  simp only [Fuse7zOutStream.fill_writes hok]
  exact hall

/-! ## An archive of one file -/

/-- The archive of the one file "a" of three bytes. -/
def oneFile : Archive := ⟨[Item.sized [97] false 3], by decide⟩

/-- An extraction that delivers the three bytes in two chunks. -/
def wholeOpen : OpenEnv where
  newOk := true
  alloc := ⟨2 ^ 40, true⟩
  callbackOk := true
  overrunOk := true
  codec := fun _ => ⟨[⟨[1], by decide⟩, ⟨[2, 3], by decide⟩], true⟩

/-- An extraction that fails before the first byte. -/
def failedOpen : OpenEnv where
  newOk := true
  alloc := ⟨2 ^ 40, true⟩
  callbackOk := true
  overrunOk := true
  codec := fun _ => ⟨[], false⟩

/-- An `open` whose buffer gets no memory. -/
def starvedOpen : OpenEnv := { wholeOpen with alloc := ⟨2 ^ 40, false⟩ }

theorem oneFile_lookup (es : List Callback) :
    lookup (run step (mount default oneFile 0 0) es) [slash, 97] = .ok (some 1) := by
  rw [(run_frame (mount default oneFile 0 0) es).lookup_eq]
  decide +kernel

/-- The node of "/a", in any state. -/
theorem oneFile_node (es : List Callback) :
    ∃ n, (run step (mount default oneFile 0 0) es).node? 1 = some n ∧ n.isDir = false ∧
      n.id = 0 ∧ n.stat.stSize = 3 := by
  have hfields : ((mount default oneFile 0 0).node? 1).map
      (fun n => (n.isDir, n.id, n.stat.stSize)) = some (false, 0, 3) := by
    decide +kernel
  obtain ⟨n₀, hn₀, heq⟩ := Option.map_eq_some_iff.mp hfields
  obtain ⟨hdir, hrest⟩ := Prod.mk.inj heq
  obtain ⟨hid, hsize⟩ := Prod.mk.inj hrest
  obtain ⟨n, hn, hfixed⟩ := (run_frame (mount default oneFile 0 0) es).node_of_old hn₀
  exact ⟨n, hn, (fixedPart_isDir hfixed).trans hdir, (fixedPart_id hfixed).trans hid,
    (fixedPart_stSize hfixed).trans hsize⟩

/-- What is extracted from "/a", in any state. -/
theorem oneFile_extraction (es : List Callback) {n : Node} (hid : n.id = 0) :
    extraction (run step (mount default oneFile 0 0) es) n wholeOpen = wholeOpen.codec 0 := by
  have harchive : (run step (mount default oneFile 0 0) es).archive = oneFile :=
    (run_frame (mount default oneFile 0 0) es).archive
  rw [extraction_of_callbackOk rfl, harchive, Node.extractId, hid]
  rfl

/-! ## Reporting the extraction -/

/-- `Extract` returned true and delivered as many bytes as the item has. -/
def Complete (fs : Fuse7zLib7zip) (n : Node) (env : OpenEnv) : Prop :=
  (fs.extraction n env).ok = true ∧
    (fs.extracted n env).length = n.stat.stSize.toUInt64.toNat

/-- `fuse7z_open` returns, 0 only on a complete extraction and otherwise a
    negative errno. -/
def Honest (reply : Reply) (a : Addr) (complete : Prop) : Prop :=
  ∃ r, reply = .opened r a ∧ ((r = 0 ∧ complete) ∨ r < 0)

/-- The reply of `fuse7z_open` at the node of a file. -/
theorem fuse7zOpen_reply {fs : Fuse7zLib7zip} {path : Bytes} {a : Addr} {n : Node}
    (hfound : lookup fs path = .ok (some a)) (hn : fs.node? a = some n) (hfile : n.isDir = false)
    (env : OpenEnv) :
    (fuse7zOpen fs path env).1 =
      if env.newOk = false then .opened (-enomem) a
      else if env.alloc.Serves n.stat.stSize.toUInt64 then
        if fs.callbackThrows n env then .opened (-enomem) a
        else if fs.Survives n env then .opened 0 a
        else .fault .segfault
      else if env.alloc.maxSize < n.stat.stSize.toUInt64.toNat then
        .fault (.uncaught .lengthError)
      else .opened (-enomem) a := by
  rw [fuse7zOpen_eq hfound hn hfile, openNode_eq]
  cases hnew : env.newOk with
  | false => rfl
  | true =>
      rw [if_pos rfl, if_neg (by simp), openOutcome_eq]
      split_ifs <;> rfl

theorem Complete.survives {fs : Fuse7zLib7zip} {n : Node} {env : OpenEnv}
    (h : fs.Complete n env) : fs.Survives n env := Or.inl (Nat.le_of_eq h.2)

/-- **When `fuse7z_open` is honest about the extraction**: it ran out of
    memory, or nothing went wrong. -/
theorem open_honest_iff {fs : Fuse7zLib7zip} {path : Bytes} {a : Addr} {n : Node}
    (hfound : lookup fs path = .ok (some a)) (hn : fs.node? a = some n) (hfile : n.isDir = false)
    (env : OpenEnv) :
    Honest (fuse7zOpen fs path env).1 a (fs.Complete n env) ↔
      env.newOk = false ∨
      (¬ env.alloc.Serves n.stat.stSize.toUInt64 ∧
        n.stat.stSize.toUInt64.toNat ≤ env.alloc.maxSize) ∨
      (env.alloc.Serves n.stat.stSize.toUInt64 ∧
        (fs.callbackThrows n env = true ∨ fs.Complete n env)) := by
  have hneg : (-enomem : Int32) < 0 := by decide
  rw [fuse7zOpen_reply hfound hn hfile]
  -- the ways out, in the order of the code
  by_cases hnew : env.newOk = false
  · rw [if_pos hnew]
    exact iff_of_true ⟨-enomem, rfl, Or.inr hneg⟩ (Or.inl hnew)
  · rw [if_neg hnew]
    by_cases hserves : env.alloc.Serves n.stat.stSize.toUInt64
    · rw [if_pos hserves]
      by_cases hcallback : fs.callbackThrows n env = true
      · rw [if_pos hcallback]
        exact iff_of_true ⟨-enomem, rfl, Or.inr hneg⟩
          (Or.inr (Or.inr ⟨hserves, Or.inl hcallback⟩))
      · rw [if_neg hcallback]
        refine ⟨?_, ?_⟩
        · rintro ⟨r, hr, ⟨-, hcomplete⟩ | hlt⟩
          · exact Or.inr (Or.inr ⟨hserves, Or.inr hcomplete⟩)
          · split_ifs at hr
            obtain ⟨rfl, -⟩ := Reply.opened.inj hr
            exact absurd hlt (by decide)
        · rintro (h | ⟨h, -⟩ | ⟨-, h | hcomplete⟩)
          · exact absurd h hnew
          · exact absurd hserves h
          · exact absurd h hcallback
          · rw [if_pos hcomplete.survives]
            exact ⟨0, rfl, Or.inl ⟨rfl, hcomplete⟩⟩
    · rw [if_neg hserves]
      by_cases hmax : env.alloc.maxSize < n.stat.stSize.toUInt64.toNat
      · -- `std::length_error` leaves the callback
        rw [if_pos hmax]
        refine ⟨?_, ?_⟩
        · rintro ⟨r, hr, -⟩
          exact absurd hr (by simp)
        · rintro (h | ⟨-, h⟩ | ⟨h, -⟩)
          · exact absurd h hnew
          · omega
          · exact absurd h hserves
      · rw [if_neg hmax]
        exact iff_of_true ⟨-enomem, rfl, Or.inr hneg⟩ (Or.inr (Or.inl ⟨hserves, by omega⟩))

theorem open_honest_oneFile :
    ∃ n, Honest (fuse7zOpen (mount default oneFile 0 0) [slash, 97] wholeOpen).1 1
      (Complete (mount default oneFile 0 0) n wholeOpen) := by
  obtain ⟨n, hn, hfile, hid, hsize⟩ := oneFile_node []
  have hserves : wholeOpen.alloc.Serves n.stat.stSize.toUInt64 := by
    rw [hsize]
    decide
  have hcomplete : Complete (run step (mount default oneFile 0 0) []) n wholeOpen := by
    rw [Complete, extracted, oneFile_extraction [] hid, hsize]
    decide
  exact ⟨n, (open_honest_iff (oneFile_lookup []) hn hfile wholeOpen).mpr
    (Or.inr (Or.inr ⟨hserves, Or.inr hcomplete⟩))⟩

/-- `Extract` fails on a file of three bytes, and `open` returns 0. -/
theorem failed_extraction_opened :
    (fuse7zOpen (mount default oneFile 0 0) [slash, 97] failedOpen).1 = .opened 0 1 ∧
    ∀ n, ¬ Honest (fuse7zOpen (mount default oneFile 0 0) [slash, 97] failedOpen).1 1
      (Complete (mount default oneFile 0 0) n failedOpen) := by
  have hreply : (fuse7zOpen (mount default oneFile 0 0) [slash, 97] failedOpen).1 = .opened 0 1 := by
    decide +kernel
  refine ⟨hreply, ?_⟩
  rintro n ⟨r, hr, ⟨-, hok, -⟩ | hlt⟩
  · have hnot : ((mount default oneFile 0 0).extraction n failedOpen).ok = false := by
      rw [extraction_of_callbackOk rfl, Archive.extract]
      split_ifs <;> rfl
    exact absurd (hnot.symm.trans hok) (by decide)
  · obtain ⟨rfl, -⟩ := Reply.opened.inj (hreply.symm.trans hr)
    exact absurd hlt (by decide)

/-! ## Failing without a trace -/

/-- `fuse7z_open` returns 0 or a negative errno, and with a negative errno the
    node's stream and what can be read from it are as they were. -/
def OpenAtomic (fs : Fuse7zLib7zip) (path : Bytes) (env : OpenEnv) (a : Addr) : Prop :=
  ∃ r, (fuse7zOpen fs path env).1 = .opened r a ∧ (r = 0 ∨ r < 0) ∧
    (r < 0 → (fuse7zOpen fs path env).2.buffer? a = fs.buffer? a ∧
      ∀ size offset mem, fuse7zRead (fuse7zOpen fs path env).2 a size offset mem
        = fuse7zRead fs a size offset mem)

/-- Nothing is open right after mounting. -/
theorem mount_buffer? (u : Uninit) (archive : Archive) (euid egid : UInt32) (a : Addr) :
    (mount u archive euid egid).buffer? a = none := by
  cases hn : (mount u archive euid egid).node? a with
  | none =>
      rw [buffer?, hn]
      rfl
  | some n =>
      have hclosed : n.buffer = none := (indexTree_refines u archive.items).closed hn
      rw [buffer?, hn]
      exact hclosed

/-- In every run, a new stream is none of those the nodes have. -/
theorem run_streamsBelow (u : Uninit) (archive : Archive) (euid egid : UInt32)
    (es : List Callback) : StreamsBelow (run step (mount u archive euid egid) es) := by
  apply run_invariant' (fun fs e h => (step_effect fs e).streamsBelow h)
  intro a s hs
  rw [mount_buffer?] at hs
  exact absurd hs (by simp)

/-- A new stream at the node is a trace of the `open`. -/
theorem buffer?_hang_openStream_ne {fs : Fuse7zLib7zip} (hbelow : StreamsBelow fs) {a : Addr}
    {n : Node} (hn : fs.node? a = some n) (env : OpenEnv) :
    (fs.hang a (fs.openStream n env)).buffer? a ≠ fs.buffer? a := by
  intro hbuf
  rw [buffer?_hang_self hn] at hbuf
  have hlt := hbelow a _ hbuf.symm
  rw [openStream_addr] at hlt
  exact Nat.lt_irrefl _ hlt

theorem openAtomic_iff_of_streamsBelow {fs : Fuse7zLib7zip} (hbelow : StreamsBelow fs)
    {path : Bytes} {a : Addr} {n : Node} (hfound : lookup fs path = .ok (some a))
    (hn : fs.node? a = some n) (hfile : n.isDir = false) (env : OpenEnv) :
    OpenAtomic fs path env a ↔
      env.newOk = false ∨
      (env.alloc.Serves n.stat.stSize.toUInt64 ∧ fs.callbackThrows n env = false ∧
        fs.Survives n env) := by
  have hstate : (fuse7zOpen fs path env).2 =
      if env.newOk then fs.hang a (fs.openStream n env) else fs := by
    rw [fuse7zOpen_eq hfound hn hfile, openNode_eq]
    split_ifs <;> rfl
  rw [OpenAtomic, fuse7zOpen_reply hfound hn hfile, hstate]
  cases hnew : env.newOk with
  | false =>
      refine iff_of_true ⟨-enomem, rfl, Or.inr (by decide), fun _ => ?_⟩ (Or.inl rfl)
      exact ⟨rfl, fun _ _ _ => rfl⟩
  | true =>
      rw [if_neg (by simp), if_pos rfl, or_iff_right (by simp)]
      by_cases hgood : env.alloc.Serves n.stat.stSize.toUInt64 ∧ fs.callbackThrows n env = false ∧
          fs.Survives n env
      · obtain ⟨hserves, hcallback, hsurvives⟩ := hgood
        rw [if_pos hserves, hcallback, if_neg Bool.false_ne_true, if_pos hsurvives]
        exact iff_of_true ⟨0, rfl, Or.inl rfl, fun hlt => absurd hlt (by decide)⟩
          ⟨hserves, rfl, hsurvives⟩
      · refine iff_of_false ?_ hgood
        rintro ⟨r, hr, -, hsame⟩
        -- a fault, or -ENOMEM with the new stream at the node
        have hthrew : r = -enomem := by
          split_ifs at hr with hserves hcallback hsurvives
          · exact (Reply.opened.inj hr).1.symm
          · exact absurd ⟨hserves, Bool.not_eq_true _ ▸ hcallback, hsurvives⟩ hgood
          · exact (Reply.opened.inj hr).1.symm
        subst hthrew
        exact buffer?_hang_openStream_ne hbelow hn env (hsame (by decide)).1

/-- **When `fuse7z_open` fails without a trace**, in any state a run of
    callbacks leads to. -/
theorem open_atomic_iff (u : Uninit) (archive : Archive) (euid egid : UInt32)
    (es : List Callback) {path : Bytes} {a : Addr} {n : Node}
    (hfound : lookup (run step (mount u archive euid egid) es) path = .ok (some a))
    (hn : (run step (mount u archive euid egid) es).node? a = some n) (hfile : n.isDir = false)
    (env : OpenEnv) :
    OpenAtomic (run step (mount u archive euid egid) es) path env a ↔
      env.newOk = false ∨
      (env.alloc.Serves n.stat.stSize.toUInt64 ∧
        (run step (mount u archive euid egid) es).callbackThrows n env = false ∧
        (run step (mount u archive euid egid) es).Survives n env) :=
  openAtomic_iff_of_streamsBelow (run_streamsBelow u archive euid egid es) hfound hn hfile env

theorem open_atomic_oneFile :
    OpenAtomic (run step (mount default oneFile 0 0) [.open [slash, 97] wholeOpen]) [slash, 97]
      wholeOpen 1 := by
  obtain ⟨n, hn, hfile, hid, hsize⟩ := oneFile_node [.open [slash, 97] wholeOpen]
  have hserves : wholeOpen.alloc.Serves n.stat.stSize.toUInt64 := by
    rw [hsize]
    decide
  have hcallback : callbackThrows (run step (mount default oneFile 0 0)
      [.open [slash, 97] wholeOpen]) n wholeOpen = false := Bool.and_false _
  have hfit : (extracted (run step (mount default oneFile 0 0) [.open [slash, 97] wholeOpen]) n
      wholeOpen).length ≤ n.stat.stSize.toUInt64.toNat := by
    rw [extracted, oneFile_extraction _ hid, hsize]
    decide
  exact (open_atomic_iff default oneFile 0 0 _ (oneFile_lookup _) hn hfile wholeOpen).mpr
    (Or.inr ⟨hserves, hcallback, Or.inl hfit⟩)

/-- With "/a" open, a second `open` that gets no memory answers -ENOMEM, and
    what the first handle could read is gone. -/
theorem starved_open_not_atomic :
    (fuse7zOpen (run step (mount default oneFile 0 0) [.open [slash, 97] wholeOpen]) [slash, 97]
      starvedOpen).1 = .opened (-12) 1 ∧
    ¬ OpenAtomic (run step (mount default oneFile 0 0) [.open [slash, 97] wholeOpen]) [slash, 97]
      starvedOpen 1 := by
  refine ⟨by decide +kernel, ?_⟩
  intro h
  obtain ⟨n, hn, hfile, -, hsize⟩ := oneFile_node [.open [slash, 97] wholeOpen]
  have hserves := (openAtomic_iff_of_streamsBelow (run_streamsBelow default oneFile 0 0 _)
    (oneFile_lookup _) hn hfile starvedOpen).mp h
  rw [hsize] at hserves
  exact absurd (hserves.resolve_left (by decide)).1 (by decide)

end Fuse7zLib7zip
end Fuse7z
