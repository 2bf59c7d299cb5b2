/-
  Fuse7z.Reading

  `read`, and what an opened file yields.

  `read` copies `size` bytes from the offset on and answers `size`, wherever
  the vector ends.  Inside the vector this is the window the caller asked for;
  a request that reaches past the end is not shortened, and it is the end of
  the program where there is no memory (`read_shortened_iff`).

  A file whose extraction delivered what it declares is read back as it was,
  in any pieces and with any callbacks on other nodes in between
  (`reads_return_extracted`): the stream holds the data once `open` is done,
  and no callback that leaves the node alone changes it.
-/
import Fuse7z.Extraction
import Fuse7z.Lib.Word

namespace Fuse7z

open Lib Fuse7z.Tree Fuse7zLib7zip

/-! ## Arguments and return values -/

/-- `INT_MAX` -/
def intMax : Nat := 2147483647

/-- A `size_t` up to `INT_MAX` survives the `int` `read` returns. -/
theorem toInt_toInt32_of_le {size : UInt64} (h : size.toNat ≤ intMax) :
    size.toUInt32.toInt32.toInt = size.toNat := by
  rw [intMax] at h
  have hlow : size.toUInt32.toNat = size.toNat := toNat_toUInt32 (by omega)
  rw [toInt_toInt32 (by omega), hlow]

/-! ## One read -/

/-- A read of `size` bytes at `off` from a file that holds `c` is cut at the
    end of the file. -/
structure ReadShortened (c : Bytes) (off size : Nat) (r : ReadReply) : Prop where
  count : r.ret.toInt = (min size (c.length - off) : Nat)
  data : r.data = window c off (min size (c.length - off))
  inside : ∀ i ∈ r.loads, i < c.length

/-- What a read that comes to an end has loaded. -/
theorem loads_of_fuse7zRead {fs : Fuse7zLib7zip} {a : Addr} {s : Fuse7zOutStream}
    (hs : fs.buffer? a = some s) {size : UInt64} {offset : Int64} {mem : Nat → Option Byte}
    {r : ReadReply} (h : fuse7zRead fs a size offset mem = .data r) :
    r.loads = List.range' offset.toUInt64.toNat size.toNat := by
  rw [fuse7zRead] at h
  rcases readNode_cases hs size offset mem with hfault | ⟨data, -, -, hread⟩
  · rw [hfault] at h
    exact absurd h (by simp)
  · rw [hread] at h
    obtain rfl := Reply.data.inj h
    rfl

/-- A read that ends inside the file returns what was asked for. -/
theorem fuse7zRead_inside {fs : Fuse7zLib7zip} {a : Addr} {s : Fuse7zOutStream}
    (hs : fs.buffer? a = some s) {size : UInt64} {offset : Int64} {off : Nat}
    (hoff : offset.toInt = off) (hin : off + size.toNat ≤ s.buffer.length) (mem : Nat → Option Byte) :
    fuse7zRead fs a size offset mem = .data
      { ret := size.toUInt32.toInt32
        data := window s.buffer off size.toNat
        loads := List.range' off size.toNat } := by
  have hoff' := toNat_toUInt64_of_toInt hoff
  rw [fuse7zRead, readNode_inside hs mem (Or.inr (by rw [hoff']; exact hin)), hoff']

/-- **Which reads are answered as if cut at the end of the file**: just those
    that need no cutting. -/
theorem read_shortened_iff {fs : Fuse7zLib7zip} {a : Addr} {s : Fuse7zOutStream}
    (hs : fs.buffer? a = some s) {size : UInt64} {offset : Int64} {off : Nat}
    (hoff : offset.toInt = off) (hsize : size.toNat ≤ intMax) (mem : Nat → Option Byte) :
    (∃ r, fuse7zRead fs a size offset mem = .data r ∧
        ReadShortened s.buffer off size.toNat r) ↔
      size = 0 ∨ off + size.toNat ≤ s.buffer.length := by
  have hret := toInt_toInt32_of_le hsize
  refine ⟨?_, ?_⟩
  · rintro ⟨r, hr, hshort⟩
    by_contra hno
    -- a request for at least one byte that reaches past the end
    have hpos : size.toNat ≠ 0 := fun h0 => hno (Or.inl (UInt64.toNat_inj.mp h0))
    have hover : ¬ off + size.toNat ≤ s.buffer.length := fun hle => hno (Or.inr hle)
    -- the last byte asked for is loaded from past the end
    have hlast : off + size.toNat - 1 ∈ r.loads := by
      rw [loads_of_fuse7zRead hs hr, toNat_toUInt64_of_toInt hoff, List.mem_range'_1]
      omega
    have hlt := hshort.inside _ hlast
    omega
  · rintro (rfl | hin)
    · -- nothing is asked for, so nothing is touched, wherever the offset is
      refine ⟨_, by rw [fuse7zRead, readNode_inside hs mem (Or.inl rfl)], ?_, ?_, ?_⟩
      · rw [hret, UInt64.toNat_zero, Nat.zero_min]
      · rw [UInt64.toNat_zero, Nat.zero_min]
        rfl
      · rw [UInt64.toNat_zero]
        exact fun i hi => absurd hi List.not_mem_nil
    · have hmin : min size.toNat (s.buffer.length - off) = size.toNat := by omega
      refine ⟨_, fuse7zRead_inside hs hoff hin mem, ?_, ?_, ?_⟩
      · rw [hret, hmin]
      · rw [hmin]
      · intro i hi
        have hrange := (List.mem_range'_1.mp hi).2
        omega

/-- The file "a" of three bytes, opened. -/
def oneFileOpened : Fuse7zLib7zip := (step (mount default oneFile 0 0) (.open [slash, 97] wholeOpen)).2

theorem oneFileOpened_buffer? :
    oneFileOpened.buffer? 1 = some { addr := 0, position := 3, buffer := [1, 2, 3] } := by
  decide +kernel

theorem read_shortened_two :
    ∃ r, fuse7zRead oneFileOpened 1 2 1 (fun _ => some 0) = .data r ∧
      ReadShortened [1, 2, 3] 1 2 r := by
  have hoff : (1 : Int64).toInt = ((1 : Nat) : Int) := by decide
  have hsize : (2 : UInt64).toNat ≤ intMax := by decide
  exact (read_shortened_iff oneFileOpened_buffer? hoff hsize fun _ => some 0).mpr (Or.inr (by decide))

/-- Five bytes at offset 1 of the three: five are returned, three of them from
    behind the vector. -/
theorem read_past_end :
    fuse7zRead oneFileOpened 1 5 1 (fun _ => some 0)
      = .data { ret := 5, data := [2, 3, 0, 0, 0], loads := [1, 2, 3, 4, 5] } ∧
    ¬ ∃ r, fuse7zRead oneFileOpened 1 5 1 (fun _ => some 0) = .data r ∧ ReadShortened [1, 2, 3] 1 5 r := by
  have hread : fuse7zRead oneFileOpened 1 5 1 (fun _ => some 0)
      = .data { ret := 5, data := [2, 3, 0, 0, 0], loads := [1, 2, 3, 4, 5] } := by
    decide +kernel
  refine ⟨hread, ?_⟩
  rintro ⟨r, hr, hshort⟩
  obtain rfl := Reply.data.inj (hread.symm.trans hr)
  exact absurd hshort.count (by decide)

/-! ## Reading a file back -/

/-- What a callback read through the handle `a`. -/
def bytesRead (a : Addr) : Callback × Reply → Bytes
  | (.read fh _ _ _, .data r) => if fh = a then r.data else []
  | _ => []

/-- All that a run reads through the handle `a`, in order. -/
def readBack (a : Addr) (fs : Fuse7zLib7zip) (es : List Callback) : Bytes :=
  ((transcript step fs es).map (bytesRead a)).flatten

/-- The reads through the handle `a` follow each other without a gap, from
    offset `pos` up to `stop`. -/
def Consecutive (a : Addr) : Nat → List Callback → Nat → Prop
  | pos, [], stop => pos = stop
  | pos, .read fh size offset _ :: es, stop =>
      if fh = a then
        offset.toInt = pos ∧ size.toNat ≤ intMax ∧ Consecutive a (pos + size.toNat) es stop
      else Consecutive a pos es stop
  | pos, _ :: es, stop => Consecutive a pos es stop

@[simp] theorem readBack_nil (a : Addr) (fs : Fuse7zLib7zip) : readBack a fs [] = [] := rfl

@[simp] theorem readBack_cons (a : Addr) (fs : Fuse7zLib7zip) (e : Callback)
    (es : List Callback) :
    readBack a fs (e :: es) = bytesRead a (e, (step fs e).1) ++ readBack a (step fs e).2 es := rfl

theorem Consecutive.le {a : Addr} {pos stop : Nat} {es : List Callback}
    (h : Consecutive a pos es stop) : pos ≤ stop := by
  induction es generalizing pos with
  | nil => exact Nat.le_of_eq h
  | cons e es ih =>
      cases e with
      | read fh size offset mem =>
          rw [Consecutive] at h
          split_ifs at h
          · have hrest := ih h.2.2
            omega
          · exact ih h
      | _ => exact ih h

/-- The node's stream holds `c`, and no callback of the run touches it. -/
theorem run_buffer? {a : Addr} {s : Fuse7zOutStream} {fs : Fuse7zLib7zip} {es : List Callback}
    (hs : fs.buffer? a = some s) (hes : Along step (fun t e => ¬ Touches t a e) fs es) :
    (run step fs es).buffer? a = some s :=
  run_invariant (I := fun t => t.buffer? a = some s)
    (fun t e ht hno => ((step_effect t e).buffer? hno).trans ht) hs hes

/-- Consecutive reads of an untouched stream join to the part they cover. -/
theorem readBack_eq_window {a : Addr} {s : Fuse7zOutStream} {fs : Fuse7zLib7zip}
    {es : List Callback} {pos stop : Nat} (hs : fs.buffer? a = some s)
    (hes : Along step (fun t e => ¬ Touches t a e) fs es) (hreads : Consecutive a pos es stop)
    (hstop : stop ≤ s.buffer.length) :
    readBack a fs es = window s.buffer pos (stop - pos) := by
  induction es generalizing fs pos with
  | nil =>
      have hpos : pos = stop := hreads
      rw [hpos, Nat.sub_self]
      rfl
  | cons e es ih =>
      obtain ⟨hno, hrest⟩ := hes
      -- the stream is the same before every callback
      have hs' : (step fs e).2.buffer? a = some s := ((step_effect fs e).buffer? hno).trans hs
      rw [readBack_cons]
      cases e with
      | read fh size offset mem =>
          rw [Consecutive] at hreads
          split_ifs at hreads with hfh
          · obtain ⟨hoff, -, hnext⟩ := hreads
            have hle := hnext.le
            -- this read yields its window, the rest continues behind it
            have hin : pos + size.toNat ≤ s.buffer.length := by omega
            have hdata := fuse7zRead_inside hs hoff hin mem
            have hread : bytesRead a (.read fh size offset mem,
                (step fs (.read fh size offset mem)).1) = window s.buffer pos size.toNat := by
              rw [hfh]
              simp only [step, hdata, bytesRead, if_true]
            have hsplit : stop - pos = size.toNat + (stop - (pos + size.toNat)) := by omega
            rw [hread, ih hs' hrest hnext, hsplit, ← window_append]
          · have hother : bytesRead a (.read fh size offset mem,
                (step fs (.read fh size offset mem)).1) = [] := by
              simp only [step, fuse7zRead]
              cases fs.readNode fh size offset mem with
              | error f => rfl
              | ok r => exact if_neg hfh
            rw [hother, List.nil_append]
            exact ih hs' hrest hreads
      | _ => exact ih hs' hrest hreads

/-- **An opened file is read back as it was extracted.**  After an `open`
    whose extraction delivered the item's size, and while no callback opens or
    releases the node again, every read inside the file returns its window,
    and consecutive reads of the whole file join to the extracted bytes. -/
theorem reads_return_extracted {fs : Fuse7zLib7zip} {path : Bytes} {a : Addr} {n : Node}
    (hfound : lookup fs path = .ok (some a)) (hn : fs.node? a = some n) (hfile : n.isDir = false)
    {env : OpenEnv} (hnew : env.newOk = true)
    (hserves : env.alloc.Serves n.stat.stSize.toUInt64) (hcallback : fs.callbackThrows n env = false)
    (hwhole : (fs.extracted n env).length = n.stat.stSize.toUInt64.toNat) {es : List Callback}
    (hes : Along step (fun t e => ¬ Touches t a e) (step fs (.open path env)).2 es) :
    (step fs (.open path env)).1 = .opened 0 a ∧
    (∀ (size : UInt64) (offset : Int64) (mem : Nat → Option Byte) (off : Nat), offset.toInt = off →
      size.toNat ≤ intMax → off + size.toNat ≤ n.stat.stSize.toUInt64.toNat →
      ∃ r, fuse7zRead (run step (step fs (.open path env)).2 es) a size offset mem = .data r ∧
        r.ret.toInt = size.toNat ∧ r.data = window (fs.extracted n env) off size.toNat) ∧
    (Consecutive a 0 es n.stat.stSize.toUInt64.toNat →
      readBack a (step fs (.open path env)).2 es = fs.extracted n env) := by
  have hopened : (step fs (.open path env)).2.buffer? a = some (fs.openStream n env) := by
    have hstate : (step fs (.open path env)).2 = fs.hang a (fs.openStream n env) := by
      simp only [step, fuse7zOpen_eq hfound hn hfile, openNode_eq, hnew, if_true]
    rw [hstate, buffer?_hang_self hn]
  -- all of the vector was written to
  have hcontent : (fs.openStream n env).buffer = fs.extracted n env := by
    have hholds := openStream_holds hserves (Nat.le_of_eq hwhole)
    rw [hholds.buffer_eq, filled_self 0 hwhole]
  refine ⟨?_, ?_, ?_⟩
  · have hsurvives : fs.Survives n env := Or.inl (Nat.le_of_eq hwhole)
    simp only [step, fuse7zOpen_reply hfound hn hfile, hnew, Bool.true_eq_false, if_false, hserves,
      hcallback, Bool.false_eq_true, hsurvives, if_true]
  · intro size offset mem off hoff hsize hin
    have hin' : off + size.toNat ≤ (fs.openStream n env).buffer.length := by
      rw [hcontent, hwhole]
      exact hin
    refine ⟨_, fuse7zRead_inside (run_buffer? hopened hes) hoff hin' mem, ?_, ?_⟩
    · exact toInt_toInt32_of_le hsize
    · rw [hcontent]
  · intro hreads
    have hlen : n.stat.stSize.toUInt64.toNat = (fs.openStream n env).buffer.length := by
      rw [hcontent, hwhole]
    rw [readBack_eq_window hopened hes hreads (Nat.le_of_eq hlen), Nat.sub_zero, hlen, window_all,
      hcontent]

/-- Two reads with a `getattr` in between return the file. -/
theorem reads_return_extracted_oneFile :
    readBack 1 oneFileOpened
      [.read 1 2 0 (fun _ => some 0), .getattr [slash], .read 1 1 2 (fun _ => some 0)] = [1, 2, 3] := by
  obtain ⟨n, hn, hfile, hid, hsize⟩ := oneFile_node []
  have hdata : extracted (mount default oneFile 0 0) n wholeOpen = [1, 2, 3] := by
    have hextraction := oneFile_extraction [] hid
    rw [run_nil] at hextraction
    rw [extracted, hextraction]
    rfl
  have hserves : wholeOpen.alloc.Serves n.stat.stSize.toUInt64 := by
    rw [hsize]
    decide
  have hwhole : (extracted (mount default oneFile 0 0) n wholeOpen).length
      = n.stat.stSize.toUInt64.toNat := by
    rw [hdata, hsize]
    decide
  have hreads : Consecutive 1 0
      [.read 1 2 0 (fun _ => some 0), .getattr [slash], .read 1 1 2 (fun _ => some 0)] 3 := by
    simp only [Consecutive, if_true]
    decide
  have huntouched : Along step (fun t e => ¬ Touches t 1 e)
      (step (mount default oneFile 0 0) (.open [slash, 97] wholeOpen)).2
      [.read 1 2 0 (fun _ => some 0), .getattr [slash], .read 1 1 2 (fun _ => some 0)] :=
    ⟨id, id, id, trivial⟩
  have hall := reads_return_extracted (oneFile_lookup []) hn hfile rfl hserves
    (Bool.and_false _) hwhole huntouched
  rw [hsize] at hall
  rw [← hdata]
  exact hall.2.2 hreads

end Fuse7z
