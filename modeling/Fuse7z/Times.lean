/-
  Fuse7z.Times

  From a FILETIME to a `struct timespec`.

  The constructor subtracts the ticks between the two epochs and divides, in
  unsigned 64-bit arithmetic.  The constant is right and the nanoseconds are
  in range, but an instant before 1970 goes around: it comes out 2^64 ticks
  too late (`exact_toTimespec_iff`).  Different instants stay different, and
  keep their order on each side of the epoch (`before_toTimespec_iff`).
-/
import Fuse7z.Lookup
import Fuse7z.Lib.Word

namespace Fuse7z

open Lib Fuse7z.Tree Fuse7zLib7zip

/-- The Unix epoch as a FILETIME, in ticks of 100 ns since 1601-01-01. -/
def unixEpoch : Nat := 116444736000000000

/-- The timespec is the instant `t`, to the tick. -/
structure Exact (t : UInt64) (ts : Timespec) : Prop where
  nsec_nonneg : 0 ≤ ts.tvNsec.toInt
  nsec_lt : ts.tvNsec.toInt < 1000000000
  ticks : ts.tvSec.toInt * 10000000 + ts.tvNsec.toInt / 100 = (t.toNat : Int) - unixEpoch

/-- The order of time. -/
def Timespec.Before (ts ts' : Timespec) : Prop :=
  ts.tvSec.toInt < ts'.tvSec.toInt ∨
    (ts.tvSec.toInt = ts'.tvSec.toInt ∧ ts.tvNsec.toInt < ts'.tvNsec.toInt)

/-! ## The arithmetic of the constructor -/

/-- The three products of the constructor add up to the epoch. -/
theorem bias_toNat : bias.toNat = unixEpoch := by decide

theorem toTimespec_sec (t : UInt64) :
    (toTimespec t).tvSec.toInt = ((t - bias).toNat / 10000000 : Nat) := by
  have hdiv : ((t - bias) / gain).toNat = (t - bias).toNat / 10000000 := UInt64.toNat_div _ _
  have hword : (t - bias).toNat < 2 ^ 64 := (t - bias).toNat_lt
  rw [← hdiv]
  apply toInt_toInt64
  omega

theorem toTimespec_nsec (t : UInt64) :
    (toTimespec t).tvNsec.toInt = ((t - bias).toNat % 10000000 * 100 : Nat) := by
  have hmod : ((t - bias) % gain).toNat = (t - bias).toNat % 10000000 := UInt64.toNat_mod _ _
  -- the product is below 10^9, so it does not wrap
  have hmul : ((t - bias) % gain * 100).toNat = (t - bias).toNat % 10000000 * 100 := by
    have hhundred : (100 : UInt64).toNat = 100 := rfl
    rw [UInt64.toNat_mul, hmod, hhundred]
    exact Nat.mod_eq_of_lt (by omega)
  rw [← hmul]
  apply toInt_toInt64
  omega

/-- Seconds and ticks make up the difference the constructor computed. -/
theorem toTimespec_ticks (t : UInt64) :
    (toTimespec t).tvSec.toInt * 10000000 + (toTimespec t).tvNsec.toInt / 100
      = (t - bias).toNat := by
  rw [toTimespec_sec, toTimespec_nsec]
  omega

/-- **Which instants are stored exactly**: those from 1970 on. -/
theorem exact_toTimespec_iff (t : UInt64) : Exact t (toTimespec t) ↔ unixEpoch ≤ t.toNat := by
  have hticks := toTimespec_ticks t
  have hsub := toNat_sub_wrap t bias
  have hword : t.toNat < 2 ^ 64 := t.toNat_lt
  rw [bias_toNat] at hsub
  have hepoch : unixEpoch = 116444736000000000 := rfl
  refine ⟨?_, ?_⟩
  · intro h
    by_contra hbefore
    -- the difference is a word, and the exact one is negative
    rw [if_neg hbefore] at hsub
    have hexact := h.ticks
    omega
  · intro hle
    rw [if_pos hle] at hsub
    have hnsec := toTimespec_nsec t
    refine ⟨?_, ?_, ?_⟩
    · omega
    · omega
    · rw [hticks, hsub]
      omega

/-! ## Different instants, and their order -/

theorem toTimespec_inj {t t' : UInt64} (h : toTimespec t = toTimespec t') : t = t' := by
  have hticks := toTimespec_ticks t
  rw [h, toTimespec_ticks t'] at hticks
  have hdiff : t - bias = t' - bias := UInt64.toNat_inj.mp (by omega)
  have hback := congrArg (· + bias) hdiff
  simpa using hback

/-- The order of the timespecs is that of the differences. -/
theorem before_iff_lt (t t' : UInt64) :
    (toTimespec t).Before (toTimespec t') ↔ (t - bias).toNat < (t' - bias).toNat := by
  rw [Timespec.Before, toTimespec_sec, toTimespec_sec, toTimespec_nsec, toTimespec_nsec]
  omega

/-- **Which instants keep their order**: two on the same side of 1970. -/
theorem before_toTimespec_iff {t t' : UInt64} (h : t < t') :
    (toTimespec t).Before (toTimespec t') ↔ unixEpoch ≤ t.toNat ∨ t'.toNat < unixEpoch := by
  have hlt : t.toNat < t'.toNat := UInt64.lt_iff_toNat_lt.mp h
  have hword : t'.toNat < 2 ^ 64 := t'.toNat_lt
  have hepoch : unixEpoch = 116444736000000000 := rfl
  rw [before_iff_lt, toNat_sub_wrap, toNat_sub_wrap, bias_toNat]
  split_ifs with h1 h2
  · omega
  · omega
  · omega
  · omega

/-! ## What getattr reports -/

/-- The times of an item, each with the place it is reported at. -/
def Item.reported (x : Item) (st : Stat) : List (Option UInt64 × Timespec) :=
  [(x.aTime, st.stAtim), (x.cTime, st.stCtim), (x.mTime, st.stMtim)]

theorem attrOf_times (fs : Fuse7zLib7zip) (n : Node) :
    (attrOf fs n).stAtim = n.stat.stAtim ∧ (attrOf fs n).stCtim = n.stat.stCtim ∧
      (attrOf fs n).stMtim = n.stat.stMtim := by
  rw [attrOf]
  cases n.isDir with
  | true => exact ⟨rfl, rfl, rfl⟩
  | false => exact ⟨rfl, rfl, rfl⟩

/-- What a turn of the loop stores for the times its item has. -/
theorem stored_eq_toTimespec (u : Uninit) (i : Nat) (x : Item) (n : Node) {t : UInt64}
    {ts : Timespec} (hmem : (some t, ts) ∈ x.reported (setItem u i x n).stat) :
    ts = toTimespec t := by
  simp only [Item.reported, List.mem_cons, Prod.mk.injEq, List.not_mem_nil, or_false] at hmem
  rcases hmem with ⟨ht, rfl⟩ | ⟨ht, rfl⟩ | ⟨ht, rfl⟩
  · show toTimespec (x.aTime.getD (u.time i)) = toTimespec t
    rw [← ht, Option.getD_some]
  · show toTimespec (x.cTime.getD (x.aTime.getD (u.time i))) = toTimespec t
    rw [← ht, Option.getD_some]
  · show toTimespec (x.mTime.getD (x.cTime.getD (x.aTime.getD (u.time i)))) = toTimespec t
    rw [← ht, Option.getD_some]

/-- At the path of an item (the last one that has it) `getattr` reports what
    the loop stored for it. -/
theorem reported_eq_stored {u : Uninit} {archive : Archive} {euid egid : UInt32} {q : Bytes}
    {i : Nat} {x : Item} {st : Stat} (hlast : IsLast archive.items (lookupKeys q) i x)
    (hattr : fuse7zGetattr (mount u archive euid egid) (slash :: q) = .attr st) :
    ∃ n, x.reported st = x.reported (setItem u i x n).stat := by
  obtain ⟨a, n, hfound, hn, rfl⟩ := node_of_getattr hattr
  -- the path resolves to the item's node
  obtain ⟨b, m, hw, hm, hagree⟩ := node_of_index u (index_of_isLast hlast)
  obtain rfl : b = a := Option.some.inj (hw.symm.trans (walk_of_find hfound))
  obtain rfl : m = n := Option.some.inj (hm.symm.trans hn)
  obtain ⟨ha, hc, hmt⟩ := attrOf_times (mount u archive euid egid) m
  have heq : setItem u i x m = m := hagree
  refine ⟨m, ?_⟩
  rw [heq, Item.reported, Item.reported, ha, hc, hmt]

/-- **Which times are stored and reported exactly**: those not before 1970.
    The conversion is injective, and keeps the order of two instants just when
    none or both are before 1970. -/
theorem times_exact_iff (u : Uninit) (archive : Archive) (euid egid : UInt32) {q : Bytes}
    {i : Nat} {x : Item} {st : Stat} (hlast : IsLast archive.items (lookupKeys q) i x)
    (hattr : fuse7zGetattr (mount u archive euid egid) (slash :: q) = .attr st) :
    (∀ j y n t ts, (some t, ts) ∈ Item.reported y (setItem u j y n).stat →
      ts = toTimespec t ∧ (Exact t ts ↔ unixEpoch ≤ t.toNat)) ∧
    (∀ t ts, (some t, ts) ∈ x.reported st →
      ts = toTimespec t ∧ (Exact t ts ↔ unixEpoch ≤ t.toNat)) ∧
    (∀ t t', toTimespec t = toTimespec t' → t = t') ∧
    (∀ t t', t < t' →
      ((toTimespec t).Before (toTimespec t') ↔ unixEpoch ≤ t.toNat ∨ t'.toNat < unixEpoch)) := by
  have hstored : ∀ j y n t ts, (some t, ts) ∈ Item.reported y (setItem u j y n).stat →
      ts = toTimespec t ∧ (Exact t ts ↔ unixEpoch ≤ t.toNat) := by
    intro j y n t ts hmem
    have hts := stored_eq_toTimespec u j y n hmem
    refine ⟨hts, ?_⟩
    rw [hts]
    exact exact_toTimespec_iff t
  refine ⟨hstored, ?_, fun _ _ => toTimespec_inj, fun _ _ => before_toTimespec_iff⟩
  intro t ts hmem
  obtain ⟨n, hreported⟩ := reported_eq_stored hlast hattr
  rw [hreported] at hmem
  exact hstored i x n t ts hmem

/-- The archive of one item "a", accessed a tick into 1970 and changed in
    1601. -/
def oldArchive : Archive :=
  ⟨[{ fullPath := [97], isDir := false, size := some 0, aTime := some 116444736000000001,
      cTime := some 116444736000000001, mTime := some 0 }], by decide⟩

theorem oldArchive_isLast :
    ∃ x, IsLast oldArchive.items (lookupKeys [97]) 0 x ∧
      x.aTime = some 116444736000000001 ∧ x.mTime = some 0 := by
  refine ⟨_, ⟨rfl, by decide, ?_⟩, rfl, rfl⟩
  intro j y hj hy
  have hlen : j < 1 := (List.getElem?_eq_some_iff.mp hy).1
  omega

theorem oldArchive_getattr :
    ∃ st, fuse7zGetattr (mount default oldArchive 0 0) [slash, 97] = .attr st := by
  have hfound : lookup (mount default oldArchive 0 0) [slash, 97] = .ok (some 1) := by
    decide +kernel
  have hsome : ((mount default oldArchive 0 0).node? 1).isSome := by
    decide +kernel
  obtain ⟨n, hn⟩ := Option.isSome_iff_exists.mp hsome
  exact ⟨_, fuse7zGetattr_eq hfound hn⟩

/-- The access time is exact. -/
theorem times_exact_oldArchive :
    ∃ st, fuse7zGetattr (mount default oldArchive 0 0) [slash, 97] = .attr st ∧
      Exact 116444736000000001 st.stAtim := by
  obtain ⟨x, hlast, hat, -⟩ := oldArchive_isLast
  obtain ⟨st, hattr⟩ := oldArchive_getattr
  refine ⟨st, hattr, ?_⟩
  have hmem : (some 116444736000000001, st.stAtim) ∈ x.reported st := by
    rw [Item.reported, hat]
    exact List.mem_cons_self
  rw [((times_exact_iff default oldArchive 0 0 hlast hattr).2.1 _ _ hmem).2]
  decide

/-- A modification time in 1601 is reported as one in the year 60056. -/
theorem old_time_wraps :
    ∃ st, fuse7zGetattr (mount default oldArchive 0 0) [slash, 97] = .attr st ∧
      st.stMtim = { tvSec := 1833029933770, tvNsec := 955161600 } ∧ ¬ Exact 0 st.stMtim := by
  obtain ⟨x, hlast, -, hmt⟩ := oldArchive_isLast
  obtain ⟨st, hattr⟩ := oldArchive_getattr
  have hmem : (some 0, st.stMtim) ∈ x.reported st := by
    rw [Item.reported, hmt]
    exact List.mem_cons_of_mem _ (List.mem_cons_of_mem _ List.mem_cons_self)
  obtain ⟨n, hreported⟩ := reported_eq_stored hlast hattr
  rw [hreported] at hmem
  have hts : st.stMtim = toTimespec 0 := stored_eq_toTimespec default 0 x n hmem
  refine ⟨st, hattr, hts.trans (by decide), ?_⟩
  rw [hts, exact_toTimespec_iff]
  decide

end Fuse7z
