/-
  Fuse7z.Stability

  What `getattr` reports in the course of a run.

  Of all callbacks only `utimens` writes a `stat`, and it writes one field of
  it, the seconds of the modification time.  A run therefore leaves at every
  path what mounting put there, but for the seconds of the last successful
  `utimens` on that path (`run_stat`).  Its nanoseconds and its access time are
  dropped, so the answer is the one asked for just when they are what the node
  has already (`getattr_stable_iff`).
-/
import Fuse7z.Readdir
import Fuse7z.Times

namespace Fuse7z

open Lib Fuse7z.Tree Fuse7zLib7zip

/-! ## Paths -/

/-- A path as FUSE sends them: absolute, and without a '/' at its end but for
    the root's. -/
def FusePath (path : Bytes) : Prop := ∃ q, path = slash :: q ∧ q.getLast? ≠ some slash

theorem dirComponents_inj {q q' : Bytes} (h : dirComponents q = dirComponents q') : q = q' := by
  rw [dirComponents, dirComponents] at h
  split_ifs at h with hq hq' hq'
  · rw [hq, hq']
  · exact absurd h.symm (components_ne_nil q')
  · exact absurd h (components_ne_nil q)
  · exact components_inj h

/-- Different paths resolve to different nodes. -/
theorem fusePath_inj {fs : Fuse7zLib7zip} (hwf : fs.tree.WF fs.rootNode) {p p' : Bytes}
    (hp : FusePath p) (hp' : FusePath p') {a : Addr} (hfound : lookup fs p = .ok (some a))
    (hfound' : lookup fs p' = .ok (some a)) : p = p' := by
  obtain ⟨q, rfl, hend⟩ := hp
  obtain ⟨q', rfl, hend'⟩ := hp'
  have hkeys : lookupKeys q = lookupKeys q' :=
    hwf.arborescence.walk_inj (walk_of_find hfound) (walk_of_find hfound')
  rw [lookupKeys_eq_dirComponents hend, lookupKeys_eq_dirComponents hend'] at hkeys
  rw [dirComponents_inj hkeys]

/-- Every `utimens` is called with a path FUSE sends. -/
def FusePaths (es : List Callback) : Prop :=
  ∀ path tv0 tv1, Callback.utimens path tv0 tv1 ∈ es → FusePath path

/-! ## The last utimens -/

/-- The times a successful `utimens` on `p` was called with. -/
def timesSet (p : Bytes) : Callback × Reply → Option (Timespec × Timespec)
  | (.utimens path tv0 tv1, .ret r) => if path = p ∧ r = 0 then some (tv0, tv1) else none
  | _ => none

/-- The same for the last one of a run. -/
def lastTimes (p : Bytes) : List (Callback × Reply) → Option (Timespec × Timespec)
  | [] => none
  | e :: log => (lastTimes p log).or (timesSet p e)

/-- A `stat` after `st_mtime = tv[1].tv_sec`, when there was such a call. -/
def secondsSet (s : Stat) : Option (Timespec × Timespec) → Stat
  | none => s
  | some (_, tv1) => { s with stMtim := { s.stMtim with tvSec := tv1.tvSec } }

/-- A `stat` after `utimens` set the times it was given. -/
def timesOf (s : Stat) : Option (Timespec × Timespec) → Stat
  | none => s
  | some (tv0, tv1) => { s with stAtim := tv0, stMtim := tv1 }

/-- The later call counts. -/
theorem secondsSet_or (s : Stat) (earlier later : Option (Timespec × Timespec)) :
    secondsSet (secondsSet s earlier) later = secondsSet s (later.or earlier) := by
  cases later with
  | none => rfl
  | some tv =>
      cases earlier with
      | none => rfl
      | some tv' => rfl

/-- Setting the seconds is setting the times when the rest is there already. -/
theorem secondsSet_eq_timesOf_iff (s : Stat) (o : Option (Timespec × Timespec)) :
    secondsSet s o = timesOf s o ↔
      ∀ tv0 tv1, o = some (tv0, tv1) → tv0 = s.stAtim ∧ tv1.tvNsec = s.stMtim.tvNsec := by
  cases o with
  | none => simp [secondsSet, timesOf]
  | some tv =>
      obtain ⟨tv0, ⟨sec, nsec⟩⟩ := tv
      refine ⟨?_, ?_⟩
      · intro h tv0' tv1' heq
        obtain ⟨rfl, rfl⟩ := Prod.mk.inj (Option.some.inj heq)
        have hatim := congrArg Stat.stAtim h
        have hnsec := congrArg (fun s : Stat => s.stMtim.tvNsec) h
        exact ⟨hatim.symm, hnsec.symm⟩
      · intro h
        obtain ⟨rfl, hnsec⟩ := h tv0 ⟨sec, nsec⟩ rfl
        obtain rfl : nsec = s.stMtim.tvNsec := hnsec
        rfl

/-! ## One callback -/

/-- A callback other than `utimens` leaves every `stat` as it is. -/
theorem Fuse7zLib7zip.Effect.stat {fs fs' : Fuse7zLib7zip} {e : Callback} (heff : Effect fs e fs')
    (hno : ∀ path tv0 tv1, e ≠ .utimens path tv0 tv1) {a : Addr} {n : Node}
    (hn : fs.node? a = some n) : ∃ n', fs'.node? a = some n' ∧ n'.stat = n.stat := by
  have hbuf : ∀ (b : Addr) (s : Option Fuse7zOutStream),
      ∃ n', (fs.setBuffer b s).node? a = some n' ∧ n'.stat = n.stat := by
    intro b s
    rw [node?_setBuffer, hn]
    by_cases hab : b = a
    · rw [if_pos hab]
      exact ⟨_, rfl, rfl⟩
    · rw [if_neg hab]
      exact ⟨n, rfl, rfl⟩
  cases heff with
  | unchanged => exact ⟨n, hn, rfl⟩
  | opened found node file newOk => exact hbuf _ _
  | released node => exact hbuf _ _
  | timed => exact absurd rfl (hno _ _ _)

theorem timesSet_eq_none {p : Bytes} {e : Callback}
    (hno : ∀ path tv0 tv1, e ≠ .utimens path tv0 tv1) (r : Reply) : timesSet p (e, r) = none := by
  cases e with
  | utimens path tv0 tv1 => exact absurd rfl (hno path tv0 tv1)
  | _ => rfl

/-- `utimens` at the node a path resolves to, and at others. -/
theorem utimens_stat {fs : Fuse7zLib7zip} (hwf : fs.tree.WF fs.rootNode) {p : Bytes}
    (hp : FusePath p) {a : Addr} {n : Node} (hfound : lookup fs p = .ok (some a))
    (hn : fs.node? a = some n) {path : Bytes} (hpath : FusePath path) (tv0 tv1 : Timespec) :
    ∃ n', (fuse7zUtimens fs path tv0 tv1).2.node? a = some n' ∧
      n'.stat = secondsSet n.stat
        (timesSet p (.utimens path tv0 tv1, (fuse7zUtimens fs path tv0 tv1).1)) := by
  cases hother : lookup fs path with
  | error f =>
      simp only [fuse7zUtimens, hother, timesSet]
      exact ⟨n, hn, rfl⟩
  | ok found =>
      cases found with
      | none =>
          -- a failed call sets nothing
          have hfail : (-enoent : Int32) ≠ 0 := by decide
          simp only [fuse7zUtimens, hother, timesSet, hfail, and_false, if_false]
          exact ⟨n, hn, rfl⟩
      | some b =>
          have hnode : ({ fs with tree := fs.tree.modify b (setMtime tv1) } : Fuse7zLib7zip).node? a
              = if b = a then (fs.node? a).map (setMtime tv1) else fs.node? a :=
            Tree.node?_modify fs.tree b a _
          simp only [fuse7zUtimens, hother, timesSet, and_true]
          rw [hnode, hn]
          by_cases hab : b = a
          · -- the same node, so the same path
            subst hab
            have hsame : path = p := fusePath_inj hwf hpath hp hother hfound
            rw [if_pos rfl, if_pos hsame]
            exact ⟨_, rfl, rfl⟩
          · have hdiff : path ≠ p := by
              rintro rfl
              exact hab (Option.some.inj (Except.ok.inj (hother.symm.trans hfound)))
            rw [if_neg hab, if_neg hdiff]
            exact ⟨n, rfl, rfl⟩

/-- What a callback does to the `stat` of the node a path resolves to. -/
theorem step_stat {fs : Fuse7zLib7zip} (hwf : fs.tree.WF fs.rootNode) {p : Bytes} (hp : FusePath p)
    {a : Addr} {n : Node} (hfound : lookup fs p = .ok (some a)) (hn : fs.node? a = some n)
    {e : Callback} (he : ∀ path tv0 tv1, e = .utimens path tv0 tv1 → FusePath path) :
    ∃ n', (step fs e).2.node? a = some n' ∧
      n'.stat = secondsSet n.stat (timesSet p (e, (step fs e).1)) := by
  by_cases hno : ∀ path tv0 tv1, e ≠ .utimens path tv0 tv1
  · rw [timesSet_eq_none hno]
    exact (step_effect fs e).stat hno hn
  · obtain ⟨path, tv0, tv1, rfl⟩ : ∃ path tv0 tv1, e = .utimens path tv0 tv1 := by
      simpa using hno
    exact utimens_stat hwf hp hfound hn (he path tv0 tv1 rfl) tv0 tv1

/-! ## A run -/

/-- **The `stat` at a path after a run**: the seconds of the last successful
    `utimens`, and the rest as before. -/
theorem run_stat {fs : Fuse7zLib7zip} (hwf : fs.tree.WF fs.rootNode) {p : Bytes} (hp : FusePath p)
    {a : Addr} {n : Node} (hfound : lookup fs p = .ok (some a)) (hn : fs.node? a = some n)
    {es : List Callback} (hes : FusePaths es) :
    ∃ n', (run step fs es).node? a = some n' ∧
      n'.stat = secondsSet n.stat (lastTimes p (transcript step fs es)) := by
  induction es generalizing fs n with
  | nil => exact ⟨n, hn, rfl⟩
  | cons e es ih =>
      have he : ∀ path tv0 tv1, e = .utimens path tv0 tv1 → FusePath path := by
        rintro path tv0 tv1 rfl
        exact hes path tv0 tv1 List.mem_cons_self
      have hes' : FusePaths es := fun path tv0 tv1 h => hes path tv0 tv1 (List.mem_cons_of_mem _ h)
      obtain ⟨n₁, hn₁, hstat₁⟩ := step_stat hwf hp hfound hn he
      -- the path still resolves to this node, for the rest of the run
      have hframe := (step_effect fs e).frame
      have hwf₁ : (step fs e).2.tree.WF (step fs e).2.rootNode := by
        rw [hframe.rootNode]
        exact hframe.wf hwf
      obtain ⟨n', hn', hstat⟩ := ih hwf₁ ((hframe.lookup_eq p).trans hfound) hn₁ hes'
      refine ⟨n', hn', ?_⟩
      rw [hstat, hstat₁, secondsSet_or]
      rfl

/-- The reply of `getattr` with other times. -/
def Reply.mapStat (f : Stat → Stat) : Reply → Reply
  | .attr st => .attr (f st)
  | r => r

theorem attrOf_secondsSet {fs fs' : Fuse7zLib7zip} (h : Frame fs fs') {n n' : Node}
    {o : Option (Timespec × Timespec)} (hfixed : fixedPart n' = fixedPart n)
    (hstat : n'.stat = secondsSet n.stat o) : attrOf fs' n' = secondsSet (attrOf fs n) o := by
  have hdir : n'.isDir = n.isDir := fixedPart_isDir hfixed
  have hchilds : n'.childs = n.childs := fixedPart_congr Node.childs (fun _ => rfl) hfixed
  rw [attrOf, attrOf, hdir, hchilds, hstat, h.euid, h.egid]
  cases o with
  | none => rfl
  | some tv =>
      cases n.isDir with
      | true => rfl
      | false => rfl

/-- `getattr` after a run is `getattr` before it, with the seconds of the last
    `utimens`. -/
theorem run_getattr {fs : Fuse7zLib7zip} (hwf : fs.tree.WF fs.rootNode) {p : Bytes}
    (hp : FusePath p) {es : List Callback} (hes : FusePaths es) :
    fuse7zGetattr (run step fs es) p = (fuse7zGetattr fs p).mapStat
      fun st => secondsSet st (lastTimes p (transcript step fs es)) := by
  have hframe := run_frame fs es
  cases hfound : lookup fs p with
  | error f => simp only [fuse7zGetattr, hframe.lookup_eq, hfound, Reply.mapStat]
  | ok found =>
      cases found with
      | none => simp only [fuse7zGetattr, hframe.lookup_eq, hfound, Reply.mapStat]
      | some a =>
          have hfound' := (hframe.lookup_eq p).trans hfound
          cases hn : fs.node? a with
          | none =>
              have hnone : (run step fs es).node? a = none := by
                have hmap := hframe.nodes a
                rw [hn, Option.map_none, Option.map_eq_none_iff] at hmap
                exact hmap
              simp only [fuse7zGetattr, hfound', hfound, hn, hnone, Reply.mapStat]
          | some n =>
              obtain ⟨n', hn', hstat⟩ := run_stat hwf hp hfound hn hes
              obtain ⟨m, hm, hfixed⟩ := hframe.node hn'
              obtain rfl : n = m := Option.some.inj (hn.symm.trans hm)
              rw [fuse7zGetattr_eq hfound' hn', fuse7zGetattr_eq hfound hn,
                attrOf_secondsSet hframe hfixed hstat]
              rfl

/-- **When `getattr` reports what the run asked for.**  After any run the
    answer at a path is that right after mounting, with the times of the last
    successful `utimens` on that path if there was one: just when that call's
    access time, and the nanoseconds of its modification time, are those the
    node was mounted with. -/
theorem getattr_stable_iff (u : Uninit) (archive : Archive) (euid egid : UInt32) {p : Bytes}
    (hp : FusePath p) {es : List Callback} (hes : FusePaths es) :
    fuse7zGetattr (run step (mount u archive euid egid) es) p
        = (fuse7zGetattr (mount u archive euid egid) p).mapStat
          (fun st => timesOf st (lastTimes p (transcript step (mount u archive euid egid) es))) ↔
      ∀ a n tv0 tv1, lookup (mount u archive euid egid) p = .ok (some a) →
        (mount u archive euid egid).node? a = some n →
        lastTimes p (transcript step (mount u archive euid egid) es) = some (tv0, tv1) →
        tv0 = n.stat.stAtim ∧ tv1.tvNsec = n.stat.stMtim.tvNsec := by
  have hwf : (mount u archive euid egid).tree.WF (mount u archive euid egid).rootNode :=
    (indexTree_refines u archive.items).wf
  rw [run_getattr hwf hp hes]
  by_cases hfound : ∃ a n, lookup (mount u archive euid egid) p = .ok (some a) ∧
      (mount u archive euid egid).node? a = some n
  · obtain ⟨a, n, ha, hn⟩ := hfound
    obtain ⟨hatim, -, hmtim⟩ := attrOf_times (mount u archive euid egid) n
    rw [fuse7zGetattr_eq ha hn]
    have hiff := secondsSet_eq_timesOf_iff (attrOf (mount u archive euid egid) n)
      (lastTimes p (transcript step (mount u archive euid egid) es))
    rw [hatim, hmtim] at hiff
    refine ⟨?_, ?_⟩
    · intro h b m tv0 tv1 hb hm hlast
      obtain rfl : a = b := Option.some.inj (Except.ok.inj (ha.symm.trans hb))
      obtain rfl : n = m := Option.some.inj (hn.symm.trans hm)
      exact hiff.mp (Reply.attr.inj h) tv0 tv1 hlast
    · intro h
      have hset := hiff.mpr fun tv0 tv1 => h a n tv0 tv1 ha hn
      exact congrArg Reply.attr hset
  · -- nothing is reported, before or after
    refine iff_of_true ?_ (fun a n tv0 tv1 ha hn => absurd ⟨a, n, ha, hn⟩ hfound)
    cases hr : fuse7zGetattr (mount u archive euid egid) p with
    | attr st =>
        obtain ⟨a, n, ha, hn, -⟩ := node_of_getattr hr
        exact absurd ⟨a, n, ha, hn⟩ hfound
    | _ => rfl

theorem fusePath_a : FusePath [slash, 97] := ⟨[97], rfl, by decide⟩

theorem fusePaths_utimens {path : Bytes} (h : FusePath path) (tv0 tv1 : Timespec) :
    FusePaths [.utimens path tv0 tv1] := by
  intro path' tv0' tv1' hmem
  obtain ⟨rfl, -, -⟩ := Callback.utimens.inj (List.mem_singleton.mp hmem)
  exact h

/-- A call that leaves the access time and the nanoseconds as they are. -/
theorem getattr_stable_kept :
    fuse7zGetattr (run step (mount default oldArchive 0 0)
        [.utimens [slash, 97] ⟨0, 100⟩ ⟨7, 955161600⟩]) [slash, 97]
      = (fuse7zGetattr (mount default oldArchive 0 0) [slash, 97]).mapStat
        (fun st => timesOf st (lastTimes [slash, 97] (transcript step (mount default oldArchive 0 0)
          [.utimens [slash, 97] ⟨0, 100⟩ ⟨7, 955161600⟩]))) := by
  rw [getattr_stable_iff default oldArchive 0 0 fusePath_a (fusePaths_utimens fusePath_a _ _)]
  intro a n tv0 tv1 ha hn hlast
  have hfound : lookup (mount default oldArchive 0 0) [slash, 97] = .ok (some 1) := by
    decide +kernel
  obtain rfl : 1 = a := Option.some.inj (Except.ok.inj (hfound.symm.trans ha))
  have htimes : ((mount default oldArchive 0 0).node? 1).map
      (fun n => (n.stat.stAtim, n.stat.stMtim.tvNsec)) = some (⟨0, 100⟩, 955161600) := by
    decide +kernel
  rw [hn] at htimes
  obtain ⟨hatim, hnsec⟩ := Prod.mk.inj (Option.some.inj htimes)
  have hlast' : lastTimes [slash, 97] (transcript step (mount default oldArchive 0 0)
      [.utimens [slash, 97] ⟨0, 100⟩ ⟨7, 955161600⟩]) = some (⟨0, 100⟩, ⟨7, 955161600⟩) := by
    decide +kernel
  obtain ⟨rfl, rfl⟩ := Prod.mk.inj (Option.some.inj (hlast'.symm.trans hlast))
  exact ⟨hatim.symm, hnsec.symm⟩

/-- `utimens` to 3 s 4 ns and 1 s 2 ns: new seconds with the old nanoseconds are
    reported, and the old access time. -/
theorem utimens_mixes_times :
    fuse7zGetattr (run step (mount default oldArchive 0 0)
        [.utimens [slash, 97] ⟨3, 4⟩ ⟨1, 2⟩]) [slash, 97]
      = (fuse7zGetattr (mount default oldArchive 0 0) [slash, 97]).mapStat
        (fun st => { st with stAtim := ⟨0, 100⟩, stMtim := ⟨1, 955161600⟩ }) ∧
    ¬ fuse7zGetattr (run step (mount default oldArchive 0 0)
        [.utimens [slash, 97] ⟨3, 4⟩ ⟨1, 2⟩]) [slash, 97]
      = (fuse7zGetattr (mount default oldArchive 0 0) [slash, 97]).mapStat
        (fun st => timesOf st (lastTimes [slash, 97] (transcript step (mount default oldArchive 0 0)
          [.utimens [slash, 97] ⟨3, 4⟩ ⟨1, 2⟩]))) := by
  refine ⟨?_, ?_⟩
  · decide +kernel
  · decide +kernel

end Fuse7z
