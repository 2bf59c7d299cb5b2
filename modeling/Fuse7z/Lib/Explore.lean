/-
  Fuse7z.Lib.Explore

  Exploring a space of paths from one of them down: `entries ds` are the labels
  that go on behind the path `ds`, `enter ds` says whether to look behind it.

  `explore` lists what it comes to, each path in front of those behind it.
  What it finds are the paths whose every label is an entry and that are
  entered up to the last label (`mem_explore_iff`), each once
  (`explore_nodup`).
-/
import Mathlib.Data.List.Nodup
import Mathlib.Data.List.Infix

namespace Lib

variable {K : Type _}

def explore (entries : List K → List K) (enter : List K → Bool) : Nat → List K → List (List K)
  | 0, _ => []
  | fuel + 1, ds =>
      (entries ds).flatMap fun k =>
        (ds ++ [k]) :: if enter (ds ++ [k]) then explore entries enter fuel (ds ++ [k]) else []

/-- Behind `ds`, the labels are entries one after another, and every path but
    the last is entered. -/
inductive Passes (entries : List K → List K) (enter : List K → Bool) :
    List K → List K → Prop where
  | last {ds : List K} {k : K} (entry : k ∈ entries ds) : Passes entries enter ds [k]
  | cons {ds ks : List K} {k : K} (entry : k ∈ entries ds) (entered : enter (ds ++ [k]) = true)
      (rest : Passes entries enter (ds ++ [k]) ks) : Passes entries enter ds (k :: ks)

variable {entries : List K → List K} {enter : List K → Bool}

theorem Passes.ne_nil {ds ks : List K} (h : Passes entries enter ds ks) : ks ≠ [] := by
  cases h with
  | last => exact List.cons_ne_nil _ _
  | cons => exact List.cons_ne_nil _ _

/-- **What is found** are the paths that are passed. -/
theorem mem_explore_iff {fuel : Nat} {ds es : List K} :
    es ∈ explore entries enter fuel ds ↔
      ∃ ks, Passes entries enter ds ks ∧ ks.length ≤ fuel ∧ es = ds ++ ks := by
  induction fuel generalizing ds es with
  | zero =>
      refine iff_of_false List.not_mem_nil ?_
      rintro ⟨ks, hks, hlen, -⟩
      exact hks.ne_nil (List.eq_nil_of_length_eq_zero (Nat.le_zero.mp hlen))
  | succ fuel ih =>
      rw [explore, List.mem_flatMap]
      refine ⟨?_, ?_⟩
      · rintro ⟨k, hk, hmem⟩
        rcases List.mem_cons.mp hmem with rfl | hbelow
        · exact ⟨[k], .last hk, Nat.succ_le_succ (Nat.zero_le fuel), rfl⟩
        · split_ifs at hbelow with henter
          · obtain ⟨ks, hks, hlen, rfl⟩ := ih.mp hbelow
            exact ⟨k :: ks, .cons hk henter hks, Nat.succ_le_succ hlen, by simp⟩
          · exact absurd hbelow List.not_mem_nil
      · rintro ⟨ks, hks, hlen, rfl⟩
        cases hks with
        | @last _ k entry => exact ⟨k, entry, List.mem_cons_self⟩
        | @cons _ ks k entry entered rest =>
            refine ⟨k, entry, List.mem_cons_of_mem _ ?_⟩
            rw [if_pos entered]
            exact ih.mpr ⟨ks, rest, Nat.le_of_succ_le_succ hlen, by simp⟩

/-- **Nothing is found twice** where no label is an entry twice. -/
theorem explore_nodup (hentries : ∀ ds, (entries ds).Nodup) (fuel : Nat) (ds : List K) :
    (explore entries enter fuel ds).Nodup := by
  induction fuel generalizing ds with
  | zero => exact List.nodup_nil
  | succ fuel ih =>
      -- what is found at a label begins with the path to it
      have hblock : ∀ k es, es ∈ ((ds ++ [k]) ::
          if enter (ds ++ [k]) then explore entries enter fuel (ds ++ [k]) else []) →
            ds ++ [k] <+: es := by
        intro k es hes
        rcases List.mem_cons.mp hes with rfl | hbelow
        · exact List.prefix_rfl
        · split_ifs at hbelow
          · obtain ⟨ks, -, -, rfl⟩ := mem_explore_iff.mp hbelow
            exact List.prefix_append _ _
          · exact absurd hbelow List.not_mem_nil
      rw [explore, List.nodup_flatMap]
      refine ⟨?_, (hentries ds).imp ?_⟩
      · intro k _
        rw [List.nodup_cons]
        split_ifs
        · refine ⟨?_, ih _⟩
          intro hself
          obtain ⟨ks, hks, -, heq⟩ := mem_explore_iff.mp hself
          exact hks.ne_nil (List.self_eq_append_right.mp heq)
        · exact ⟨List.not_mem_nil, List.nodup_nil⟩
      · intro k k' hne es hes hes'
        have hlen : (ds ++ [k]).length = (ds ++ [k']).length := by simp
        have heq := (List.prefix_of_prefix_length_le (hblock k es hes) (hblock k' es hes')
          (Nat.le_of_eq hlen)).eq_of_length hlen
        exact hne (List.singleton_inj.mp (List.append_cancel_left heq))

/-- Where the entries are those of a set of paths that has with a path all in
    front of it, the paths passed are those of the set that are entered up to
    the last label. -/
theorem passes_iff {P : List K → Prop} (hentries : ∀ ds k, k ∈ entries ds ↔ P (ds ++ [k]))
    (hclosed : ∀ ds ks, P (ds ++ ks) → P ds) {ds ks : List K} :
    Passes entries enter ds ks ↔
      ks ≠ [] ∧ P (ds ++ ks) ∧
        ∀ es, es ≠ [] → es <+: ks → es ≠ ks → enter (ds ++ es) = true := by
  induction ks generalizing ds with
  | nil => exact iff_of_false (fun h => h.ne_nil rfl) (fun h => h.1 rfl)
  | cons k ks ih =>
      have happend : ∀ es, ds ++ k :: es = ds ++ [k] ++ es := by simp
      refine ⟨?_, ?_⟩
      · intro h
        refine ⟨List.cons_ne_nil k ks, ?_⟩
        cases h with
        | last entry =>
            refine ⟨(hentries ds k).mp entry, ?_⟩
            -- in front of one label there is nothing
            rintro (_ | ⟨e, es⟩) hnil hpre hne
            · exact absurd rfl hnil
            · obtain ⟨rfl, htail⟩ := List.cons_prefix_cons.mp hpre
              exact absurd (congrArg (e :: ·) (List.prefix_nil.mp htail)) hne
        | cons entry entered rest =>
            obtain ⟨-, hP, hall⟩ := ih.mp rest
            refine ⟨by rw [happend]; exact hP, ?_⟩
            rintro (_ | ⟨e, es⟩) hnil hpre hne
            · exact absurd rfl hnil
            · obtain ⟨rfl, htail⟩ := List.cons_prefix_cons.mp hpre
              rw [happend]
              by_cases hes : es = []
              · rw [hes, List.append_nil]
                exact entered
              · exact hall es hes htail fun heq => hne (congrArg (e :: ·) heq)
      · rintro ⟨-, hP, hall⟩
        rw [happend] at hP
        have hentry : k ∈ entries ds := (hentries ds k).mpr (hclosed _ ks hP)
        by_cases hks : ks = []
        · rw [hks]
          exact .last hentry
        · have hone : [k] <+: k :: ks := ⟨ks, rfl⟩
          refine .cons hentry (hall [k] (List.cons_ne_nil _ _) hone ?_) (ih.mpr ⟨hks, hP, ?_⟩)
          · intro heq
            exact hks (List.cons.inj heq).2.symm
          · intro es hes hpre hne
            rw [← happend]
            exact hall (k :: es) (List.cons_ne_nil _ _) (List.cons_prefix_cons.mpr ⟨rfl, hpre⟩)
              fun heq => hne (List.cons.inj heq).2

end Lib
