/-
  Fuse7z.Lib.Words

  The words of a text: the pieces between separators that are not empty.

  `words_append_cons` splits the first word off, which is what a scan does
  that collects characters and stores them at every separator.
-/
import Mathlib.Data.List.Basic

namespace Lib

variable {α : Type _} [DecidableEq α]

/-- The pieces between separators, without the empty ones. -/
def words (sep : α) (s : List α) : List (List α) := (s.splitOn sep).filter fun w => !w.isEmpty

/-- One piece, when it is a word. -/
def word (s : List α) : List (List α) := if s.isEmpty then [] else [s]

theorem words_of_not_mem {sep : α} {s : List α} (h : sep ∉ s) : words sep s = word s := by
  rw [words, List.splitOn_eq_singleton h, word, List.filter_cons, List.filter_nil]
  cases s.isEmpty with
  | true => rfl
  | false => rfl

/-- What stands in front of the first separator is one word, or none. -/
theorem words_append_cons {sep : α} {s : List α} (h : sep ∉ s) (rest : List α) :
    words sep (s ++ sep :: rest) = word s ++ words sep rest := by
  rw [words, List.splitOn_append_cons_self_of_not_mem h, List.filter_cons, word, words]
  cases s.isEmpty with
  | true => rfl
  | false => rfl

omit [DecidableEq α] in
theorem mem_word {s w : List α} (h : w ∈ word s) : w ≠ [] ∧ w = s := by
  rw [word] at h
  split_ifs at h with hempty
  · exact absurd h List.not_mem_nil
  · have heq : w = s := List.mem_singleton.mp h
    refine ⟨?_, heq⟩
    rw [heq]
    rintro rfl
    exact hempty rfl

/-- A word is not empty, and its characters are those of the text but for the
    separator. -/
theorem mem_words {sep : α} {s w : List α} (h : w ∈ words sep s) :
    w ≠ [] ∧ ∀ c ∈ w, c ∈ s ∧ c ≠ sep := by
  -- the text is taken apart at its first separator
  induction hlen : s.length using Nat.strongRecOn generalizing s with
  | ind len ih =>
      by_cases hsep : sep ∈ s
      · obtain ⟨a, b, rfl, ha⟩ := List.eq_append_cons_of_mem hsep
        rw [words_append_cons ha] at h
        rcases List.mem_append.mp h with hfirst | hrest
        · obtain ⟨hne, rfl⟩ := mem_word hfirst
          exact ⟨hne, fun c hc => ⟨List.mem_append_left _ hc, fun heq => ha (heq ▸ hc)⟩⟩
        · have hshort : b.length < len := by
            rw [← hlen, List.length_append, List.length_cons]
            omega
          obtain ⟨hne, hall⟩ := ih b.length hshort hrest rfl
          refine ⟨hne, fun c hc => ⟨?_, (hall c hc).2⟩⟩
          exact List.mem_append_right a (List.mem_cons_of_mem sep (hall c hc).1)
      · rw [words_of_not_mem hsep] at h
        obtain ⟨hne, rfl⟩ := mem_word h
        exact ⟨hne, fun c hc => ⟨hc, fun heq => hsep (heq ▸ hc)⟩⟩

end Lib
