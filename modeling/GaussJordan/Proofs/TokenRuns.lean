import GaussJordan.Tokens
import Mathlib.Data.List.TakeWhile

namespace GaussJordan

theorem pieces_eq_splitOnP (separates : Char → Bool) (text : List Char) :
    pieces separates text = text.splitOnP separates := by
  induction text with
  | nil => rfl
  | cons c cs ih =>
    rw [List.splitOnP_cons_eq_if_modifyHead]
    by_cases hc : separates c
    · rw [pieces_cons_of_separates hc, ih, if_pos hc]
    · obtain ⟨first, others, ho⟩ := List.exists_cons_of_ne_nil (pieces_ne_nil separates cs)
      rw [if_neg hc, ← ih, ho, List.modifyHead_cons]
      unfold pieces at ho ⊢
      rw [List.foldr_cons, ho, if_neg hc]

theorem lines_eq_splitOn (text : List Char) : lines text = text.splitOn '\n' :=
  pieces_eq_splitOnP _ text

/-- The longest runs of characters of a line that are not blank, from left to right. -/
inductive Runs : List Char → List (List Char) → Prop where
  | nil : Runs [] []
  | blank {c : Char} {line : List Char} {runs : List (List Char)} (hc : isBlank c = true)
    (rest : Runs line runs) : Runs (c :: line) runs
  | run {run line : List Char} {runs : List (List Char)} (hne : run ≠ [])
    (hrun : ∀ c ∈ run, isBlank c = false) (hend : ∀ c ∈ line.head?, isBlank c = true)
    (rest : Runs line runs) : Runs (run ++ line) (run :: runs)

@[simp] theorem tokens_nil : tokens [] = [] := rfl

theorem tokens_cons_of_isBlank {c : Char} (hc : isBlank c = true) (line : List Char) :
    tokens (c :: line) = tokens line := by
  simp [tokens, pieces_cons_of_separates hc]

theorem tokens_append {run line : List Char} (hne : run ≠ [])
    (hrun : ∀ c ∈ run, isBlank c = false) (hend : ∀ c ∈ line.head?, isBlank c = true) :
    tokens (run ++ line) = run :: tokens line := by
  cases line with
  | nil => simp [tokens, pieces_eq_splitOnP, List.splitOnP_eq_singleton hrun, hne]
  | cons c line =>
    have hc := hend c rfl
    rw [tokens_cons_of_isBlank hc]
    simp [tokens, pieces_eq_splitOnP, List.splitOnP_append_cons_of_forall_mem hrun c hc, hne]

theorem runs_tokens : ∀ line : List Char, Runs line (tokens line)
  | [] => .nil
  | c :: line => by
    by_cases hc : isBlank c = true
    · rw [tokens_cons_of_isBlank hc]
      exact .blank hc (runs_tokens line)
    · -- the run that starts here goes on up to the next blank
      have hsplit := List.takeWhile_append_dropWhile (p := fun c => !isBlank c) (l := line)
      have hrun : ∀ d ∈ c :: line.takeWhile (fun c => !isBlank c), isBlank d = false := by
        intro d hd
        rcases List.mem_cons.mp hd with rfl | hd
        · simpa using hc
        · simpa using List.mem_takeWhile_imp hd
      have hend : ∀ d ∈ (line.dropWhile fun c => !isBlank c).head?, isBlank d = true := by
        intro d hd
        have hnot := List.head?_dropWhile_not (fun c => !isBlank c) line
        rw [Option.mem_def.mp hd] at hnot
        simpa using hnot
      have hshort : (line.dropWhile fun c => !isBlank c).length < (c :: line).length :=
        Nat.lt_succ_of_le (List.length_dropWhile_le _ line)
      have hline : c :: line = (c :: line.takeWhile fun c => !isBlank c) ++
          line.dropWhile fun c => !isBlank c := by rw [List.cons_append, hsplit]
      rw [hline, tokens_append (List.cons_ne_nil _ _) hrun hend]
      exact .run (List.cons_ne_nil _ _) hrun hend (runs_tokens _)
termination_by line => line.length
decreasing_by
  · exact Nat.lt_succ_self line.length
  · exact hshort

/-- The tokens of a line are its longest runs of characters that are not blank. -/
theorem tokens_eq_iff {line : List Char} {runs : List (List Char)} :
    tokens line = runs ↔ Runs line runs := by
  constructor
  · rintro rfl
    exact runs_tokens line
  · intro h
    induction h with
    | nil => rfl
    | blank hc _ ih => rw [tokens_cons_of_isBlank hc, ih]
    | run hne hrun hend _ ih => rw [tokens_append hne hrun hend, ih]

theorem tokens_intercalate {words : List (List Char)} (hne : ∀ word ∈ words, word ≠ [])
    (hwords : ∀ word ∈ words, ∀ c ∈ word, isBlank c = false) :
    tokens (['\t'].intercalate words) = words := by
  have htab : isBlank '\t' = true := by decide
  induction words with
  | nil => rfl
  | cons word words ih =>
    have hword := hwords word List.mem_cons_self
    have hnil := hne word List.mem_cons_self
    cases words with
    | nil =>
      have hend : ∀ c ∈ ([] : List Char).head?, isBlank c = true := by simp
      have hlast := tokens_append hnil hword hend
      rw [List.intercalate_singleton]
      simpa using hlast
    | cons next words =>
      rw [List.intercalate_cons_cons, List.append_assoc, List.singleton_append,
        tokens_append hnil hword (by simp [htab]), tokens_cons_of_isBlank htab,
        ih (fun w hw => hne w (List.mem_cons_of_mem _ hw))
          (fun w hw => hwords w (List.mem_cons_of_mem _ hw))]

end GaussJordan
