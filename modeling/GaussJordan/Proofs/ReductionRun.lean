import GaussJordan.Proofs.ColumnClearing
import GaussJordan.Proofs.PivotSearch

namespace GaussJordan

variable {α : Type} [Scalar α] {tolerance : α}

/-- The column after the last pivot of a run; the answers of its pivot search are given. -/
def nextLead (answers : List (Nat × Nat)) : Nat :=
  (answers.getLast?.map fun answer => answer.2 + 1).getD 0

@[simp] theorem nextLead_nil : nextLead [] = 0 := rfl

@[simp] theorem nextLead_append (answers : List (Nat × Nat)) (found col : Nat) :
    nextLead (answers ++ [(found, col)]) = col + 1 := by
  simp [nextLead]

/-- What is reached from a worksheet by taking the pivots that the search answers with, one row
after the other. -/
inductive PivotReach (tolerance : α) (first : Worksheet α) :
    List (Nat × Nat) → Worksheet α → Prop where
  | start : PivotReach tolerance first [] first
  | next {answers : List (Nat × Nat)} {w w' : Worksheet α} {found col : Nat}
    (previous : PivotReach tolerance first answers w)
    (room : answers.length < w.state.rows)
    (answer : w.state.findPivot tolerance answers.length (nextLead answers) =
      .ok (some (found, col)))
    (taken : w.takePivot answers.length found col = .ok w') :
    PivotReach tolerance first (answers ++ [(found, col)]) w'

/-- No row is left for a pivot, or the search finds none. -/
def Settled (tolerance : α) (answers : List (Nat × Nat)) (w : Worksheet α) : Prop :=
  w.state.rows ≤ answers.length ∨
    w.state.findPivot tolerance answers.length (nextLead answers) = .ok none

def reductionSheet (m : DenseMatrix α) : Worksheet α :=
  (Worksheet.start .reduction m).announce (.reducing m.rows m.cols)

@[simp] theorem snapshots_reductionSheet {β : Type} (m : DenseMatrix β) :
    (reductionSheet m).log.snapshots = [] := rfl

/-- The answers of the pivot search in the course of a reduction, in order. -/
def DenseMatrix.TakesPivots (tolerance : α) (m : DenseMatrix α) (answers : List (Nat × Nat)) :
    Prop :=
  ∃ w, PivotReach tolerance (reductionSheet m) answers w ∧ Settled tolerance answers w

namespace PivotReach

variable {first w : Worksheet α} {answers : List (Nat × Nat)}

/-- A run is a derivation, and what holds at the start and is kept whenever a pivot is taken holds
throughout it. -/
theorem invariant (hfirst : first.state.WellFormed)
    {P : List (Nat × Nat) → DenseMatrix α → List (Operation α) → Prop}
    (start : P [] first.state [])
    (next : ∀ {answers m ops found col}, m.WellFormed → m.rows = first.state.rows →
      m.cols = first.state.cols → answers.length < m.rows →
      m.FirstPivot tolerance answers.length (nextLead answers) found col → P answers m ops →
      P (answers ++ [(found, col)]) (m.pivoted answers.length found col)
        (ops ++ m.pivoting answers.length found col))
    (reach : PivotReach tolerance first answers w) :
    (w.state.WellFormed ∧ w.state.rows = first.state.rows ∧ w.state.cols = first.state.cols) ∧
      ∃ ops, first.performAll ops = .ok w ∧ P answers w.state ops := by
  induction reach with
  | start => exact ⟨⟨hfirst, rfl, rfl⟩, [], rfl, start⟩
  | @next answers w w' found col previous room answer taken ih =>
    obtain ⟨⟨hw, hr, hc⟩, ops, hops, hP⟩ := ih
    have hp := (DenseMatrix.findPivot_eq_some_iff hw).mp answer
    obtain ⟨v, hv, hall, hstate⟩ := Worksheet.takePivot_spec hw room hp.lt_rows hp.lt_cols
    obtain rfl : w' = v := by
      rw [taken] at hv
      exact Except.ok.inj hv
    refine ⟨?_, _, Worksheet.performAll_append_ok hops hall, ?_⟩
    · rw [hstate]
      exact ⟨DenseMatrix.pivoted_wellFormed _ _ _, hr, hc⟩
    · rw [hstate]
      exact next hw hr hc room hp hP

theorem shape (hfirst : first.state.WellFormed) (reach : PivotReach tolerance first answers w) :
    w.state.WellFormed ∧ w.state.rows = first.state.rows ∧ w.state.cols = first.state.cols :=
  (invariant hfirst (P := fun _ _ _ => True) trivial (fun _ _ _ _ _ _ => trivial) reach).1

theorem derivation (hfirst : first.state.WellFormed) (reach : PivotReach tolerance first answers w) :
    ∃ ops, first.performAll ops = .ok w := by
  obtain ⟨_, ops, hall, _⟩ :=
    reach.invariant hfirst (P := fun _ _ _ => True) trivial fun _ _ _ _ _ _ => trivial
  exact ⟨ops, hall⟩

end PivotReach

theorem settled_iff {w : Worksheet α} {answers : List (Nat × Nat)} (hw : w.state.WellFormed) :
    Settled tolerance answers w ↔ w.state.NoPivot tolerance answers.length (nextLead answers) := by
  rw [Settled, DenseMatrix.findPivot_eq_none_iff hw]
  constructor
  · rintro (h | h)
    · exact fun i c hi hlt => by omega
    · exact h
  · exact .inr

theorem PivotReach.exists_settled {first w : Worksheet α} {answers : List (Nat × Nat)}
    {left : Nat} (hfirst : first.state.WellFormed) (reach : PivotReach tolerance first answers w)
    (hl : answers.length + left = w.state.rows) :
    ∃ answers' w', PivotReach tolerance first answers' w' ∧ Settled tolerance answers' w' := by
  induction left generalizing answers w with
  | zero => exact ⟨answers, w, reach, .inl (by omega)⟩
  | succ left ih =>
    have hw := (reach.shape hfirst).1
    rcases DenseMatrix.findPivot_spec tolerance hw answers.length (nextLead answers) with
      ⟨hf, _⟩ | ⟨found, col, hf, hp⟩
    · exact ⟨answers, w, reach, .inr hf⟩
    · have room : answers.length < w.state.rows := by omega
      obtain ⟨v, hv, _, hstate⟩ := Worksheet.takePivot_spec hw room hp.lt_rows hp.lt_cols
      refine ih (reach.next room hf hv) ?_
      rw [hstate, DenseMatrix.pivoted_rows, List.length_append, List.length_singleton]
      omega

theorem reduceRows_of_reach {first w : Worksheet α} {answers : List (Nat × Nat)}
    (hfirst : first.state.WellFormed) (reach : PivotReach tolerance first answers w) :
    first.reduceRows tolerance 0 0 first.state.rows =
      w.reduceRows tolerance (nextLead answers) answers.length
        (w.state.rows - answers.length) := by
  induction reach with
  | start => rfl
  | @next answers w w' found col previous room answer taken ih =>
    have hrows : w'.state.rows = w.state.rows := by
      rw [((previous.next room answer taken).shape hfirst).2.1, (previous.shape hfirst).2.1]
    have hleft : w.state.rows - answers.length = w.state.rows - (answers.length + 1) + 1 := by
      omega
    rw [ih, hleft, Worksheet.reduceRows, answer, bind_ok]
    simp [taken, hrows]

theorem reduce_of_reach {m : DenseMatrix α} {w : Worksheet α} {answers : List (Nat × Nat)}
    (hm : m.WellFormed) (reach : PivotReach tolerance (reductionSheet m) answers w)
    (hs : Settled tolerance answers w) :
    m.reduce tolerance = .ok (w.announce (.reduced w.log.size)) := by
  have hrun := reduceRows_of_reach hm reach
  have hend : w.reduceRows tolerance (nextLead answers) answers.length
      (w.state.rows - answers.length) = .ok w := by
    cases hl : w.state.rows - answers.length with
    | zero => rfl
    | succ left =>
      have hnone := hs.resolve_left (by omega)
      rw [Worksheet.reduceRows, hnone]
      rfl
  rw [hend] at hrun
  change (reductionSheet m).reduceRows tolerance 0 0 m.rows = .ok w at hrun
  change (reductionSheet m).reduceRows tolerance 0 0 m.rows >>= _ = _
  rw [hrun, bind_ok]
  rfl

theorem reduce_reach (tolerance : α) {m : DenseMatrix α} (hm : m.WellFormed) :
    ∃ answers w, m.reduce tolerance = .ok (w.announce (.reduced w.log.size)) ∧
      PivotReach tolerance (reductionSheet m) answers w ∧ Settled tolerance answers w := by
  have hstart : PivotReach tolerance (reductionSheet m) [] (reductionSheet m) := .start
  obtain ⟨answers, w, reach, hs⟩ := hstart.exists_settled hm (Nat.zero_add m.rows)
  exact ⟨answers, w, reduce_of_reach hm reach hs, reach, hs⟩

theorem single_pivot_reach {m : DenseMatrix α} (hm : m.WellFormed) {found col : Nat}
    (hp : m.FirstPivot tolerance 0 0 found col)
    (hno : (m.pivoted 0 found col).NoPivot tolerance 1 (col + 1)) :
    ∃ w, PivotReach tolerance (reductionSheet m) [(found, col)] w ∧
      Settled tolerance [(found, col)] w ∧ w.state = m.pivoted 0 found col := by
  have room : 0 < m.rows := Nat.lt_of_le_of_lt hp.row_le hp.lt_rows
  obtain ⟨w, htake, _, hstate⟩ :=
    Worksheet.takePivot_spec (w := reductionSheet m) hm room hp.lt_rows hp.lt_cols
  have reach := PivotReach.start.next room ((DenseMatrix.findPivot_eq_some_iff hm).mpr hp) htake
  refine ⟨w, reach, (settled_iff (reach.shape hm).1).mpr ?_, hstate⟩
  rw [hstate]
  exact hno

namespace PivotReach

variable {first w w' : Worksheet α} {answers answers' : List (Nat × Nat)}

/-- How far a run has come says all about it: the search has one answer, and taking the pivot one
outcome. -/
theorem unique (reach : PivotReach tolerance first answers w)
    (reach' : PivotReach tolerance first answers' w') (hl : answers.length = answers'.length) :
    answers = answers' ∧ w = w' := by
  induction reach generalizing answers' w' with
  | start =>
    cases reach' with
    | start => exact ⟨rfl, rfl⟩
    | next => simp at hl
  | @next answers v w found col previous room answer taken ih =>
    cases reach' with
    | start => simp at hl
    | @next answers' v' _ found' col' previous' room' answer' taken' =>
      obtain ⟨rfl, rfl⟩ := ih previous' (by simpa using hl)
      rw [answer] at answer'
      cases answer'
      rw [taken] at taken'
      cases taken'
      exact ⟨rfl, rfl⟩

/-- Every answer of a run was given by the search on what the answers before it had led to. -/
theorem exists_answered (reach : PivotReach tolerance first answers w) {k : Nat}
    (hk : k < answers.length) : ∃ v, PivotReach tolerance first (answers.take k) v ∧
      k < v.state.rows ∧
      v.state.findPivot tolerance k (nextLead (answers.take k)) = .ok (some answers[k]) := by
  induction reach with
  | start => simp at hk
  | @next answers v w found col previous room answer taken ih =>
    rw [List.length_append, List.length_singleton] at hk
    by_cases hlt : k < answers.length
    · rw [List.take_append_of_le_length (Nat.le_of_lt hlt), List.getElem_append_left hlt]
      exact ih hlt
    · obtain rfl : k = answers.length := by omega
      rw [List.take_left, List.getElem_concat_length rfl]
      exact ⟨v, previous, room, answer⟩

/-- What a run has done so far is the beginning of what it does until it is settled. -/
theorem prefix_of_settled (reach : PivotReach tolerance first answers w)
    (reach' : PivotReach tolerance first answers' w') (hs : Settled tolerance answers' w') :
    answers <+: answers' := by
  rcases Nat.lt_or_ge answers'.length answers.length with hlt | hle
  · obtain ⟨v, hv, room, answer⟩ := reach.exists_answered hlt
    obtain ⟨heq, rfl⟩ := hv.unique reach' (List.length_take_of_le (Nat.le_of_lt hlt))
    rw [heq] at answer
    rcases hs with hfull | hnone
    · omega
    · rw [hnone] at answer
      cases answer
  · have htake : ∃ v, PivotReach tolerance first (answers'.take answers.length) v := by
      rcases Nat.eq_or_lt_of_le hle with heq | hlt
      · rw [heq, List.take_length]
        exact ⟨w', reach'⟩
      · obtain ⟨v, hv, _⟩ := reach'.exists_answered hlt
        exact ⟨v, hv⟩
    obtain ⟨v, hv⟩ := htake
    obtain ⟨heq, _⟩ := reach.unique hv (List.length_take_of_le hle).symm
    rw [heq]
    exact List.take_prefix _ _

end PivotReach

theorem DenseMatrix.TakesPivots.unique {m : DenseMatrix α} {answers answers' : List (Nat × Nat)}
    (h : m.TakesPivots tolerance answers) (h' : m.TakesPivots tolerance answers') :
    answers = answers' := by
  obtain ⟨w, reach, hs⟩ := h
  obtain ⟨w', reach', hs'⟩ := h'
  have hle := (reach.prefix_of_settled reach' hs').length_le
  have hge := (reach'.prefix_of_settled reach hs).length_le
  exact (reach.unique reach' (by omega)).1

end GaussJordan
