import Mathlib.LinearAlgebra.Matrix.Block
import GaussJordan.Proofs.ExactInverse

namespace GaussJordan

/-- The row that a step divides, and by what. -/
def Operation.scaling? {α : Type} : Operation α → Option (Nat × α)
  | .scale row factor => some (row, factor)
  | _ => none

def TraceLog.scalings {α : Type} (log : TraceLog α) : List (Nat × α) :=
  log.operations.filterMap Operation.scaling?

namespace DenseMatrix

theorem scalings_pivoting {α : Type} [Scalar α] {m : DenseMatrix α} (hm : m.WellFormed)
    (i col : Nat) : (m.pivoting i i col).filterMap Operation.scaling? = [(i, m.entry i col)] := by
  simp [pivoting, exchanged_self hm, clearing, Operation.scaling?, List.filterMap_map,
    Function.comp_def]

def leadingMinor (m : DenseMatrix ℚ) (k : Nat) : ℚ := (m.grid k k).det

variable {tolerance : ℚ} {m n given : DenseMatrix ℚ} {i k : Nat}

@[simp] theorem leadingMinor_zero (m : DenseMatrix ℚ) : m.leadingMinor 0 = 1 :=
  Matrix.det_isEmpty

theorem leadingMinor_congr (h : ∀ r c, r < k → c < k → m.entry r c = n.entry r c) :
    m.leadingMinor k = n.leadingMinor k := by
  unfold leadingMinor
  congr 1
  ext r c
  exact h r c r.isLt c.isLt

/-- Clearing a column divides a leading minor by the pivot. -/
theorem leadingMinor_pivoted (hik : i < k) (hr : k ≤ m.rows) (hc : k ≤ m.cols)
    (hne : m.entry i i ≠ 0) :
    m.leadingMinor k = m.entry i i * (m.pivoted i i i).leadingMinor k := by
  have hentry : ∀ r c : Fin k, (m.pivoted i i i).entry r c =
      if r.val = i then m.entry i c / m.entry i i
      else m.entry r c - m.entry r i * (m.entry i c / m.entry i i) := by
    intro r c
    rw [entry_pivoted (by omega) (by omega) (by omega) (by omega)]
    by_cases hri : r.val = i
    · rw [if_pos hri, if_pos hri]
    · simp only [if_neg hri]
  -- going back, the other rows regain multiples of the pivot row: only its scaling shows
  have hrows : m.leadingMinor k = (Matrix.updateRow ((m.pivoted i i i).grid k k) ⟨i, hik⟩
      (m.entry i i • (m.pivoted i i i).grid k k ⟨i, hik⟩)).det := by
    refine Matrix.det_eq_of_forall_row_eq_smul_add_const
      (fun r => if r.val = i then 0 else m.entry r i / m.entry i i) ⟨i, hik⟩ (if_pos rfl) ?_
    intro r c
    rw [Matrix.updateRow_self, Matrix.updateRow_apply, Pi.smul_apply, smul_eq_mul, grid_apply,
      grid_apply, hentry ⟨i, hik⟩ c, if_pos rfl]
    by_cases hri : r.val = i
    · rw [if_pos (Fin.ext hri), if_pos hri, hri, zero_mul, add_zero, ← mul_div_assoc,
        mul_div_cancel_left₀ _ hne]
    · rw [if_neg (fun h => hri (congrArg Fin.val h)), if_neg hri, grid_apply, hentry r c,
        if_neg hri]
      field_simp
      ring
  rw [hrows, Matrix.det_updateRow_smul, Matrix.updateRow_eq_self]
  rfl

/-- After the pivots before it, the next diagonal cell is a leading minor by itself. -/
theorem PivotsTaken.leadingMinor_succ (h : m.PivotsTaken (diagonal i)) (hr : i < m.rows) :
    m.leadingMinor (i + 1) = m.entry i i := by
  have hupper : (m.grid (i + 1) (i + 1)).IsUpperTriangular := by
    intro r c hlt
    change c.val < r.val at hlt
    rw [grid_apply, h.entry_diagonal (by omega) (by omega), if_neg (by omega)]
  rw [leadingMinor, Matrix.det_of_isUpperTriangular hupper, Fin.prod_univ_castSucc]
  have hone : ∀ r : Fin i, m.grid (i + 1) (i + 1) r.castSucc r.castSucc = 1 := by
    intro r
    rw [grid_apply, h.entry_diagonal (by simp; omega) (by simp), if_pos rfl]
  rw [Finset.prod_congr rfl fun r _ => hone r, Finset.prod_const_one, one_mul, grid_apply]
  rfl

/-- The next leading minor is not beyond the tolerance when measured against this one. -/
def StopsAt (tolerance : ℚ) (m : DenseMatrix ℚ) (i : Nat) : Prop :=
  |m.leadingMinor (i + 1)| ≤ tolerance * |m.leadingMinor i|

/-- A matrix on whose diagonal pivots have been taken shows the leading minors of the given one,
divided by that of the finished rows; the pivots were the quotients of consecutive ones. -/
structure MinorsTaken (tolerance : ℚ) (given : DenseMatrix ℚ) (count : Nat) (m : DenseMatrix ℚ)
    (ops : List (Operation ℚ)) : Prop where
  remaining : ∀ k, count ≤ k → k ≤ given.rows →
    given.leadingMinor k = given.leadingMinor count * m.leadingMinor k
  ne_zero : given.leadingMinor count ≠ 0
  passed : ∀ j, j < count → ¬given.StopsAt tolerance j
  scalings : ops.filterMap Operation.scaling? =
    (List.range count).map fun j => (j, given.leadingMinor (j + 1) / given.leadingMinor j)
  product : ((ops.filterMap Operation.scaling?).map Prod.snd).prod = given.leadingMinor count

section MinorsTaken

variable {ops : List (Operation ℚ)}

theorem minorsTaken_start (hc : given.rows ≤ given.cols) :
    MinorsTaken tolerance given 0 given.augmentIdentity [] := by
  refine ⟨fun k _ hk => ?_, ?_, fun j hj => absurd hj (Nat.not_lt_zero j), rfl, ?_⟩
  · rw [leadingMinor_zero, one_mul]
    exact leadingMinor_congr fun r c hr hc' =>
      (entry_augmentIdentity_left (by omega) (by omega)).symm
  · rw [leadingMinor_zero]
    exact one_ne_zero
  · rw [leadingMinor_zero]
    rfl

theorem MinorsTaken.next_eq (h : MinorsTaken tolerance given i m ops)
    (htaken : m.PivotsTaken (diagonal i)) (hi : i < given.rows) (hr : i < m.rows) :
    given.leadingMinor (i + 1) = given.leadingMinor i * m.entry i i := by
  rw [h.remaining (i + 1) (Nat.le_succ i) hi, htaken.leadingMinor_succ hr]

theorem MinorsTaken.stopsAt_iff (h : MinorsTaken tolerance given i m ops)
    (htaken : m.PivotsTaken (diagonal i)) (hi : i < given.rows) (hr : i < m.rows) :
    given.StopsAt tolerance i ↔ isZero tolerance (m.entry i i) = true := by
  have hpos : 0 < |given.leadingMinor i| := abs_pos.mpr h.ne_zero
  rw [StopsAt, h.next_eq htaken hi hr, abs_mul, mul_comm tolerance, isZero_iff]
  exact mul_le_mul_iff_right₀ hpos

theorem MinorsTaken.pivoted (h : MinorsTaken tolerance given i m ops) (ht : 0 ≤ tolerance)
    (hm : m.WellFormed) (htaken : m.PivotsTaken (diagonal i)) (hi : i < given.rows)
    (hr : given.rows ≤ m.rows) (hc : given.rows ≤ m.cols)
    (husable : isZero tolerance (m.entry i i) = false) :
    MinorsTaken tolerance given (i + 1) (m.pivoted i i i) (ops ++ m.pivoting i i i) := by
  have hne := ne_zero_of_isZero_eq_false ht husable
  have hnext := h.next_eq htaken hi (by omega)
  have hscaled : (ops ++ m.pivoting i i i).filterMap Operation.scaling? =
      ops.filterMap Operation.scaling? ++ [(i, m.entry i i)] := by
    rw [List.filterMap_append, scalings_pivoting hm]
  refine ⟨fun k hik hk => ?_, ?_, fun j hj => ?_, ?_, ?_⟩
  · rw [h.remaining k (by omega) hk, hnext,
      leadingMinor_pivoted (by omega) (by omega) (by omega) hne, mul_assoc]
  · rw [hnext]
    exact mul_ne_zero h.ne_zero hne
  · rcases Nat.lt_succ_iff_lt_or_eq.mp hj with hlt | rfl
    · exact h.passed j hlt
    · rw [h.stopsAt_iff htaken hi (by omega), husable]
      exact Bool.false_ne_true
  · rw [hscaled, h.scalings, List.range_succ, List.map_append, List.map_singleton, hnext,
      mul_div_cancel_left₀ _ h.ne_zero]
  · rw [hscaled, List.map_append, List.prod_append, h.product, hnext]
    simp

end MinorsTaken

end DenseMatrix

open DenseMatrix in
theorem PivotReach.minorsTaken {tolerance : ℚ} {m : DenseMatrix ℚ} {w : Worksheet ℚ} {count : Nat}
    (ht : 0 ≤ tolerance) (hsq : m.IsSquare)
    (reach : PivotReach tolerance (inversionSheet m) (diagonal count) w) :
    ∃ ops, w.log.operations = .augment :: ops ∧
      MinorsTaken tolerance m count w.state ops := by
  have hcols : m.cols = m.rows := hsq.symm
  -- the invariant is about runs along the diagonal, and only this run is known to be one
  obtain ⟨_, ops, hall, hminors⟩ := reach.exact_invariant ht augmentIdentity_wellFormed
    (P := fun answers n ops => answers = diagonal answers.length →
      MinorsTaken tolerance m answers.length n ops)
    (fun _ => minorsTaken_start (by omega))
    (by
      intro answers n ops found col hn hrows hncols htaken room hp ih hdiagonal
      rw [List.length_append, List.length_singleton] at hdiagonal ⊢
      rw [diagonal_succ] at hdiagonal
      obtain ⟨hbefore, hlast⟩ := List.append_inj' hdiagonal rfl
      cases hlast
      rw [hbefore] at htaken
      change n.rows = m.rows at hrows
      change n.cols = m.cols + m.rows at hncols
      exact (ih hbefore).pivoted ht hn htaken (by omega) (by omega) (by omega) hp.usable)
  rw [length_diagonal] at hminors
  exact ⟨ops, Worksheet.operations_of_performAll hall, hminors rfl⟩

namespace DenseMatrix

variable {tolerance : ℚ} {m : DenseMatrix ℚ}

/-- An inversion goes past every leading minor, or stops at the first one that it cannot. -/
theorem invert_minors (ht : 0 ≤ tolerance) (hsq : m.IsSquare) (hn : 0 < m.rows) :
    (∃ inverse sheet ops, m.invert tolerance = .ok (.computed inverse sheet) ∧
      sheet.log.operations = .augment :: ops ∧
      ∃ last, MinorsTaken tolerance m m.rows last ops) ∨
    ∃ i sheet, m.invert tolerance = .ok (.singular i sheet) ∧ i < m.rows ∧
      m.StopsAt tolerance i ∧ ∀ j, j < i → ¬m.StopsAt tolerance j := by
  rcases invert_reach tolerance hsq hn with ⟨w, reach, hrun⟩ | ⟨i, w, hi, reach, hz, hrun⟩
  · obtain ⟨ops, hops, hminors⟩ := reach.minorsTaken ht hsq
    exact .inl ⟨_, _, ops, hrun, hops, w.state, hminors⟩
  · obtain ⟨_, _, hminors⟩ := reach.minorsTaken ht hsq
    obtain ⟨_, hwr, _⟩ := inversion_shape reach
    have htaken := reach.pivotsTaken ht augmentIdentity_wellFormed
    exact .inr ⟨i, _, hrun, hi, (hminors.stopsAt_iff htaken hi (by omega)).mpr hz, hminors.passed⟩

theorem invert_ends_by_minors (ht : 0 ≤ tolerance) (hsq : m.IsSquare) (hn : 0 < m.rows) :
    ((∃ inverse sheet, m.invert tolerance = .ok (.computed inverse sheet)) ∧
      ∀ i, i < m.rows → ¬m.StopsAt tolerance i) ∨
    ∃ i, (∃ sheet, m.invert tolerance = .ok (.singular i sheet)) ∧ i < m.rows ∧
      m.StopsAt tolerance i ∧ ∀ j, j < i → ¬m.StopsAt tolerance j := by
  rcases invert_minors ht hsq hn with ⟨inverse, sheet, _, hrun, _, _, hminors⟩ |
    ⟨i, sheet, hrun, hstopped⟩
  · exact .inl ⟨⟨inverse, sheet, hrun⟩, hminors.passed⟩
  · exact .inr ⟨i, ⟨sheet, hrun⟩, hstopped⟩

theorem invert_computed_iff (ht : 0 ≤ tolerance) (hsq : m.IsSquare) (hn : 0 < m.rows) :
    (∃ inverse sheet, m.invert tolerance = .ok (.computed inverse sheet)) ↔
      ∀ i, i < m.rows → ¬m.StopsAt tolerance i :=
  (invert_ends_iff _ (invert_ends_by_minors ht hsq hn)).1

theorem invert_singular_iff (ht : 0 ≤ tolerance) (hsq : m.IsSquare) (hn : 0 < m.rows) (i : Nat) :
    (∃ sheet, m.invert tolerance = .ok (.singular i sheet)) ↔
      i < m.rows ∧ m.StopsAt tolerance i ∧ ∀ j, j < i → ¬m.StopsAt tolerance j :=
  (invert_ends_iff _ (invert_ends_by_minors ht hsq hn)).2 i

theorem stopsAt_zero_iff {i : Nat} : m.StopsAt 0 i ↔ m.leadingMinor (i + 1) = 0 := by
  rw [StopsAt, zero_mul, abs_nonpos_iff]

/-- How an inversion ends, and by what it divides on the way, can be told from the leading minors
of the given matrix. Without tolerance it stops at the first of them that is zero. -/
theorem invert_decided_by_minors (ht : 0 ≤ tolerance) (hsq : m.IsSquare) (hn : 0 < m.rows) :
    (∀ i, (∃ sheet, m.invert tolerance = .ok (.singular i sheet)) ↔
      i < m.rows ∧ m.StopsAt tolerance i ∧ ∀ j, j < i → ¬m.StopsAt tolerance j) ∧
    ((∃ inverse sheet, m.invert tolerance = .ok (.computed inverse sheet)) ↔
      ∀ i, i < m.rows → ¬m.StopsAt tolerance i) ∧
    (∀ inverse sheet, m.invert tolerance = .ok (.computed inverse sheet) →
      sheet.log.scalings = (List.range m.rows).map (fun i =>
        (i, m.leadingMinor (i + 1) / m.leadingMinor i)) ∧
      (sheet.log.scalings.map Prod.snd).prod = (m.grid m.rows m.rows).det) ∧
    ∀ i, (∃ sheet, m.invert 0 = .ok (.singular i sheet)) ↔
      i < m.rows ∧ m.leadingMinor (i + 1) = 0 ∧ ∀ j, j < i → m.leadingMinor (j + 1) ≠ 0 := by
  refine ⟨invert_singular_iff ht hsq hn, invert_computed_iff ht hsq hn, ?_, fun i => ?_⟩
  · intro inverse sheet hcomputed
    rcases invert_minors ht hsq hn with ⟨_, _, ops, hrun, hops, _, hminors⟩ | ⟨_, _, hrun, _⟩
    · rw [hrun] at hcomputed
      cases hcomputed
      have hscalings : sheet.log.scalings = ops.filterMap Operation.scaling? := by
        rw [TraceLog.scalings, hops]
        rfl
      rw [hscalings]
      exact ⟨hminors.scalings, hminors.product⟩
    · rw [hrun] at hcomputed
      cases hcomputed
  · rw [invert_singular_iff (le_refl 0) hsq hn]
    simp only [stopsAt_zero_iff, ne_eq]

theorem invert_decided_by_minors_pair :
    (0 : ℚ) ≤ 1 / 10 ^ 10 ∧ (⟨2, 2, #[1, 2, 3, 4]⟩ : DenseMatrix ℚ).IsSquare ∧
    (∃ inverse sheet, (⟨2, 2, #[1, 2, 3, 4]⟩ : DenseMatrix ℚ).invert (1 / 10 ^ 10) =
        .ok (.computed inverse sheet) ∧
      sheet.log.scalings = [(0, 1), (1, -2)]) ∧
    ∃ sheet, (⟨2, 2, #[1, 2, 2, 4]⟩ : DenseMatrix ℚ).invert (1 / 10 ^ 10) =
      .ok (.singular 1 sheet) := by
  have ht : (0 : ℚ) ≤ 1 / 10 ^ 10 := by norm_num
  have hminor1 : ∀ a b c d : ℚ, (⟨2, 2, #[a, b, c, d]⟩ : DenseMatrix ℚ).leadingMinor 1 = a := by
    intro a b c d
    exact Matrix.det_fin_one _
  have hminor2 : ∀ a b c d : ℚ,
      (⟨2, 2, #[a, b, c, d]⟩ : DenseMatrix ℚ).leadingMinor 2 = a * d - b * c := by
    intro a b c d
    exact Matrix.det_fin_two _
  have hunique := invert_decided_by_minors (m := ⟨2, 2, #[1, 2, 3, 4]⟩) ht rfl (by decide)
  have hsingular := invert_decided_by_minors (m := ⟨2, 2, #[1, 2, 2, 4]⟩) ht rfl (by decide)
  refine ⟨ht, rfl, ?_, ?_⟩
  · obtain ⟨inverse, sheet, hrun⟩ := hunique.2.1.mpr (by
      intro i hi
      change i < 2 at hi
      interval_cases i
      · rw [StopsAt, leadingMinor_zero, hminor1]
        norm_num
      · rw [StopsAt, hminor1, hminor2]
        norm_num)
    refine ⟨inverse, sheet, hrun, ?_⟩
    rw [(hunique.2.2.1 inverse sheet hrun).1]
    change [(0, leadingMinor _ 1 / leadingMinor _ 0), (1, leadingMinor _ 2 / leadingMinor _ 1)] = _
    rw [leadingMinor_zero, hminor1, hminor2]
    norm_num
  · refine (hsingular.1 1).mpr ⟨Nat.one_lt_two, ?_, fun j hj => ?_⟩
    · rw [StopsAt, hminor1, hminor2]
      norm_num
    · obtain rfl : j = 0 := Nat.lt_one_iff.mp hj
      rw [StopsAt, leadingMinor_zero, hminor1]
      norm_num

end DenseMatrix

end GaussJordan
