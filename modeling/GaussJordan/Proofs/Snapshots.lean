import GaussJordan.Proofs.Solutions

namespace GaussJordan

namespace DenseMatrix

/-- A matrix of the same shape that is an invertible matrix times the given one. -/
structure EquivalentForm (m n : DenseMatrix ℚ) : Prop where
  wellFormed : n.WellFormed
  rows_eq : n.rows = m.rows
  cols_eq : n.cols = m.cols
  rowEquivalent : RowEquivalent m.rows m.cols m n

variable {m n k : DenseMatrix ℚ}

theorem EquivalentForm.refl (hm : m.WellFormed) : m.EquivalentForm m :=
  ⟨hm, rfl, rfl, .refl m⟩

theorem EquivalentForm.trans (h : m.EquivalentForm n) (h' : n.EquivalentForm k) :
    m.EquivalentForm k := by
  obtain ⟨hk, hrows, hcols, hequiv⟩ := h'
  rw [h.rows_eq] at hrows hequiv
  rw [h.cols_eq] at hcols hequiv
  exact ⟨hk, hrows, hcols, h.rowEquivalent.trans hequiv⟩

theorem EquivalentForm.symm (h : m.EquivalentForm n) (hm : m.WellFormed) :
    n.EquivalentForm m := by
  refine ⟨hm, h.rows_eq.symm, h.cols_eq.symm, ?_⟩
  rw [h.rows_eq, h.cols_eq]
  exact h.rowEquivalent.symm

theorem EquivalentForm.apply {op : Operation ℚ} (h : m.EquivalentForm n) (hop : op.IsElementary)
    (happly : op.apply n = .ok k) : m.EquivalentForm k := by
  obtain ⟨hrows, hcols, hstep⟩ := hop.rowEquivalent happly
  exact h.trans ⟨Operation.apply_wellFormed h.wellFormed happly, hrows, hcols, hstep⟩

/-- Without columns there is not even a right-hand side, and nothing to satisfy. -/
theorem satisfies_of_cols_eq_zero (hm : m.WellFormed) (hc : m.cols = 0) (x : Nat → ℚ) :
    m.Satisfies x := by
  intro r _
  have hsize : m.cells.size = 0 := by rw [hm, hc, Nat.mul_zero]
  have hempty : m.cells = #[] := Array.eq_empty_of_size_eq_zero hsize
  simp only [hc, Nat.zero_sub, Finset.range_zero, Finset.sum_empty, entry, hempty]
  rfl

theorem EquivalentForm.satisfies_iff (h : m.EquivalentForm n) (hm : m.WellFormed)
    (x : Nat → ℚ) : m.Satisfies x ↔ n.Satisfies x := by
  rcases Nat.eq_zero_or_pos m.cols with hc | hc
  · have hcn : n.cols = 0 := by rw [h.cols_eq, hc]
    exact iff_of_true (satisfies_of_cols_eq_zero hm hc x)
      (satisfies_of_cols_eq_zero h.wellFormed hcn x)
  · exact h.rowEquivalent.satisfies_iff h.rows_eq h.cols_eq hc x

theorem EquivalentForm.isSolution_iff (h : m.EquivalentForm n) (hm : m.WellFormed)
    (x : List ℚ) : m.IsSolution x ↔ n.IsSolution x := by
  rw [IsSolution, IsSolution, h.cols_eq, h.satisfies_iff hm]

end DenseMatrix

namespace PivotReach

variable {tolerance : ℚ} {first w : Worksheet ℚ} {answers : List (Nat × Nat)}

/-- A run divides by pivots only, never by zero, and takes no row from itself. -/
theorem elementary_derivation (ht : 0 ≤ tolerance) (hfirst : first.state.WellFormed)
    (reach : PivotReach tolerance first answers w) :
    ∃ ops, first.performAll ops = .ok w ∧ ∀ op ∈ ops, op.IsElementary := by
  obtain ⟨_, ops, hall, helementary⟩ := reach.exact_invariant ht hfirst
    (P := fun _ _ ops => ∀ op ∈ ops, op.IsElementary)
    (by simp)
    (by
      intro answers m ops found col _ _ _ _ room hp ih op hop
      have hne := ne_zero_of_isZero_eq_false ht hp.usable
      rcases List.mem_append.mp hop with hop | hop
      · exact ih op hop
      · exact DenseMatrix.pivoting_isElementary room hp.lt_cols hne op hop)
  exact ⟨ops, hall, helementary⟩

theorem equivalentForm (ht : 0 ≤ tolerance) (hfirst : first.state.WellFormed)
    (hlog : ∀ n ∈ first.log.snapshots, first.state.EquivalentForm n)
    (reach : PivotReach tolerance first answers w) :
    first.state.EquivalentForm w.state ∧
      ∀ n ∈ w.log.snapshots, first.state.EquivalentForm n := by
  obtain ⟨ops, hall, helementary⟩ := reach.elementary_derivation ht hfirst
  exact Worksheet.performAll_keeps (fun op hop _ _ hm happly => hm.apply (helementary op hop) happly)
    (.refl hfirst) hlog hall

end PivotReach

namespace DenseMatrix

variable {tolerance : ℚ} {m : DenseMatrix ℚ}

/-- Whatever the tolerance takes for zero, every matrix that a reduction shows or returns is an
invertible matrix times the given one, so its equations have the same solutions. -/
theorem reduce_snapshots_equivalent (ht : 0 ≤ tolerance) (hm : m.WellFormed) :
    ∃ w, m.reduce tolerance = .ok w ∧ ∀ n, n = w.state ∨ n ∈ w.log.snapshots →
      m.EquivalentForm n ∧ ∀ x, n.IsSolution x ↔ m.IsSolution x := by
  obtain ⟨answers, w, hrun, reach, _⟩ := reduce_reach tolerance hm
  obtain ⟨hstate, hlog⟩ := reach.equivalentForm ht hm (by simp)
  refine ⟨_, hrun, fun n hn => ?_⟩
  have hform : m.EquivalentForm n := by
    rcases hn with rfl | hn
    · exact hstate
    · exact hlog n hn
  exact ⟨hform, fun x => (hform.isSolution_iff hm x).symm⟩

/-- The first column counts as zero and is passed over. -/
theorem reduce_snapshots_equivalent_skipping :
    (0 : ℚ) ≤ 1 / 10 ^ 10 ∧ (⟨2, 3, #[1 / 10 ^ 11, 2, 4, 0, 3, 1]⟩ : DenseMatrix ℚ).WellFormed ∧
    ∃ w, (⟨2, 3, #[1 / 10 ^ 11, 2, 4, 0, 3, 1]⟩ : DenseMatrix ℚ).reduce (1 / 10 ^ 10) = .ok w ∧
      ∀ n, n = w.state ∨ n ∈ w.log.snapshots →
        (⟨2, 3, #[1 / 10 ^ 11, 2, 4, 0, 3, 1]⟩ : DenseMatrix ℚ).EquivalentForm n ∧
        ∀ x, n.IsSolution x ↔
          (⟨2, 3, #[1 / 10 ^ 11, 2, 4, 0, 3, 1]⟩ : DenseMatrix ℚ).IsSolution x := by
  have ht : (0 : ℚ) ≤ 1 / 10 ^ 10 := by positivity
  have hm : (⟨2, 3, #[1 / 10 ^ 11, 2, 4, 0, 3, 1]⟩ : DenseMatrix ℚ).WellFormed := rfl
  exact ⟨ht, hm, reduce_snapshots_equivalent ht hm⟩

end DenseMatrix

end GaussJordan
