import GaussJordan.Proofs.RowEquivalence
import GaussJordan.Proofs.DiagonalRun

namespace GaussJordan

theorem foldl_add_eq_sum (f : Nat → ℚ) (count : Nat) :
    (List.range count).foldl (fun sum q => sum + f q) 0 = ∑ q ∈ Finset.range count, f q := by
  induction count with
  | zero => rfl
  | succ count ih => rw [List.range_succ, List.foldl_append, ih, Finset.sum_range_succ]; rfl

namespace DenseMatrix

section Blocks

variable {α : Type} [Scalar α] {m k : DenseMatrix α} {r c : Nat}

/-- Two matrices of one height next to each other. -/
def beside (m k : DenseMatrix α) : DenseMatrix α :=
  generate m.rows (m.cols + k.cols) fun r c =>
    if c < m.cols then m.entry r c else k.entry r (c - m.cols)

@[simp] theorem beside_rows : (m.beside k).rows = m.rows := rfl

@[simp] theorem beside_cols : (m.beside k).cols = m.cols + k.cols := rfl

theorem beside_wellFormed : (m.beside k).WellFormed := generate_wellFormed _ _ _

theorem entry_beside_left (hr : r < m.rows) (hc : c < m.cols) :
    (m.beside k).entry r c = m.entry r c := by
  rw [beside, entry_generate _ hr (by omega), if_pos hc]

theorem entry_beside_right (hr : r < m.rows) (hc : c < k.cols) :
    (m.beside k).entry r (m.cols + c) = k.entry r c := by
  rw [beside, entry_generate _ hr (by omega), if_neg (by omega), Nat.add_sub_cancel_left]

theorem augmentIdentity_eq_beside : m.augmentIdentity = m.beside (identity m.rows) := by
  refine generate_congr fun r c hr hc => ?_
  split
  next => rfl
  next hright =>
    rw [identity, entry_generate _ hr (by omega)]
    simp only [eq_comm]

theorem entry_augmentIdentity_left (hr : r < m.rows) (hc : c < m.cols) :
    m.augmentIdentity.entry r c = m.entry r c := by
  rw [augmentIdentity_eq_beside, entry_beside_left hr hc]

theorem entry_augmentIdentity_right {r c : Nat} (hr : r < m.rows) (hc : c < m.cols + m.rows)
    (hright : m.cols ≤ c) :
    m.augmentIdentity.entry r c = if c = m.cols + r then 1 else 0 := by
  rw [augmentIdentity, entry_generate _ hr hc, if_neg (by omega)]
  congr 1
  exact propext (by omega)

end Blocks

variable {m n : DenseMatrix ℚ} {tolerance : ℚ}

theorem mul_of_cols_eq (h : m.cols = n.rows) (hc : 0 < n.cols) :
    m.mul n = .ok (.ok (generate m.rows n.cols fun r c =>
      ∑ q ∈ Finset.range m.cols, m.entry r q * n.entry q c)) := by
  rw [mul, if_neg (fun hne => hne h), if_neg (by omega)]
  congr 2
  exact generate_congr fun r c _ _ =>
    foldl_add_eq_sum (fun q => m.entry r q * n.entry q c) m.cols

theorem mul_eq_identity {size : Nat} (hsize : 0 < size) (hmr : m.rows = size)
    (hmc : m.cols = size) (hnr : n.rows = size) (hnc : n.cols = size)
    (h : m.grid size size * n.grid size size = 1) : m.mul n = .ok (.ok (identity size)) := by
  rw [mul_of_cols_eq (by omega) (by omega), hmr, hmc, hnc]
  congr 2
  refine generate_congr fun r c hr hc => ?_
  have hentry := congrFun (congrFun h ⟨r, hr⟩) ⟨c, hc⟩
  rw [Matrix.mul_apply, Matrix.one_apply] at hentry
  simp only [grid_apply, Fin.mk.injEq] at hentry
  rw [← hentry]
  exact (Fin.sum_univ_eq_sum_range (fun q => m.entry r q * n.entry q c) size).symm

theorem PivotsTaken.entry_diagonal {count : Nat} (h : m.PivotsTaken (diagonal count)) {r c : Nat}
    (hr : r < m.rows) (hc : c < count) : m.entry r c = if r = c then 1 else 0 := by
  refine h.unit c c ?_ r hr
  simp [pivotColumns, diagonal, hc]

/-- A multiple of two matrices next to each other is made of the multiples of both. -/
theorem blocks_of_eq_mul {k : DenseMatrix ℚ} {P : Matrix (Fin m.rows) (Fin m.rows) ℚ}
    (h : n.grid m.rows (m.cols + k.cols) = P * (m.beside k).grid m.rows (m.cols + k.cols)) :
    n.grid m.rows m.cols = P * m.grid m.rows m.cols ∧
      ∀ (r : Fin m.rows) (c : Fin k.cols),
        n.entry r (m.cols + c) = (P * k.grid m.rows k.cols) r c := by
  constructor
  · ext r c
    have hcell := congrFun (congrFun h r) (Fin.castAdd k.cols c)
    rw [Matrix.mul_apply] at hcell ⊢
    simp only [grid_apply, Fin.val_castAdd] at hcell ⊢
    rw [hcell]
    apply Finset.sum_congr rfl
    intro i _
    rw [entry_beside_left i.isLt c.isLt]
  · intro r c
    have hcell := congrFun (congrFun h r) (Fin.natAdd m.cols c)
    rw [Matrix.mul_apply] at hcell ⊢
    simp only [grid_apply, Fin.val_natAdd] at hcell ⊢
    rw [hcell]
    apply Finset.sum_congr rfl
    intro i _
    rw [entry_beside_right i.isLt c.isLt]

theorem entry_identity {size r c : Nat} (hr : r < size) (hc : c < size) :
    (identity size : DenseMatrix ℚ).entry r c = if r = c then 1 else 0 :=
  entry_generate _ hr hc

theorem grid_identity (size : Nat) : (identity size).grid size size = 1 := by
  ext r c
  rw [grid_apply, entry_identity r.isLt c.isLt, Matrix.one_apply]
  simp only [Fin.ext_iff]

/-- A multiple of a matrix beside the identity is the multiplied matrix beside the multiplier. -/
theorem halves_of_eq_mul {P : Matrix (Fin m.rows) (Fin m.rows) ℚ}
    (h : n.grid m.rows (m.cols + m.rows) =
      P * m.augmentIdentity.grid m.rows (m.cols + m.rows)) :
    n.grid m.rows m.cols = P * m.grid m.rows m.cols ∧
      ∀ r c : Fin m.rows, n.entry r (m.cols + c) = P r c := by
  rw [augmentIdentity_eq_beside] at h
  obtain ⟨hleft, hright⟩ := blocks_of_eq_mul (k := identity m.rows) h
  refine ⟨hleft, fun r c => ?_⟩
  have hcell : n.entry r (m.cols + c) = (P * (identity m.rows).grid m.rows m.rows) r c :=
    hright r c
  rwa [grid_identity, Matrix.mul_one] at hcell

end DenseMatrix

open DenseMatrix in
/-- Once all pivots are taken on the diagonal, the multiplier in the right half is the inverse. -/
theorem PivotReach.rightHalf_mul {tolerance : ℚ} {m : DenseMatrix ℚ} {w : Worksheet ℚ}
    (ht : 0 ≤ tolerance) (hsq : m.IsSquare)
    (reach : PivotReach tolerance (inversionSheet m) (diagonal m.rows) w) :
    (generate m.rows m.rows fun r c => w.state.entry r (m.rows + c)).grid m.rows m.rows *
      m.grid m.rows m.rows = 1 := by
  have hcols : m.cols = m.rows := hsq.symm
  obtain ⟨_, hwr, _⟩ := inversion_shape reach
  have hequiv : RowEquivalent m.rows (m.cols + m.rows) m.augmentIdentity w.state :=
    reach.rowEquivalent ht augmentIdentity_wellFormed
  obtain ⟨P, _, hP⟩ := hequiv
  obtain ⟨hleft, hright⟩ := halves_of_eq_mul hP
  ext r c
  have hunit := (reach.pivotsTaken ht augmentIdentity_wellFormed).entry_diagonal
    (by omega : r.val < w.state.rows) c.isLt
  have hcell := congrFun (congrFun hleft r) ⟨c, by omega⟩
  rw [grid_apply, hunit, Matrix.mul_apply] at hcell
  rw [Matrix.mul_apply, Matrix.one_apply]
  simp only [Fin.ext_iff]
  rw [hcell]
  apply Finset.sum_congr rfl
  intro k _
  have hblock : P r k = w.state.entry r (m.rows + k) := by rw [← hright r k, hcols]
  rw [grid_apply, grid_apply, grid_apply, entry_generate _ r.isLt k.isLt, hblock]

namespace DenseMatrix

variable {tolerance : ℚ} {m inverse : DenseMatrix ℚ} {sheet : Worksheet ℚ}

/-- What is returned as the inverse is one from both sides, and the last recorded matrix shows it
beside the identity. -/
theorem invert_computed_isInverse (ht : 0 ≤ tolerance) (hsq : m.IsSquare) (hn : 0 < m.rows)
    (h : m.invert tolerance = .ok (.computed inverse sheet)) :
    inverse.mul m = .ok (.ok (identity m.rows)) ∧ m.mul inverse = .ok (.ok (identity m.rows)) ∧
    ∃ last, sheet.log.last? = some last ∧
      last.snapshot.columns 0 m.rows = .ok (identity m.rows) ∧
      last.snapshot.columns m.rows (2 * m.rows) = .ok inverse := by
  have hcols : m.cols = m.rows := hsq.symm
  rcases invert_reach tolerance hsq hn with ⟨w, reach, hrun⟩ | ⟨i, w, _, _, _, hrun⟩
  · rw [hrun] at h
    cases h
    have hleft := reach.rightHalf_mul ht hsq
    refine ⟨mul_eq_identity hn rfl rfl rfl hcols hleft,
      mul_eq_identity hn rfl hcols rfl rfl (mul_eq_one_comm.mp hleft), ?_⟩
    obtain ⟨_, hwr, hwc⟩ := inversion_shape reach
    obtain ⟨ops, hall⟩ := reach.derivation augmentIdentity_wellFormed
    have hsnapshot := Worksheet.last?_of_performAll (w := inversionSheet m) rfl hall
    obtain ⟨last, hlast, hstate⟩ := Option.map_eq_some_iff.mp hsnapshot
    refine ⟨last, hlast, ?_, ?_⟩
    · rw [hstate, columns_of_le (by omega) (Nat.zero_le _) (by omega), hwr, Nat.sub_zero]
      congr 1
      refine generate_congr fun r c hr hc => ?_
      rw [Nat.zero_add]
      exact (reach.pivotsTaken ht augmentIdentity_wellFormed).entry_diagonal (by omega) hc
    · rw [hstate, columns_of_le (by omega) (by omega) (by omega), hwr, Nat.two_mul,
        Nat.add_sub_cancel]
  · rw [hrun] at h
    cases h

theorem invert_computed_isInverse_three :
    (0 : ℚ) ≤ 1 / 10 ^ 10 ∧ (⟨3, 3, #[2, 1, 1, 4, 3, 3, 8, 7, 9]⟩ : DenseMatrix ℚ).IsSquare ∧
    ∃ inverse sheet, (⟨3, 3, #[2, 1, 1, 4, 3, 3, 8, 7, 9]⟩ : DenseMatrix ℚ).invert (1 / 10 ^ 10) =
        .ok (.computed inverse sheet) ∧
      inverse.mul ⟨3, 3, #[2, 1, 1, 4, 3, 3, 8, 7, 9]⟩ = .ok (.ok (identity 3)) ∧
      (⟨3, 3, #[2, 1, 1, 4, 3, 3, 8, 7, 9]⟩ : DenseMatrix ℚ).mul inverse =
        .ok (.ok (identity 3)) ∧
      ∃ last, sheet.log.last? = some last ∧
        last.snapshot.columns 0 3 = .ok (identity 3) ∧
        last.snapshot.columns 3 (2 * 3) = .ok inverse := by
  have ht : (0 : ℚ) ≤ 1 / 10 ^ 10 := by norm_num
  have hsq : (⟨3, 3, #[2, 1, 1, 4, 3, 3, 8, 7, 9]⟩ : DenseMatrix ℚ).IsSquare := rfl
  have hcomputed : ((⟨3, 3, #[2, 1, 1, 4, 3, 3, 8, 7, 9]⟩ : DenseMatrix ℚ).invert
      (1 / 10 ^ 10)).toOption.any (fun outcome =>
        match outcome with
        | .computed _ _ => true
        | .singular _ _ => false) = true := by decide +kernel
  refine ⟨ht, hsq, ?_⟩
  rcases invert_reach (1 / 10 ^ 10 : ℚ) hsq (by decide) with
    ⟨w, _, hrun⟩ | ⟨i, w, _, _, _, hrun⟩
  · exact ⟨_, _, hrun, invert_computed_isInverse ht hsq (by decide) hrun⟩
  · rw [hrun] at hcomputed
    cases hcomputed

end DenseMatrix

end GaussJordan
