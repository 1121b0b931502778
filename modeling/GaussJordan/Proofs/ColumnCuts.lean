import GaussJordan.RowCopies
import GaussJordan.Proofs.ExactInverse
import GaussJordan.Proofs.FlatOperations

namespace GaussJordan

namespace DenseMatrix

variable {α : Type} [Scalar α] {arith : IndexArithmetic} {m k : DenseMatrix α}
  {first middle last : Nat}

section Blocks

def columnBlock (m : DenseMatrix α) (first last : Nat) : DenseMatrix α :=
  generate m.rows (last - first) fun r c => m.entry r (first + c)

@[simp] theorem columnBlock_rows : (m.columnBlock first last).rows = m.rows := rfl

@[simp] theorem columnBlock_cols : (m.columnBlock first last).cols = last - first := rfl

theorem columnBlock_hasShape (m : DenseMatrix α) (first last : Nat) :
    (m.columnBlock first last).HasShape m.rows (last - first) :=
  ⟨generate_wellFormed _ _ _, rfl, rfl⟩

theorem entry_columnBlock {r c : Nat} (hr : r < m.rows) (hc : c < last - first) :
    (m.columnBlock first last).entry r c = m.entry r (first + c) := entry_generate _ hr hc

theorem columns_eq_columnBlock (hc : 0 < m.cols) (hfirst : first ≤ last) (hlast : last ≤ m.cols) :
    m.columns first last = .ok (m.columnBlock first last) := columns_of_le hc hfirst hlast

/-- A block of a block is a block of the matrix. -/
theorem columnBlock_columnBlock {x y : Nat} (hy : y ≤ last - first) :
    (m.columnBlock first last).columnBlock x y = m.columnBlock (first + x) (first + y) := by
  rw [columnBlock, columnBlock.eq_def m (first + x), columnBlock_rows, Nat.add_sub_add_left]
  refine generate_congr fun r c hr hc => ?_
  rw [entry_columnBlock hr (by omega), Nat.add_assoc]

/-- Next to each other, neighbouring blocks are one block. -/
theorem beside_columnBlock (hmiddle : first ≤ middle) (hlast : middle ≤ last) :
    (m.columnBlock first middle).beside (m.columnBlock middle last) = m.columnBlock first last := by
  have hwidth : middle - first + (last - middle) = last - first := by omega
  rw [beside, columnBlock.eq_def m first last, columnBlock_rows, columnBlock_cols,
    columnBlock_cols, hwidth]
  refine generate_congr fun r c hr hc => ?_
  split
  next hleft => exact entry_columnBlock hr hleft
  next hright =>
    have hcol : middle + (c - (middle - first)) = first + c := by omega
    rw [entry_columnBlock hr (by omega), hcol]

theorem columnBlock_beside_left (hm : m.WellFormed) : (m.beside k).columnBlock 0 m.cols = m := by
  refine (eq_generate hm fun r c hr hc => ?_).symm
  rw [Nat.zero_add, entry_beside_left hr hc]

theorem columnBlock_beside_right (hk : k.WellFormed) (hrows : k.rows = m.rows) :
    (m.beside k).columnBlock m.cols (m.cols + k.cols) = k := by
  rw [columnBlock, Nat.add_sub_cancel_left, beside_rows, ← hrows]
  refine (eq_generate hk fun r c hr hc => ?_).symm
  rw [entry_beside_right (by omega) hc]

/-- The rows of two matrices next to each other are the joined rows of both. -/
theorem toRows_beside (hrows : k.rows = m.rows) :
    (m.beside k).toRows = List.zipWith (· ++ ·) m.toRows k.toRows := by
  rw [toRows, toRows, toRows, hrows, List.zipWith_map, List.zipWith_self, beside_rows, beside_cols]
  refine List.map_congr_left fun r hr => ?_
  have hrow : r < m.rows := List.mem_range.mp hr
  rw [List.range_add, List.map_append, List.map_map]
  congr 1
  · exact List.map_congr_left fun c hc => entry_beside_left hrow (List.mem_range.mp hc)
  · exact List.map_congr_left fun c hc => entry_beside_right hrow (List.mem_range.mp hc)

end Blocks

section Cuts

/-- The rows of a block are the parts of the rows. -/
theorem toRows_columnBlock (hlast : last ≤ m.cols) : (m.columnBlock first last).toRows =
    m.toRows.map fun row => (row.drop first).take (last - first) := by
  rw [toRows, toRows, List.map_map, columnBlock_rows, columnBlock_cols]
  refine List.map_congr_left fun r hr => ?_
  have hrow : r < m.rows := List.mem_range.mp hr
  apply List.ext_getElem
  · simp
    omega
  · intro c hc hc'
    have hcol : c < last - first := by simpa using hc
    simp [entry_columnBlock hrow hcol]

/-- Where there is no row, no cut fails. -/
theorem mapM_cutRow (h : m.rows = 0 ∨ first ≤ last ∧ last ≤ m.cols) :
    m.toRows.mapM (cutRow first last) = .ok (m.columnBlock first last).toRows := by
  rcases h with hnone | ⟨hfirst, hlast⟩
  · rw [toRows, toRows, columnBlock_rows, hnone]
    rfl
  · rw [toRows_columnBlock hlast]
    refine mapM_eq_ok fun row hrow => ?_
    have hlength := length_of_mem_toRows hrow
    rw [cutRow, if_neg (by omega)]

theorem mapM_cutRow_of_outside (hr : 0 < m.rows) (h : last < first ∨ m.cols < last) :
    m.toRows.mapM (cutRow first last) = .error (.columnRange first last) := by
  obtain ⟨row, rest, hrows⟩ := List.exists_cons_of_length_pos ((length_toRows m).symm ▸ hr)
  have hlength : row.length = m.cols := length_of_mem_toRows (hrows ▸ List.mem_cons_self)
  rw [hrows, List.mapM_cons, cutRow, if_pos (by rwa [hlength])]
  rfl

/-- The cuts give the same columns as the cells, and fail on the same ranges. -/
theorem columnsByCuts_eq_columns (hm : m.WellFormed) (first last : Nat) :
    m.columnsByCuts first last = m.columns first last := by
  rcases Nat.eq_zero_or_pos m.cols with hzero | hpos
  · rw [columnsByCuts, columns, rowSlices, if_pos hzero, if_pos hzero]
    rfl
  · rw [columnsByCuts, columns, rowSlices_eq_toRows hm hpos, bind_ok, if_neg (by omega)]
    split
    next houtside =>
      rw [mapM_cutRow_of_outside (Nat.pos_of_ne_zero houtside.1) houtside.2]
      rfl
    next hinside =>
      have hstacked := stacked_toRows (m.columnBlock_hasShape first last).wellFormed
      rw [stacked, length_toRows] at hstacked
      rw [mapM_cutRow (by omega), bind_ok]
      exact congrArg Except.ok hstacked

/-- The columns of a matrix that can be counted can be counted, too. -/
theorem columnsByCuts_storedIn (hm : m.StoredIn arith) (h : m.columnsByCuts first last = .ok k) :
    k.StoredIn arith := by
  rw [columnsByCuts_eq_columns hm.wellFormed] at h
  unfold columns at h
  split at h
  next => cases h
  next =>
    split at h
    next => cases h
    next hin =>
      cases h
      refine ⟨generate_wellFormed _ _ _, hm.holds.mono ?_⟩
      change m.rows * (last - first) ≤ m.rows * m.cols
      rcases Nat.eq_zero_or_pos m.rows with hzero | hpos
      · simp [hzero]
      · exact Nat.mul_le_mul_left m.rows (by omega)

end Cuts

section Copies

omit [Scalar α] in
/-- A row that is long enough is overwritten from its beginning on. -/
theorem copyOver_eq (hm : m.StoredIn arith) {r width : Nat} {xs : List α} (hr : r < m.rows)
    (hwidth : width ≤ m.cols) (hlength : xs.length = width) : m.copyOver arith r width xs =
      .ok (m.overSlice (r * m.cols) (r * m.cols + width) fun k x => xs.getD k x) := by
  have hroom : r * m.cols + width ≤ m.cells.size := by
    have hsize : m.cells.size = m.rows * m.cols := hm.wellFormed
    have hend := Nat.mul_le_mul_right m.cols hr
    rw [Nat.succ_mul] at hend
    omega
  rw [copyOver, hm.product_eq (Nat.le_of_lt hr), bind_ok, hm.sum_eq hr hwidth, bind_ok,
    if_pos ⟨Nat.le_add_right _ _, hroom, by omega⟩]
  rfl

/-- The wider matrix when some rows have been copied and the others still hold zeros. -/
def augmentedAfter (m : DenseMatrix α) (done : List Nat) : DenseMatrix α :=
  generate m.rows (m.cols + m.rows) fun r c => if r ∈ done then m.augmentIdentity.entry r c else 0

theorem augmentedAfter_wellFormed (done : List Nat) : (m.augmentedAfter done).WellFormed :=
  generate_wellFormed _ _ _

theorem entry_augmentedAfter (done : List Nat) {r c : Nat} (hr : r < m.rows)
    (hc : c < m.cols + m.rows) : (m.augmentedAfter done).entry r c =
      if r ∈ done then m.augmentIdentity.entry r c else 0 := entry_generate _ hr hc

/-- To copy a row completes it and leaves the other rows alone. -/
theorem copyAugmented_augmentedAfter (hm : m.StoredIn arith)
    (hwide : m.augmentIdentity.StoredIn arith) (done : List Nat) {r : Nat} (hr : r < m.rows) :
    m.copyAugmented arith (m.augmentedAfter done) r = .ok (m.augmentedAfter (done ++ [r])) := by
  have hafter : (m.augmentedAfter done).StoredIn arith :=
    ⟨augmentedAfter_wellFormed done, hwide.holds⟩
  have hnext : arith.Holds (r + 1) :=
    hwide.holds_next hr (Nat.add_pos_right _ (Nat.zero_lt_of_lt hr))
  let row := (List.range m.cols).map (m.entry r)
  let copied := (m.augmentedAfter done).overSlice (r * (m.cols + m.rows))
    (r * (m.cols + m.rows) + m.cols) fun k x => row.getD k x
  have hcopy : (m.augmentedAfter done).copyOver arith r m.cols row = .ok copied :=
    copyOver_eq hafter hr (Nat.le_add_right _ _) (by simp [row])
  have hcopied : copied.StoredIn arith := (overSlice_sameSizes _ _ _).storedIn hafter
  have hone : m.cols + r < copied.cols := Nat.add_lt_add_left hr m.cols
  have hentry : ∀ {i j : Nat}, i < m.rows → j < m.cols + m.rows → copied.entry i j =
      if i = r ∧ j < m.cols then row.getD j ((m.augmentedAfter done).entry i j)
      else (m.augmentedAfter done).entry i j := fun hi hj =>
    entry_overSlice hafter.wellFormed (Nat.le_add_right m.cols m.rows) _ hi hj
  rw [copyAugmented, hm.flatRow_eq hr hnext, bind_ok, hcopy, bind_ok,
    write_eq_written hcopied hr hone]
  refine congrArg Except.ok (eq_generate (written_wellFormed hcopied.wellFormed _ _ _) ?_)
  intro i j (hi : i < m.rows) (hj : j < m.cols + m.rows)
  rw [entry_written hcopied.wellFormed hi hj hone, hentry hi hj, entry_augmentedAfter done hi hj]
  by_cases hrow : i = r
  · subst hrow
    rw [if_pos (List.mem_append_right done (List.mem_singleton_self i))]
    rcases Nat.lt_or_ge j m.cols with hleft | hright
    · rw [if_neg (by omega), if_pos ⟨rfl, hleft⟩, entry_augmentIdentity_left hi hleft]
      simp [row, hleft]
    · -- the copy ends here; zeros are in place also where the row has been copied before
      have hcopy : ¬(i = i ∧ j < m.cols) := by omega
      rw [entry_augmentIdentity_right hi hj hright, if_neg hcopy]
      by_cases hone : j = m.cols + i <;> simp [hone]
  · simp [hrow]

theorem copyAugmented_sameSizes {wide wide' : DenseMatrix α} {r : Nat}
    (h : m.copyAugmented arith wide r = .ok wide') : wide.SameSizes wide' := by
  obtain ⟨row, _, h⟩ := exists_of_bind_ok h
  obtain ⟨copied, hcopy, hone⟩ := exists_of_bind_ok h
  obtain ⟨start, _, hcopy⟩ := exists_of_bind_ok hcopy
  obtain ⟨stop, _, hcopy⟩ := exists_of_bind_ok hcopy
  split at hcopy
  next =>
    cases hcopy
    exact (overSlice_sameSizes _ _ _).trans (write_sameSizes hone)
  next => cases hcopy

theorem flatAugmentIdentity_storedIn (h : m.flatAugmentIdentity arith = .ok k)
    (hfit : k.Unwrapped arith) : k.StoredIn arith := by
  obtain ⟨width, _, h⟩ := exists_of_bind_ok h
  obtain ⟨wide, hwide, h⟩ := exists_of_bind_ok h
  have hsizes : wide.SameSizes k := foldlM_sameSizes copyAugmented_sameSizes h
  exact hsizes.storedIn
    (flatZeros_storedIn hwide (hfit.of_shape_eq hsizes.rows_eq hsizes.cols_eq))

/-- If the wider matrix can be counted, the copies give it. -/
theorem flatAugmentIdentity_eq (hm : m.WellFormed) (hwidth : arith.Holds (m.cols + m.rows))
    (hfit : arith.Holds (m.rows * (m.cols + m.rows))) :
    m.flatAugmentIdentity arith = .ok m.augmentIdentity := by
  have hsum : arith.sum m.cols m.rows = .ok (m.cols + m.rows) := hwidth
  have hstored : m.StoredIn arith :=
    ⟨hm, hfit.mono (Nat.mul_le_mul_left m.rows (Nat.le_add_right m.cols m.rows))⟩
  have hwide : m.augmentIdentity.StoredIn arith := ⟨augmentIdentity_wellFormed, hfit⟩
  have hstart : zeros m.rows (m.cols + m.rows) = m.augmentedAfter [] :=
    generate_congr fun r c _ _ => (if_neg List.not_mem_nil).symm
  have hend : m.augmentedAfter (List.range m.rows) = m.augmentIdentity :=
    (eq_generate augmentIdentity_wellFormed fun r c hr _ =>
      (if_pos (List.mem_range.mpr hr)).symm).symm
  have hcopies := foldlM_done (List.range m.rows) (fun r hr done =>
    copyAugmented_augmentedAfter hstored hwide done (List.mem_range.mp hr)) []
  rw [flatAugmentIdentity, hsum, bind_ok, flatZeros_eq hfit, bind_ok, hstart, hcopies,
    List.nil_append, hend]

theorem augmentByCopies_eq_augmentIdentity (hm : m.WellFormed) :
    m.augmentByCopies = .ok m.augmentIdentity :=
  flatAugmentIdentity_eq hm (IndexArithmetic.holds_unbounded _) (IndexArithmetic.holds_unbounded _)

end Copies

/-- Nothing is lost when an identity block is put beside a matrix or when columns are cut: the
matrix and the identity can be cut out again, the rows of two neighbouring blocks join to the rows
of the block they make up, and a block of a block is a block of the matrix. All of these are what
the copies of whole rows and the cuts of row slices give. -/
theorem columns_lossless (hm : m.WellFormed) :
    m.augmentByCopies = .ok m.augmentIdentity ∧
    (∀ first last, m.columnsByCuts first last = m.columns first last) ∧
    m.augmentIdentity.HasShape m.rows (m.cols + m.rows) ∧
    (0 < m.rows + m.cols → m.augmentIdentity.columns 0 m.cols = .ok m ∧
      m.augmentIdentity.columns m.cols (m.cols + m.rows) = .ok (identity m.rows)) ∧
    (0 < m.cols → ∀ first middle last, first ≤ middle → middle ≤ last → last ≤ m.cols →
      ∃ left right whole, m.columns first middle = .ok left ∧ m.columns middle last = .ok right ∧
        m.columns first last = .ok whole ∧ left.HasShape m.rows (middle - first) ∧
        right.HasShape m.rows (last - middle) ∧ whole.HasShape m.rows (last - first) ∧
        whole.toRows = List.zipWith (· ++ ·) left.toRows right.toRows) ∧
    ∀ first last x y, first < last → last ≤ m.cols → x ≤ y → y ≤ last - first →
      ∃ block part, m.columns first last = .ok block ∧ block.columns x y = .ok part ∧
        m.columns (first + x) (first + y) = .ok part := by
  refine ⟨augmentByCopies_eq_augmentIdentity hm, columnsByCuts_eq_columns hm,
    ⟨augmentIdentity_wellFormed, rfl, rfl⟩, fun hany => ?_,
    fun hc first middle last hmiddle hlast hcols => ?_, fun first last x y hlt hcols hx hy => ?_⟩
  · have hwide : 0 < m.augmentIdentity.cols := by rwa [Nat.add_comm] at hany
    have hidentity : (identity m.rows : DenseMatrix α).WellFormed := generate_wellFormed _ _ _
    rw [columns_eq_columnBlock hwide (Nat.zero_le _) (Nat.le_add_right _ _),
      columns_eq_columnBlock hwide (Nat.le_add_right _ _) (Nat.le_refl _),
      augmentIdentity_eq_beside, columnBlock_beside_left hm]
    exact ⟨rfl, congrArg Except.ok (columnBlock_beside_right hidentity rfl)⟩
  · refine ⟨_, _, _, columns_eq_columnBlock hc hmiddle (Nat.le_trans hlast hcols),
      columns_eq_columnBlock hc hlast hcols,
      columns_eq_columnBlock hc (Nat.le_trans hmiddle hlast) hcols, columnBlock_hasShape _ _ _,
      columnBlock_hasShape _ _ _, columnBlock_hasShape _ _ _, ?_⟩
    rw [← beside_columnBlock hmiddle hlast]
    exact toRows_beside rfl
  · have hblock : 0 < (m.columnBlock first last).cols := Nat.sub_pos_of_lt hlt
    refine ⟨_, _, columns_eq_columnBlock (by omega) (Nat.le_of_lt hlt) hcols,
      columns_eq_columnBlock hblock hx hy, ?_⟩
    rw [columns_eq_columnBlock (by omega) (by omega) (by omega), columnBlock_columnBlock hy]

theorem columns_lossless_special :
    (⟨2, 3, #[0.0 / 0.0, -0.0, 1, 2, 1.0 / 0.0, 3]⟩ : DenseMatrix Float).WellFormed ∧
    (⟨2, 3, #[0.0 / 0.0, -0.0, 1, 2, 1.0 / 0.0, 3]⟩ : DenseMatrix Float).augmentByCopies =
      .ok ⟨2, 5, #[0.0 / 0.0, -0.0, 1, 1, 0, 2, 1.0 / 0.0, 3, 0, 1]⟩ ∧
    (⟨2, 5, #[0.0 / 0.0, -0.0, 1, 1, 0, 2, 1.0 / 0.0, 3, 0, 1]⟩ : DenseMatrix Float).columns 0 3 =
      .ok ⟨2, 3, #[0.0 / 0.0, -0.0, 1, 2, 1.0 / 0.0, 3]⟩ ∧
    (⟨2, 5, #[0.0 / 0.0, -0.0, 1, 1, 0, 2, 1.0 / 0.0, 3, 0, 1]⟩ : DenseMatrix Float).columns 3 5 =
      .ok ⟨2, 2, #[1, 0, 0, 1]⟩ ∧
    (∃ left right whole,
      (⟨2, 3, #[0.0 / 0.0, -0.0, 1, 2, 1.0 / 0.0, 3]⟩ : DenseMatrix Float).columns 0 1 = .ok left ∧
      (⟨2, 3, #[0.0 / 0.0, -0.0, 1, 2, 1.0 / 0.0, 3]⟩ : DenseMatrix Float).columns 1 3 = .ok right ∧
      (⟨2, 3, #[0.0 / 0.0, -0.0, 1, 2, 1.0 / 0.0, 3]⟩ : DenseMatrix Float).columns 0 3 = .ok whole ∧
      whole.toRows = List.zipWith (· ++ ·) left.toRows right.toRows) ∧
    ∃ block,
      (⟨2, 3, #[0.0 / 0.0, -0.0, 1, 2, 1.0 / 0.0, 3]⟩ : DenseMatrix Float).columns 1 3 = .ok block ∧
      block.columns 1 2 = .ok ⟨2, 1, #[1, 3]⟩ := by
  have hm : (⟨2, 3, #[0.0 / 0.0, -0.0, 1, 2, 1.0 / 0.0, 3]⟩ : DenseMatrix Float).WellFormed := rfl
  obtain ⟨hcopies, _, _, hcut, hjoin, hagain⟩ := columns_lossless hm
  obtain ⟨hgiven, hidentity⟩ := hcut (by decide)
  obtain ⟨left, right, whole, hleft, hright, hwhole, _, _, _, hrows⟩ :=
    hjoin (by decide) 0 1 3 (by decide) (by decide) (by decide)
  obtain ⟨block, part, hblock, hpart, hsame⟩ :=
    hagain 1 3 1 2 (by decide) (by decide) (by decide) (by decide)
  exact ⟨hm, hcopies, hgiven, hidentity, ⟨left, right, whole, hleft, hright, hwhole, hrows⟩,
    block, hblock, hpart.trans hsame.symm⟩

/-- Even beside its identity, a matrix without rows and columns has no columns to cut. -/
example : (⟨0, 0, #[]⟩ : DenseMatrix Float).augmentIdentity.columns 0 0 = .error .noColumns := rfl

/-- Nor can a block without columns be cut again. -/
example : ((⟨1, 1, #[2]⟩ : DenseMatrix Float).columns 1 1).bind (fun block => block.columns 0 0) =
    .error .noColumns := rfl

end DenseMatrix

end GaussJordan
