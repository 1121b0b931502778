import GaussJordan.FlatCells
import GaussJordan.Proofs.ClassifiedRows
import GaussJordan.Proofs.ColumnClearing
import GaussJordan.Proofs.CopiedCells
import GaussJordan.Proofs.StackedRows

namespace GaussJordan

/-- A loop whose every step adds what it has worked on to what is done ends with all of it done. -/
theorem foldlM_done {β γ : Type} {step : β → γ → Except Fault β} {state : List γ → β} (cs : List γ)
    (hstep : ∀ c ∈ cs, ∀ done, step (state done) c = .ok (state (done ++ [c]))) (done : List γ) :
    cs.foldlM step (state done) = .ok (state (done ++ cs)) := by
  induction cs generalizing done with
  | nil =>
    rw [List.append_nil]
    rfl
  | cons c cs ih =>
    rw [List.foldlM_cons, hstep c List.mem_cons_self, bind_ok,
      ih (fun d hd => hstep d (List.mem_cons_of_mem c hd)), List.append_assoc]
    rfl

theorem length_of_mapM {β γ : Type} {f : β → Except Fault γ} {bs : List β} {cs : List γ}
    (h : bs.mapM f = .ok cs) : cs.length = bs.length := by
  induction bs generalizing cs with
  | nil =>
    cases h
    rfl
  | cons b bs ih =>
    rw [List.mapM_cons] at h
    obtain ⟨c, _, h⟩ := exists_of_bind_ok h
    obtain ⟨rest, hrest, h⟩ := exists_of_bind_ok h
    cases h
    rw [List.length_cons, ih hrest, List.length_cons]

namespace DenseMatrix

variable {α : Type} {arith : IndexArithmetic} {m n : DenseMatrix α}

section Sizes

theorem overSlice_sameSizes (start stop : Nat) (f : Nat → α → α) :
    m.SameSizes (m.overSlice start stop f) := ⟨rfl, rfl, Array.size_mapIdx⟩

theorem foldlM_sameSizes {β : Type} {step : DenseMatrix α → β → Except Fault (DenseMatrix α)}
    (hstep : ∀ {m n : DenseMatrix α} {b : β}, step m b = .ok n → m.SameSizes n) {bs : List β}
    (h : bs.foldlM step m = .ok n) : m.SameSizes n :=
  foldlM_invariant (P := m.SameSizes) (fun _ _ _ _ hk hnext => hk.trans (hstep hnext))
    (sameSizes_refl m) h

theorem flatSwapRows_sameSizes {a b : Nat} (h : m.flatSwapRows arith a b = .ok n) :
    m.SameSizes n := by
  unfold flatSwapRows at h
  split at h
  next =>
    cases h
    exact sameSizes_refl m
  next =>
    refine foldlM_sameSizes (fun {_ _ _} hswap => ?_) h
    obtain ⟨x, _, hswap⟩ := exists_of_bind_ok hswap
    obtain ⟨y, _, hswap⟩ := exists_of_bind_ok hswap
    obtain ⟨k, hfirst, hsecond⟩ := exists_of_bind_ok hswap
    exact (write_sameSizes hfirst).trans (write_sameSizes hsecond)

variable [Scalar α]

theorem flatScaleRow_sameSizes {target : Nat} {divisor : α}
    (h : m.flatScaleRow arith target divisor = .ok n) : m.SameSizes n := by
  obtain ⟨bounds, _, h⟩ := exists_of_bind_ok h
  cases h
  exact overSlice_sameSizes _ _ _

theorem flatSubtractScaledRow_sameSizes {target source : Nat} {factor : α}
    (h : m.flatSubtractScaledRow arith target source factor = .ok n) : m.SameSizes n := by
  refine foldlM_sameSizes (fun {_ _ _} hcell => ?_) h
  obtain ⟨y, _, hcell⟩ := exists_of_bind_ok hcell
  obtain ⟨x, _, hwrite⟩ := exists_of_bind_ok hcell
  exact write_sameSizes hwrite

end Sizes

section Counts

/-- An arithmetic that wraps has room for the number of cells that the matrix should have. -/
def Unwrapped (arith : IndexArithmetic) (m : DenseMatrix α) : Prop :=
  ∀ limit, arith = .wrapping limit → m.rows * m.cols < limit

/-- A matrix whose cells have been counted lacks none, unless the count has wrapped. -/
theorem storedIn_of_product (h : arith.product m.rows m.cols = .ok m.cells.size)
    (hfit : m.Unwrapped arith) : m.StoredIn arith := by
  have hholds : arith.Holds (m.rows * m.cols) := IndexArithmetic.holds_of_hold h hfit
  exact ⟨Except.ok.inj (h.symm.trans hholds), hholds⟩

theorem Unwrapped.of_shape_eq (h : n.Unwrapped arith) (hrows : n.rows = m.rows)
    (hcols : n.cols = m.cols) : m.Unwrapped arith := by
  rw [Unwrapped, ← hrows, ← hcols]
  exact h

theorem product_of_ofCells {rows cols : Nat} {cells : Array α}
    (h : ofCells arith rows cols cells = .ok m) :
    m = ⟨rows, cols, cells⟩ ∧ arith.product rows cols = .ok cells.size := by
  obtain ⟨count, hcount, h⟩ := exists_of_bind_ok h
  split at h
  next hsize =>
    cases h
    exact ⟨rfl, hsize ▸ hcount⟩
  next => cases h

theorem ofCells_storedIn {rows cols : Nat} {cells : Array α}
    (h : ofCells arith rows cols cells = .ok m) (hfit : m.Unwrapped arith) : m.StoredIn arith := by
  obtain ⟨rfl, hproduct⟩ := product_of_ofCells h
  exact storedIn_of_product hproduct hfit

theorem flatOfRows_storedIn {lines : List (List α)} (h : flatOfRows arith lines = .ok (.ok m))
    (hfit : m.Unwrapped arith) : m.StoredIn arith := by
  unfold flatOfRows at h
  split at h
  next => cases h
  next =>
    obtain ⟨k, hk, h⟩ := exists_of_bind_ok h
    cases h
    exact ofCells_storedIn hk hfit

theorem ofCells_eq_ok (hm : m.StoredIn arith) : ofCells arith m.rows m.cols m.cells = .ok m := by
  have hsize : m.cells.size = m.rows * m.cols := hm.wellFormed
  rw [ofCells, hm.product_eq (Nat.le_refl _), bind_ok, if_pos hsize]
  rfl

/-- If the cells can be counted, rows make the matrix, or are refused, as they are without that. -/
theorem flatOfRows_eq {lines : List (List α)}
    (hfit : ∀ m, ofRows lines = .ok m → arith.Holds (m.rows * m.cols)) :
    flatOfRows arith lines = .ok (ofRows lines) := by
  unfold flatOfRows
  split
  next e he =>
    rw [he]
    rfl
  next m hm =>
    rw [ofCells_eq_ok ⟨ofRows_wellFormed hm, hfit m hm⟩, hm]
    rfl

end Counts

variable [Scalar α]

section Reading

variable {r c : Nat}

theorem StoredIn.read_eq (hm : m.StoredIn arith) (hr : r < m.rows) (hc : c < m.cols) :
    m.read arith r c = .ok (m.entry r c) := by
  have hindex := hm.index_lt_size hr hc
  rw [read, hm.product_eq (Nat.le_of_lt hr), bind_ok, hm.sum_eq hr (Nat.le_of_lt hc), bind_ok]
  simp [entry, hindex]
  rfl

omit [Scalar α] in
theorem StoredIn.rowBounds_eq (hm : m.StoredIn arith) (hr : r < m.rows)
    (hnext : arith.Holds (r + 1)) :
    m.rowBounds arith r = .ok (r * m.cols, (r + 1) * m.cols) := by
  have hsum : arith.sum r 1 = .ok (r + 1) := hnext
  have hroom : (r + 1) * m.cols ≤ m.cells.size := by
    rw [hm.wellFormed]
    exact Nat.mul_le_mul_right m.cols hr
  rw [rowBounds, hm.product_eq (Nat.le_of_lt hr), bind_ok, hsum, bind_ok, hm.product_eq hr,
    bind_ok, if_pos ⟨Nat.mul_le_mul_right m.cols (Nat.le_succ r), hroom⟩]
  rfl

theorem StoredIn.flatRow_eq (hm : m.StoredIn arith) (hr : r < m.rows)
    (hnext : arith.Holds (r + 1)) :
    m.flatRow arith r = .ok ((List.range m.cols).map fun c => m.entry r c) := by
  rw [flatRow, hm.rowBounds_eq hr hnext, bind_ok, ← rowSlice_eq hm.wellFormed hr]
  rfl

theorem row_eq_entries (hm : m.WellFormed) (hr : r < m.rows) :
    m.row r = .ok ((List.range m.cols).map fun c => m.entry r c) :=
  (StoredIn.of_wellFormed hm).flatRow_eq hr (IndexArithmetic.holds_unbounded _)

/-- What is done to the cells from the beginning of a row on is done to that part of the row. -/
theorem entry_overSlice (hm : m.WellFormed) {width : Nat} (hwidth : width ≤ m.cols)
    (f : Nat → α → α) {i j : Nat} (hi : i < m.rows) (hj : j < m.cols) :
    (m.overSlice (r * m.cols) (r * m.cols + width) f).entry i j =
      if i = r ∧ j < width then f j (m.entry i j) else m.entry i j := by
  have hindex : i * m.cols + j < m.cells.size := by
    rw [hm]
    exact index_lt hi hj
  have hentry : (m.overSlice (r * m.cols) (r * m.cols + width) f).entry i j =
      if r * m.cols ≤ i * m.cols + j ∧ i * m.cols + j < r * m.cols + width
      then f (i * m.cols + j - r * m.cols) (m.entry i j) else m.entry i j := by
    simp [entry, overSlice, hindex]
  rw [hentry]
  by_cases hin : i = r ∧ j < width
  · obtain ⟨rfl, hlt⟩ := hin
    rw [if_pos ⟨Nat.le_add_right _ _, Nat.add_lt_add_left hlt _⟩, if_pos ⟨rfl, hlt⟩,
      Nat.add_sub_cancel_left]
  · rw [if_neg hin, if_neg]
    rintro ⟨hstart, hstop⟩
    -- an index of the slice is one of the row, at a column of the slice
    have hcol : i * m.cols + j - r * m.cols < width := by omega
    have hplace : i * m.cols + j = r * m.cols + (i * m.cols + j - r * m.cols) := by omega
    obtain ⟨hrow, hcolumn⟩ := (index_eq_iff hj (Nat.lt_of_lt_of_le hcol hwidth)).mp hplace
    exact hin ⟨hrow, hcolumn ▸ hcol⟩

end Reading

section Columns

/-- A loop over the columns that rewrites one of them after the other, looking at that column only,
rewrites all cells. -/
theorem foldlM_columns {step : DenseMatrix α → Nat → Except Fault (DenseMatrix α)}
    {f : Nat → Nat → α} (hm : m.WellFormed)
    (hstep : ∀ s k, k < m.cols → s.HasShape m.rows m.cols →
      (∀ r, r < m.rows → s.entry r k = m.entry r k) →
      ∃ t, step s k = .ok t ∧ t.HasShape m.rows m.cols ∧ ∀ r c, r < m.rows → c < m.cols →
        t.entry r c = if c = k then f r c else s.entry r c) :
    (List.range m.cols).foldlM step m = .ok (generate m.rows m.cols f) := by
  -- after some columns, those before have been rewritten and the others are as they were
  have hrun : ∀ k, k ≤ m.cols → ∃ s, (List.range k).foldlM step m = .ok s ∧
      s.HasShape m.rows m.cols ∧ ∀ r c, r < m.rows → c < m.cols →
        s.entry r c = if c < k then f r c else m.entry r c := by
    intro k
    induction k with
    | zero => exact fun _ => ⟨m, rfl, ⟨hm, rfl, rfl⟩, fun r c _ _ => by simp⟩
    | succ k ih =>
      intro hk
      obtain ⟨s, hs, hshape, hentry⟩ := ih (Nat.le_of_lt hk)
      obtain ⟨t, ht, htshape, htentry⟩ := hstep s k hk hshape fun r hr => by
        rw [hentry r k hr hk, if_neg (Nat.lt_irrefl k)]
      refine ⟨t, ?_, htshape, fun r c hr hc => ?_⟩
      · rw [List.range_succ, List.foldlM_append, hs, bind_ok, List.foldlM_cons, ht]
        rfl
      · rw [htentry r c hr hc, hentry r c hr hc]
        split
        next heq => rw [if_pos (by omega)]
        next hne =>
          have hiff : c < k + 1 ↔ c < k := by omega
          simp only [hiff]
  obtain ⟨s, hs, hshape, hentry⟩ := hrun m.cols (Nat.le_refl _)
  rw [hs]
  refine congrArg Except.ok (ext_entry hshape.wellFormed (generate_wellFormed _ _ _)
    hshape.rows_eq hshape.cols_eq fun r c hr hc => ?_)
  rw [hshape.rows_eq] at hr
  rw [hshape.cols_eq] at hc
  rw [hentry r c hr hc, if_pos hc, entry_generate f hr hc]

/-- Without columns there is no cell to make anew. -/
theorem generate_of_cols_eq_zero (hm : m.WellFormed) (hc : m.cols = 0) (f : Nat → Nat → α) :
    generate m.rows m.cols f = m := (eq_generate hm fun r c _ hcol => by omega).symm

theorem flatSwapRows_eq (hm : m.StoredIn arith) {a b : Nat} (ha : a < m.rows) (hb : b < m.rows) :
    m.flatSwapRows arith a b = m.swapRows a b := by
  rw [swapRows_eq_exchanged hm.wellFormed ha hb]
  by_cases hab : a = b
  · rw [flatSwapRows, if_pos hab, hab, exchanged_self hm.wellFormed]
  rw [flatSwapRows, if_neg hab]
  apply foldlM_columns hm.wellFormed
  intro s k hk hshape hsame
  have hstored := hshape.storedIn hm
  obtain ⟨hs, hrows, hcols⟩ := hshape
  have hstored' : (s.written a k (s.entry b k)).StoredIn arith :=
    ⟨written_wellFormed hs _ _ _, hstored.holds⟩
  refine ⟨(s.written a k (s.entry b k)).written b k (s.entry a k), ?_,
    ⟨written_wellFormed hstored'.wellFormed _ _ _, hrows, hcols⟩, fun r c hr hc => ?_⟩
  · rw [swapCells, hstored.read_eq (hrows ▸ ha) (hcols ▸ hk), bind_ok,
      hstored.read_eq (hrows ▸ hb) (hcols ▸ hk), bind_ok,
      write_eq_written hstored (hrows ▸ ha) (hcols ▸ hk), bind_ok,
      write_eq_written hstored' (hrows ▸ hb) (hcols ▸ hk)]
  · have hr' : r < s.rows := hrows ▸ hr
    have hc' : c < s.cols := hcols ▸ hc
    have hk' : k < s.cols := hcols ▸ hk
    rw [entry_written hstored'.wellFormed hr' hc' hk', entry_written hs hr' hc' hk',
      hsame a ha, hsame b hb]
    by_cases hck : c = k
    · subst hck
      by_cases hra : r = a
      · simp [hra, hab]
      · by_cases hrb : r = b
        · simp [hrb, Ne.symm hab]
        · simp [hra, hrb, hsame r hr]
    · simp [hck]

theorem flatSubtractScaledRow_eq (hm : m.StoredIn arith) {target source : Nat}
    (ht : target < m.rows) (hs : source < m.rows) (factor : α) :
    m.flatSubtractScaledRow arith target source factor =
      m.subtractScaledRow target source factor := by
  rw [flatSubtractScaledRow, foldlM_columns hm.wellFormed (f := fun r c =>
    if r = target then m.entry r c - factor * m.entry source c else m.entry r c)]
  · by_cases hc : m.cols = 0
    · rw [subtractScaledRow, if_pos hc, generate_of_cols_eq_zero hm.wellFormed hc]
    · rw [subtractScaledRow, if_neg hc, if_neg (Nat.not_le_of_lt hs), if_neg (Nat.not_le_of_lt ht)]
  · intro s k hk hshape hsame
    have hstored := hshape.storedIn hm
    obtain ⟨hwf, hrows, hcols⟩ := hshape
    refine ⟨s.written target k (s.entry target k - factor * s.entry source k), ?_,
      ⟨written_wellFormed hwf _ _ _, hrows, hcols⟩, fun r c hr hc => ?_⟩
    · rw [subtractScaledCell, hstored.read_eq (hrows ▸ hs) (hcols ▸ hk), bind_ok,
        hstored.read_eq (hrows ▸ ht) (hcols ▸ hk), bind_ok,
        write_eq_written hstored (hrows ▸ ht) (hcols ▸ hk)]
    · rw [entry_written hwf (hrows ▸ hr) (hcols ▸ hc) (hcols ▸ hk), hsame target ht,
        hsame source hs]
      by_cases hck : c = k
      · subst hck
        by_cases hrt : r = target
        · simp [hrt]
        · simp [hrt, hsame r hr]
      · simp [hck]

/-- Without columns there is nothing to scale, but the next row must still be counted. -/
theorem flatScaleRow_eq (hm : m.StoredIn arith) {target : Nat} (ht : target < m.rows)
    (hnext : arith.Holds (target + 1)) (divisor : α) :
    m.flatScaleRow arith target divisor = m.scaleRow target divisor := by
  have hscaled : m.overSlice (target * m.cols) ((target + 1) * m.cols) (fun _ x => x / divisor) =
      generate m.rows m.cols fun r c =>
        if r = target then m.entry r c / divisor else m.entry r c := by
    refine eq_generate ((overSlice_sameSizes _ _ _).keepsShape.wellFormed hm.wellFormed) ?_
    intro r c (hr : r < m.rows) (hc : c < m.cols)
    rw [Nat.succ_mul, entry_overSlice hm.wellFormed (Nat.le_refl _) _ hr hc]
    simp [hc]
  rw [flatScaleRow, hm.rowBounds_eq ht hnext, bind_ok]
  change Except.ok (m.overSlice _ _ _) = _
  rw [hscaled]
  by_cases hc : m.cols = 0
  · rw [scaleRow, if_pos hc, generate_of_cols_eq_zero hm.wellFormed hc]
  · rw [scaleRow, if_neg hc, if_neg (Nat.not_le_of_lt ht)]

end Columns

section Making

/-- The cells of a matrix, listed row by row. -/
theorem ofCells_toRows (hm : m.StoredIn arith) :
    ofCells arith m.rows m.cols m.toRows.flatten.toArray = .ok m := by
  have hcells : m.toRows.flatten.toArray = m.cells :=
    congrArg cells (stacked_toRows hm.wellFormed)
  rw [hcells, ofCells_eq_ok hm]

theorem flatZeros_eq {rows cols : Nat} (h : arith.Holds (rows * cols)) :
    (flatZeros arith rows cols : Except Fault (DenseMatrix α)) = .ok (zeros rows cols) := by
  have hproduct : arith.product rows cols = .ok (rows * cols) := h
  have hcells : Array.replicate (rows * cols) (0 : α) = (zeros rows cols).cells := by
    apply Array.ext <;> simp [zeros, generate]
  rw [flatZeros, hproduct, bind_ok, hcells]
  exact ofCells_eq_ok (m := zeros rows cols) ⟨generate_wellFormed _ _ _, h⟩

theorem toRows_generate (rows cols : Nat) (f : Nat → Nat → α) : (generate rows cols f).toRows =
    (List.range rows).map fun r => (List.range cols).map fun c => f r c :=
  List.map_congr_left fun _ hr => List.map_congr_left fun _ hc =>
    entry_generate f (List.mem_range.mp hr) (List.mem_range.mp hc)

theorem flatIdentity_eq {k : Nat} (h : arith.Holds (k * k)) :
    (flatIdentity arith k : Except Fault (DenseMatrix α)) = .ok (identity k) := by
  have hcells := ofCells_toRows (m := (identity k : DenseMatrix α)) ⟨generate_wellFormed _ _ _, h⟩
  rw [identity, toRows_generate, ← List.flatMap_def] at hcells
  exact hcells

theorem StoredIn.transpose (hm : m.StoredIn arith) : m.transpose.StoredIn arith where
  wellFormed := generate_wellFormed _ _ _
  holds := by
    change arith.Holds (m.cols * m.rows)
    rw [Nat.mul_comm]
    exact hm.holds

theorem flatTranspose_eq (hm : m.StoredIn arith) : m.flatTranspose arith = .ok m.transpose := by
  have hlines : (List.range m.cols).mapM
      (fun c => (List.range m.rows).mapM fun r => m.read arith r c) = .ok m.transpose.toRows := by
    rw [DenseMatrix.transpose, toRows_generate]
    exact mapM_eq_ok fun c hc => mapM_eq_ok fun r hr =>
      hm.read_eq (List.mem_range.mp hr) (List.mem_range.mp hc)
  rw [flatTranspose, hlines, bind_ok]
  exact ofCells_toRows hm.transpose

theorem flatZeros_storedIn {rows cols : Nat} (h : flatZeros arith rows cols = .ok m)
    (hfit : m.Unwrapped arith) : m.StoredIn arith := by
  obtain ⟨count, _, h⟩ := exists_of_bind_ok h
  exact ofCells_storedIn h hfit

theorem random_storedIn {rows cols : Nat} {draw : Float → Float → Nat → Float}
    {m : DenseMatrix Float} (h : random arith rows cols draw = .ok m) (hfit : m.Unwrapped arith) :
    m.StoredIn arith := by
  obtain ⟨count, hcount, h⟩ := exists_of_bind_ok h
  cases h
  refine storedIn_of_product ?_ hfit
  rw [Array.size_ofFn]
  exact hcount

/-- If all numbers drawn lie within the bounds that are asked for, so do all cells. -/
theorem random_bounds {rows cols : Nat} {draw : Float → Float → Nat → Float}
    (hdraw : ∀ k, -10.0 ≤ draw (-10.0) 10.0 k ∧ draw (-10.0) 10.0 k < 10.0)
    {m : DenseMatrix Float} (h : random arith rows cols draw = .ok m) :
    ∀ x ∈ m.cells, -10.0 ≤ x ∧ x < 10.0 := by
  obtain ⟨count, _, h⟩ := exists_of_bind_ok h
  cases h
  intro x hx
  obtain ⟨k, rfl⟩ := Array.mem_ofFn.mp hx
  exact hdraw k

end Making

end DenseMatrix

end GaussJordan
