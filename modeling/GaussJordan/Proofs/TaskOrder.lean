import GaussJordan.RowTasks
import GaussJordan.Proofs.FlatOperations

namespace GaussJordan

variable {α : Type} [Scalar α]

theorem dot_map_range (f g : Nat → α) (n : Nat) :
    dot ((List.range n).map f) ((List.range n).map g) =
      (List.range n).foldl (fun sum q => sum + f q * g q) Scalar.emptySum := by
  rw [dot, List.zipWith_map, List.zipWith_self, List.foldl_map]

namespace DenseMatrix

variable {arith : IndexArithmetic} {m other : DenseMatrix α}

def productCell (m other : DenseMatrix α) (r c : Nat) : α :=
  (List.range m.cols).foldl (fun sum q => sum + m.entry r q * other.entry q c) Scalar.emptySum

/-- There is a product with columns, and the arithmetic holds the sizes of all that it takes. -/
structure Multipliable (arith : IndexArithmetic) (m other : DenseMatrix α) : Prop where
  sizes : m.cols = other.rows
  wide : 0 < other.cols
  left : m.StoredIn arith
  turned : other.transpose.StoredIn arith
  product : arith.Holds (m.rows * other.cols)

theorem fillRow_eq (h : m.Multipliable arith other) {r : Nat} (hr : r < m.rows) {row : List α}
    (hrow : row.length = other.cols) : m.fillRow arith other.transpose r row =
      .ok ((List.range other.cols).map (m.productCell other r)) := by
  have hright : ∀ c ∈ List.range other.cols, (do
      let right ← other.transpose.flatRow arith c
      return dot ((List.range m.cols).map (m.entry r)) right : Except Fault α) =
        .ok (m.productCell other r c) := by
    intro c hc
    have hlt : c < other.transpose.rows := List.mem_range.mp hc
    have hcolumn : (List.range other.rows).map (other.transpose.entry c) =
        (List.range other.rows).map fun q => other.entry q c :=
      List.map_congr_left fun q hq =>
        entry_generate (fun i j => other.entry j i) hlt (List.mem_range.mp hq)
    have hnext : arith.Holds (c + 1) := h.product.mono
      (Nat.le_trans hlt (Nat.le_mul_of_pos_left _ (Nat.zero_lt_of_lt hr)))
    rw [h.turned.flatRow_eq hlt hnext, bind_ok]
    change Except.ok (dot _ ((List.range other.rows).map (other.transpose.entry c))) = _
    rw [hcolumn, ← h.sizes, dot_map_range]
    rfl
  have hnext : arith.Holds (r + 1) :=
    h.product.mono (Nat.le_trans hr (Nat.le_mul_of_pos_right _ h.wide))
  rw [fillRow, h.left.flatRow_eq hr hnext, bind_ok, hrow]
  exact mapM_eq_ok hright

/-- The rows of the result when some of them have been filled and the others still hold zeros. -/
def chunksAfter (m other : DenseMatrix α) (done : List Nat) : List (List α) :=
  (generate m.rows other.cols fun r c => if r ∈ done then m.productCell other r c else 0).toRows

theorem length_chunksAfter (done : List Nat) : (m.chunksAfter other done).length = m.rows := by
  simp [chunksAfter, toRows]

theorem getElem?_chunksAfter (done : List Nat) {r : Nat} (hr : r < m.rows) :
    (m.chunksAfter other done)[r]? = some ((List.range other.cols).map fun c =>
      if r ∈ done then m.productCell other r c else 0) := by
  rw [chunksAfter, toRows_generate, List.getElem?_map, List.getElem?_range hr]
  rfl

/-- A task fills its own row and leaves the other rows alone. -/
theorem fillChunk_chunksAfter (h : m.Multipliable arith other) (done : List Nat) {r : Nat}
    (hr : r < m.rows) : m.fillChunk arith other.transpose (m.chunksAfter other done) r =
      .ok (m.chunksAfter other (done ++ [r])) := by
  rw [fillChunk, getElem?_chunksAfter done hr]
  dsimp only
  rw [fillRow_eq h hr (by simp), bind_ok]
  refine congrArg Except.ok (List.ext_getElem? fun i => ?_)
  by_cases hi : i < m.rows
  · rw [List.getElem?_set, length_chunksAfter, getElem?_chunksAfter _ hi, getElem?_chunksAfter _ hi]
    by_cases heq : r = i
    · subst heq
      simp [hi]
    · simp [heq, Ne.symm heq]
  · have hlen : ∀ done, (m.chunksAfter other done).length ≤ i := fun done => by
      rw [length_chunksAfter]
      omega
    rw [List.getElem?_eq_none (by rw [List.length_set]; exact hlen done),
      List.getElem?_eq_none (hlen _)]

theorem rowSlices_zeros (hc : 0 < other.cols) :
    (zeros m.rows other.cols : DenseMatrix α).rowSlices = .ok (m.chunksAfter other []) := by
  have hwf : (zeros m.rows other.cols : DenseMatrix α).WellFormed := generate_wellFormed _ _ _
  rw [rowSlices_eq_toRows hwf hc]
  simp [chunksAfter, zeros]

/-- When every row has had its task, the rows make up the product. -/
theorem stacked_chunksAfter {done : List Nat} (h : ∀ r, r < m.rows → r ∈ done) :
    stacked other.cols (m.chunksAfter other done) =
      generate m.rows other.cols (m.productCell other) := by
  have hdone : (generate m.rows other.cols fun r c =>
      if r ∈ done then m.productCell other r c else 0) =
        generate m.rows other.cols (m.productCell other) :=
    generate_congr fun r c hr _ => if_pos (h r hr)
  rw [chunksAfter, hdone]
  exact stacked_toRows (generate_wellFormed _ _ _)

theorem fillByTasks_eq (h : m.Multipliable arith other) {order : List Nat}
    (horder : ∀ r, r ∈ order ↔ r < m.rows) :
    m.fillByTasks arith order other.transpose (zeros m.rows other.cols) =
      .ok (generate m.rows other.cols (m.productCell other)) := by
  have hstacked : stacked other.cols (m.chunksAfter other order) =
      generate m.rows other.cols (m.productCell other) :=
    stacked_chunksAfter fun r => (horder r).mpr
  rw [stacked, length_chunksAfter] at hstacked
  have htasks := foldlM_done order (fun r hr done =>
    fillChunk_chunksAfter h done ((horder r).mp hr)) []
  rw [fillByTasks, rowSlices_zeros h.wide, bind_ok, htasks, bind_ok, List.nil_append]
  exact congrArg Except.ok hstacked

/-- A product without columns has no rows to cut. -/
theorem fillByTasks_of_cols_eq_zero (turned : DenseMatrix α) (hc : other.cols = 0)
    (order : List Nat) : m.fillByTasks arith order turned (zeros m.rows other.cols) =
      .error .noColumns := by
  have hslices : (zeros m.rows other.cols : DenseMatrix α).rowSlices = .error .noColumns :=
    if_pos hc
  rw [fillByTasks, hslices]
  rfl

theorem mulByTasks_eq_generate (hm : m.WellFormed) (hsizes : m.cols = other.rows)
    (hc : 0 < other.cols) {order : List Nat} (horder : ∀ r, r ∈ order ↔ r < m.rows) :
    m.mulByTasks order other =
      .ok (.ok (generate m.rows other.cols (m.productCell other))) := by
  have h : m.Multipliable .unbounded other :=
    ⟨hsizes, hc, .of_wellFormed hm, .of_wellFormed (generate_wellFormed _ _ _),
      IndexArithmetic.holds_unbounded _⟩
  rw [mulByTasks, if_neg (not_not_intro hsizes), fillByTasks_eq h horder]
  rfl

theorem mul_eq_generate (hsizes : m.cols = other.rows) (hc : 0 < other.cols) :
    m.mul other = .ok (.ok (generate m.rows other.cols (m.productCell other))) := by
  rw [mul, if_neg (not_not_intro hsizes), if_neg (Nat.ne_of_gt hc)]
  rfl

/-- The tasks for the rows give the product in whatever order they are run. -/
theorem mulByTasks_eq_mul (hm : m.WellFormed) {order : List Nat}
    (horder : ∀ r, r ∈ order ↔ r < m.rows) : m.mulByTasks order other = m.mul other := by
  by_cases hsizes : m.cols = other.rows
  · by_cases hc : other.cols = 0
    · rw [mulByTasks, mul, if_neg (not_not_intro hsizes), if_neg (not_not_intro hsizes), if_pos hc,
        fillByTasks_of_cols_eq_zero _ hc]
      rfl
    · have hpos := Nat.pos_of_ne_zero hc
      rw [mulByTasks_eq_generate hm hsizes hpos horder, mul_eq_generate hsizes hpos]
  · rw [mulByTasks, mul, if_pos hsizes, if_pos hsizes]
    rfl

/-- If the operands and the product can be counted, the tasks give the product with indices that
are computed as they may be. -/
theorem flatMul_eq_mul (hm : m.StoredIn arith) (hother : other.StoredIn arith)
    (hproduct : arith.Holds (m.rows * other.cols)) {order : List Nat}
    (horder : ∀ r, r ∈ order ↔ r < m.rows) : m.flatMul arith order other = m.mul other := by
  by_cases hsizes : m.cols = other.rows
  · rw [flatMul, if_neg (not_not_intro hsizes), flatZeros_eq hproduct, bind_ok,
      flatTranspose_eq hother, bind_ok]
    by_cases hc : other.cols = 0
    · rw [mul, if_neg (not_not_intro hsizes), if_pos hc, fillByTasks_of_cols_eq_zero _ hc]
      rfl
    · have hpos := Nat.pos_of_ne_zero hc
      rw [mul_eq_generate hsizes hpos,
        fillByTasks_eq ⟨hsizes, hpos, hm, hother.transpose, hproduct⟩ horder]
      rfl
  · rw [flatMul, mul, if_pos hsizes, if_pos hsizes]
    rfl

theorem length_fillRow {turned : DenseMatrix α} {r : Nat} {row row' : List α}
    (h : m.fillRow arith turned r row = .ok row') : row'.length = row.length := by
  obtain ⟨left, _, h⟩ := exists_of_bind_ok h
  rw [length_of_mapM h, List.length_range]

theorem map_length_fillChunk {turned : DenseMatrix α} {chunks chunks' : List (List α)} {r : Nat}
    (h : m.fillChunk arith turned chunks r = .ok chunks') :
    chunks'.map List.length = chunks.map List.length := by
  unfold fillChunk at h
  split at h
  next => cases h
  next row hrow =>
    obtain ⟨row', hfill, hset⟩ := exists_of_bind_ok h
    cases hset
    have hold : (chunks.map List.length)[r]? = some row'.length := by
      rw [List.getElem?_map, hrow, length_fillRow hfill]
      rfl
    obtain ⟨hr, hget⟩ := List.getElem?_eq_some_iff.mp hold
    rw [List.map_set, ← hget, List.set_getElem_self]

theorem shape_of_fillByTasks {turned blank p : DenseMatrix α} {order : List Nat}
    (h : m.fillByTasks arith order turned blank = .ok p) :
    p.rows = blank.rows ∧ p.cols = blank.cols := by
  obtain ⟨chunks, _, h⟩ := exists_of_bind_ok h
  obtain ⟨chunks', _, h⟩ := exists_of_bind_ok h
  cases h
  exact ⟨rfl, rfl⟩

/-- However many tasks there are and whatever they read, they keep the rows as long as they are. -/
theorem fillByTasks_wellFormed {turned blank p : DenseMatrix α} {order : List Nat}
    (hblank : blank.WellFormed) (h : m.fillByTasks arith order turned blank = .ok p) :
    p.WellFormed := by
  obtain ⟨chunks, hslices, h⟩ := exists_of_bind_ok h
  obtain ⟨chunks', hrun, h⟩ := exists_of_bind_ok h
  cases h
  rcases Nat.eq_zero_or_pos blank.cols with hzero | hpos
  · rw [rowSlices, if_pos hzero] at hslices
    cases hslices
  · rw [rowSlices_eq_toRows hblank hpos] at hslices
    cases hslices
    have hlengths : chunks'.map List.length = blank.toRows.map List.length :=
      foldlM_invariant (P := fun chunks => chunks.map List.length = blank.toRows.map List.length)
        (fun _ _ _ _ hchunks hnext => (map_length_fillChunk hnext).trans hchunks) rfl hrun
    have hrows : blank.toRows.flatten.toArray.size = blank.toRows.length * blank.cols :=
      stacked_wellFormed fun row => length_of_mem_toRows
    rw [List.size_toArray, List.length_flatten, length_toRows] at hrows
    change chunks'.flatten.toArray.size = blank.rows * blank.cols
    rw [List.size_toArray, List.length_flatten, hlengths, hrows]

theorem flatMul_storedIn {order : List Nat} {p : DenseMatrix α}
    (h : m.flatMul arith order other = .ok (.ok p)) (hfit : p.Unwrapped arith) :
    p.StoredIn arith := by
  unfold flatMul at h
  split at h
  next => cases h
  next =>
    obtain ⟨blank, hblank, h⟩ := exists_of_bind_ok h
    obtain ⟨turned, _, h⟩ := exists_of_bind_ok h
    obtain ⟨filled, hfill, h⟩ := exists_of_bind_ok h
    cases h
    obtain ⟨hrows, hcols⟩ := shape_of_fillByTasks hfill
    have hstored := flatZeros_storedIn hblank (hfit.of_shape_eq hrows hcols)
    exact HasShape.storedIn
      ⟨fillByTasks_wellFormed hstored.wellFormed hfill, hrows, hcols⟩ hstored

theorem flatMul_eq_error_iff {order : List Nat} {e : ShapeError} :
    m.flatMul arith order other = .ok (.error e) ↔
      m.cols ≠ other.rows ∧ e = .dimensionMismatch m.rows m.cols other.rows other.cols := by
  unfold flatMul
  split
  next hne =>
    refine ⟨fun h => ?_, fun h => by rw [h.2]; rfl⟩
    cases h
    exact ⟨hne, rfl⟩
  next heq =>
    refine iff_of_false (fun h => ?_) fun h => heq h.1
    obtain ⟨blank, _, h⟩ := exists_of_bind_ok h
    obtain ⟨turned, _, h⟩ := exists_of_bind_ok h
    obtain ⟨filled, _, h⟩ := exists_of_bind_ok h
    cases h

theorem mul_eq_error_iff {e : ShapeError} : m.mul other = .ok (.error e) ↔
    m.cols ≠ other.rows ∧ e = .dimensionMismatch m.rows m.cols other.rows other.cols := by
  unfold mul
  split
  next hne =>
    refine ⟨fun h => ?_, fun h => by rw [h.2]⟩
    cases h
    exact ⟨hne, rfl⟩
  next heq =>
    refine iff_of_false (fun h => ?_) fun h => heq h.1
    split at h
    next => cases h
    next => cases h

/-- A sum of no products is negative zero. -/
example : ((⟨2, 0, #[]⟩ : DenseMatrix Float).mulByTasks [1, 0] ⟨0, 1, #[]⟩).toOption.bind
    Except.toOption = some ⟨2, 1, #[-0.0, -0.0]⟩ := by
  decide +kernel

end DenseMatrix

end GaussJordan
