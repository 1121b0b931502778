import GaussJordan.Operation

namespace GaussJordan

namespace DenseMatrix

variable {α : Type} {m n : DenseMatrix α} {rows cols : Nat}

/-- A matrix of a shape, with a cell for each row and column of it. -/
structure HasShape (rows cols : Nat) (m : DenseMatrix α) : Prop where
  wellFormed : m.WellFormed
  rows_eq : m.rows = rows
  cols_eq : m.cols = cols

/-- What becomes of a matrix when only its cells are worked on. -/
structure KeepsShape (m n : DenseMatrix α) : Prop where
  rows_eq : n.rows = m.rows
  cols_eq : n.cols = m.cols
  wellFormed : m.WellFormed → n.WellFormed

theorem keepsShape_refl (m : DenseMatrix α) : m.KeepsShape m := ⟨rfl, rfl, id⟩

theorem keepsShape_generate (m : DenseMatrix α) (f : Nat → Nat → α) :
    m.KeepsShape (generate m.rows m.cols f) :=
  ⟨rfl, rfl, fun _ => generate_wellFormed _ _ _⟩

theorem KeepsShape.hasShape (h : m.KeepsShape n) (hm : m.HasShape rows cols) :
    n.HasShape rows cols :=
  ⟨h.wellFormed hm.wellFormed, h.rows_eq.trans hm.rows_eq, h.cols_eq.trans hm.cols_eq⟩

/-- What becomes of a matrix when cells of it are replaced, even if it has too few. -/
structure SameSizes (m n : DenseMatrix α) : Prop where
  rows_eq : n.rows = m.rows
  cols_eq : n.cols = m.cols
  size_eq : n.cells.size = m.cells.size

theorem sameSizes_refl (m : DenseMatrix α) : m.SameSizes m := ⟨rfl, rfl, rfl⟩

theorem SameSizes.trans {k : DenseMatrix α} (h : m.SameSizes n) (h' : n.SameSizes k) :
    m.SameSizes k :=
  ⟨h'.rows_eq.trans h.rows_eq, h'.cols_eq.trans h.cols_eq, h'.size_eq.trans h.size_eq⟩

theorem SameSizes.keepsShape (h : m.SameSizes n) : m.KeepsShape n where
  rows_eq := h.rows_eq
  cols_eq := h.cols_eq
  wellFormed hm := by
    rw [WellFormed, h.size_eq, h.rows_eq, h.cols_eq]
    exact hm

theorem write_sameSizes {arith : IndexArithmetic} {row col : Nat} {x : α}
    (h : m.write arith row col x = .ok n) : m.SameSizes n := by
  obtain ⟨start, _, h⟩ := exists_of_bind_ok h
  obtain ⟨index, _, h⟩ := exists_of_bind_ok h
  split at h
  next =>
    cases h
    exact ⟨rfl, rfl, Array.size_setIfInBounds⟩
  next => cases h

theorem setCell_keepsShape {row col : Nat} {x : α} (h : m.setCell row col x = .ok n) :
    m.KeepsShape n := by
  unfold setCell at h
  split at h
  next => exact (write_sameSizes h).keepsShape
  next => cases h

/-- A matrix with all of its cells, whose number the arithmetic holds. -/
structure StoredIn (arith : IndexArithmetic) (m : DenseMatrix α) : Prop where
  wellFormed : m.WellFormed
  holds : arith.Holds (m.rows * m.cols)

namespace StoredIn

variable {arith : IndexArithmetic} {r c : Nat}

theorem of_wellFormed (hm : m.WellFormed) : m.StoredIn .unbounded :=
  ⟨hm, IndexArithmetic.holds_unbounded _⟩

theorem product_eq (hm : m.StoredIn arith) (hr : r ≤ m.rows) :
    arith.product r m.cols = .ok (r * m.cols) := hm.holds.mono (Nat.mul_le_mul_right m.cols hr)

theorem sum_eq (hm : m.StoredIn arith) (hr : r < m.rows) (hc : c ≤ m.cols) :
    arith.sum (r * m.cols) c = .ok (r * m.cols + c) := by
  refine hm.holds.mono (Nat.le_trans ?_ (Nat.mul_le_mul_right m.cols hr))
  rw [Nat.succ_mul]
  exact Nat.add_le_add_left hc _

/-- If there are columns, then the rows can be counted. -/
theorem holds_next (hm : m.StoredIn arith) (hr : r < m.rows) (hc : 0 < m.cols) :
    arith.Holds (r + 1) := hm.holds.mono (Nat.le_trans hr (Nat.le_mul_of_pos_right _ hc))

theorem index_lt_size (hm : m.StoredIn arith) (hr : r < m.rows) (hc : c < m.cols) :
    r * m.cols + c < m.cells.size := by
  rw [hm.wellFormed]
  exact index_lt hr hc

end StoredIn

theorem HasShape.storedIn {arith : IndexArithmetic} (h : n.HasShape m.rows m.cols)
    (hm : m.StoredIn arith) : n.StoredIn arith := by
  refine ⟨h.wellFormed, ?_⟩
  rw [h.rows_eq, h.cols_eq]
  exact hm.holds

theorem SameSizes.storedIn {arith : IndexArithmetic} (h : m.SameSizes n) (hm : m.StoredIn arith) :
    n.StoredIn arith :=
  HasShape.storedIn ⟨h.keepsShape.wellFormed hm.wellFormed, h.rows_eq, h.cols_eq⟩ hm

variable [Scalar α]

theorem swapRows_keepsShape {a b : Nat} (h : m.swapRows a b = .ok n) : m.KeepsShape n := by
  rcases swapRows_cases h with ⟨rfl, _⟩ | ⟨_, _, rfl⟩
  · exact keepsShape_refl _
  · exact keepsShape_generate _ _

theorem scaleRow_keepsShape {target : Nat} {divisor : α} (h : m.scaleRow target divisor = .ok n) :
    m.KeepsShape n := by
  rcases scaleRow_cases h with ⟨rfl, _⟩ | ⟨_, rfl⟩
  · exact keepsShape_refl _
  · exact keepsShape_generate _ _

theorem subtractScaledRow_keepsShape {target source : Nat} {factor : α}
    (h : m.subtractScaledRow target source factor = .ok n) : m.KeepsShape n := by
  rcases subtractScaledRow_cases h with ⟨rfl, _⟩ | ⟨_, _, rfl⟩
  · exact keepsShape_refl _
  · exact keepsShape_generate _ _

end DenseMatrix

/-- Every operation but the augmentation works on the cells alone. -/
theorem Operation.apply_keepsShape {α : Type} [Scalar α] {op : Operation α} {m n : DenseMatrix α}
    (hop : op ≠ .augment) (h : op.apply m = .ok n) : m.KeepsShape n := by
  cases op with
  | augment => exact absurd rfl hop
  | swap => exact DenseMatrix.swapRows_keepsShape h
  | scale => exact DenseMatrix.scaleRow_keepsShape h
  | eliminate => exact DenseMatrix.subtractScaledRow_keepsShape h
  | assign => exact DenseMatrix.setCell_keepsShape h

end GaussJordan
