import GaussJordan.Pivot
import GaussJordan.Proofs.Derivation

namespace GaussJordan

namespace DenseMatrix

variable {α : Type} [Scalar α] {tolerance : α} {m : DenseMatrix α} {row lead : Nat}

/-- No cell from a row and a column on is usable as a pivot. -/
def NoPivot (tolerance : α) (m : DenseMatrix α) (row lead : Nat) : Prop :=
  ∀ i c, row ≤ i → i < m.rows → lead ≤ c → c < m.cols → isZero tolerance (m.entry i c) = true

/-- The cell at `found` and `col` is the first usable pivot from a row and a column on, when the
columns are read one after the other and each from top to bottom. -/
structure FirstPivot (tolerance : α) (m : DenseMatrix α) (row lead found col : Nat) : Prop where
  row_le : row ≤ found
  lt_rows : found < m.rows
  lead_le : lead ≤ col
  lt_cols : col < m.cols
  usable : isZero tolerance (m.entry found col) = false
  above : ∀ i, row ≤ i → i < found → isZero tolerance (m.entry i col) = true
  skipped : ∀ i c, row ≤ i → i < m.rows → lead ≤ c → c < col →
    isZero tolerance (m.entry i c) = true

theorem FirstPivot.not_noPivot {found col : Nat} (h : m.FirstPivot tolerance row lead found col) :
    ¬m.NoPivot tolerance row lead := by
  intro hn
  have hz := hn found col h.row_le h.lt_rows h.lead_le h.lt_cols
  rw [h.usable] at hz
  cases hz

theorem FirstPivot.unique {found col found' col' : Nat}
    (h : m.FirstPivot tolerance row lead found col)
    (h' : m.FirstPivot tolerance row lead found' col') : found = found' ∧ col = col' := by
  have not_before : ∀ {i c i' c' : Nat}, m.FirstPivot tolerance row lead i c →
      m.FirstPivot tolerance row lead i' c' → ¬c < c' ∧ (c = c' → ¬i < i') := by
    intro i c i' c' hp hp'
    constructor
    · intro hlt
      have hz := hp'.skipped i c hp.row_le hp.lt_rows hp.lead_le hlt
      rw [hp.usable] at hz
      cases hz
    · intro heq hlt
      subst heq
      have hz := hp'.above i hp.row_le hlt
      rw [hp.usable] at hz
      cases hz
  have h1 := not_before h h'
  have h2 := not_before h' h
  have hc : col = col' := by omega
  have hf := h1.2 hc
  have hf' := h2.2 hc.symm
  exact ⟨by omega, hc⟩

theorem pivotRow_spec (tolerance : α) (hm : m.WellFormed) {col : Nat} (hc : col < m.cols)
    {row left : Nat} (hl : left = m.rows - row) :
    (m.pivotRow tolerance col row left = .ok none ∧
      ∀ i, row ≤ i → i < m.rows → isZero tolerance (m.entry i col) = true) ∨
    ∃ found, m.pivotRow tolerance col row left = .ok (some found) ∧ row ≤ found ∧
      found < m.rows ∧ isZero tolerance (m.entry found col) = false ∧
      ∀ i, row ≤ i → i < found → isZero tolerance (m.entry i col) = true := by
  induction left generalizing row with
  | zero => exact .inl ⟨rfl, fun i hi hr => by omega⟩
  | succ left ih =>
    have hcell := cell_eq_entry hm (show row < m.rows by omega) hc
    cases hz : isZero tolerance (m.entry row col) with
    | false =>
      refine .inr ⟨row, ?_, Nat.le_refl _, by omega, hz, fun i hi hlt => by omega⟩
      simp only [pivotRow, hcell, bind_ok, hz]
      rfl
    | true =>
      have hnext : m.pivotRow tolerance col row (left + 1) =
          m.pivotRow tolerance col (row + 1) left := by
        simp [pivotRow, hcell, hz]
      have extend : ∀ {bound : Nat},
          (∀ i, row + 1 ≤ i → i < bound → isZero tolerance (m.entry i col) = true) →
          ∀ i, row ≤ i → i < bound → isZero tolerance (m.entry i col) = true := by
        intro bound hbound i hi hb
        rcases Nat.eq_or_lt_of_le hi with rfl | hlt
        · exact hz
        · exact hbound i hlt hb
      rw [hnext]
      rcases ih (show left = m.rows - (row + 1) by omega) with
        ⟨hp, hall⟩ | ⟨found, hp, hle, hlt, hu, ha⟩
      · exact .inl ⟨hp, extend hall⟩
      · exact .inr ⟨found, hp, by omega, hlt, hu, extend ha⟩

theorem pivotFrom_spec (hm : m.WellFormed) {left : Nat} (hl : left = m.cols - lead) :
    (m.pivotFrom tolerance row lead left = .ok none ∧ m.NoPivot tolerance row lead) ∨
    ∃ found col, m.pivotFrom tolerance row lead left = .ok (some (found, col)) ∧
      m.FirstPivot tolerance row lead found col := by
  induction left generalizing lead with
  | zero => exact .inl ⟨rfl, fun i c _ _ hle hlt => by omega⟩
  | succ left ih =>
    have hlead : lead < m.cols := by omega
    rcases pivotRow_spec tolerance hm hlead (Eq.refl (m.rows - row)) with
      ⟨hp, hall⟩ | ⟨found, hp, hle, hlt, hu, ha⟩
    · have hnext : m.pivotFrom tolerance row lead (left + 1) =
          m.pivotFrom tolerance row (lead + 1) left := by
        simp [pivotFrom, hp]
      have extend : ∀ {bound : Nat}, (∀ i c, row ≤ i → i < m.rows → lead + 1 ≤ c → c < bound →
            isZero tolerance (m.entry i c) = true) →
          ∀ i c, row ≤ i → i < m.rows → lead ≤ c → c < bound →
            isZero tolerance (m.entry i c) = true := by
        intro bound hbound i c hi hr hc hb
        rcases Nat.eq_or_lt_of_le hc with rfl | hlt
        · exact hall i hi hr
        · exact hbound i c hi hr hlt hb
      rw [hnext]
      rcases ih (show left = m.cols - (lead + 1) by omega) with ⟨hn, hno⟩ | ⟨found, col, hf, hfirst⟩
      · exact .inl ⟨hn, extend hno⟩
      · refine .inr ⟨found, col, hf, ?_⟩
        have := hfirst.lead_le
        exact { hfirst with lead_le := by omega, skipped := extend hfirst.skipped }
    · refine .inr ⟨found, lead, ?_, hle, hlt, Nat.le_refl _, hlead, hu, ha,
        fun i c _ _ _ _ => by omega⟩
      simp only [pivotFrom, hp, bind_ok]
      rfl

theorem findPivot_spec (tolerance : α) (hm : m.WellFormed) (row lead : Nat) :
    (m.findPivot tolerance row lead = .ok none ∧ m.NoPivot tolerance row lead) ∨
    ∃ found col, m.findPivot tolerance row lead = .ok (some (found, col)) ∧
      m.FirstPivot tolerance row lead found col :=
  pivotFrom_spec hm rfl

theorem findPivot_eq_none_iff (hm : m.WellFormed) :
    m.findPivot tolerance row lead = .ok none ↔ m.NoPivot tolerance row lead := by
  rcases findPivot_spec tolerance hm row lead with ⟨hf, hn⟩ | ⟨found, col, hf, hp⟩
  · simp [hf, hn]
  · simp [hf, hp.not_noPivot]

theorem findPivot_eq_some_iff (hm : m.WellFormed) {found col : Nat} :
    m.findPivot tolerance row lead = .ok (some (found, col)) ↔
      m.FirstPivot tolerance row lead found col := by
  rcases findPivot_spec tolerance hm row lead with ⟨hf, hn⟩ | ⟨found', col', hf, hp⟩
  · rw [hf]
    constructor
    · intro h
      cases h
    · intro h
      exact absurd hn h.not_noPivot
  · rw [hf]
    constructor
    · intro h
      cases h
      exact hp
    · intro h
      obtain ⟨rfl, rfl⟩ := hp.unique h
      rfl

end DenseMatrix

end GaussJordan
