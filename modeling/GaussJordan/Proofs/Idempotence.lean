import GaussJordan.Proofs.ExactReduction

namespace GaussJordan

/-- A step that leaves every matrix as it is. -/
def Operation.IsIdle (op : Operation ℚ) : Prop :=
  (∃ row, op = .scale row 1) ∨ ∃ target source, op = .eliminate target source 0

namespace DenseMatrix

variable {tolerance : ℚ} {m : DenseMatrix ℚ} {pivots : List Nat} {i q : Nat}

theorem UnitColumns.pivoted_self (h : m.UnitColumns pivots) (hm : m.WellFormed)
    (hq : pivots[i]? = some q) : m.pivoted i i q = m := by
  have hi := h.lt_rows hq
  have hqc := h.lt_cols_of_get hq
  refine ext_entry (pivoted_wellFormed _ _ _) hm rfl rfl fun r c hr hc => ?_
  rw [pivoted_rows] at hr
  rw [pivoted_cols] at hc
  have hone : m.entry i q = 1 := by rw [h.unit i q hq i hi, if_pos rfl]
  rw [entry_pivoted hr hc hi hqc, hone, div_one]
  split
  next heq => rw [heq]
  next hne => rw [h.unit i q hq r hr, if_neg hne, zero_mul, sub_zero]

theorem UnitColumns.pivoting_isIdle (h : m.UnitColumns pivots) (hm : m.WellFormed)
    (hq : pivots[i]? = some q) : ∀ op ∈ m.pivoting i i q, op.IsIdle := by
  have hi := h.lt_rows hq
  intro op hop
  simp only [pivoting, if_pos, List.nil_append, exchanged_self hm, clearing, List.mem_cons,
    List.mem_map] at hop
  rcases hop with rfl | ⟨k, hk, rfl⟩
  · exact .inl ⟨i, by rw [h.unit i q hq i hi, if_pos rfl]⟩
  · obtain ⟨hkr, hne⟩ := mem_otherRows.mp hk
    exact .inr ⟨k, i, by rw [h.unit i q hq k hkr, if_neg hne]⟩

/-- Where nothing is left of the pivots, the next unit column is where the search stops. -/
theorem UnitColumns.firstPivot (h : m.UnitColumns pivots) (hs : m.NoStray tolerance pivots)
    (ht : tolerance < 1) (hq : pivots[i]? = some q) {lead : Nat} (hlead : lead ≤ q) :
    m.FirstPivot tolerance i lead i q where
  row_le := Nat.le_refl i
  lt_rows := h.lt_rows hq
  lead_le := hlead
  lt_cols := h.lt_cols_of_get hq
  usable := h.usable ht hq
  above k hk hlt := by omega
  skipped k c hk hkr _ hcq := by
    have hqc := h.lt_cols_of_get hq
    refine hs k c hkr (by omega) fun p hp => ?_
    rcases Nat.eq_or_lt_of_le hk with rfl | hik
    · rw [hq] at hp
      cases hp
      exact hcq
    · obtain ⟨hi, hiq⟩ := List.getElem?_eq_some_iff.mp hq
      obtain ⟨hkl, hkp⟩ := List.getElem?_eq_some_iff.mp hp
      have := List.pairwise_iff_getElem.mp h.sorted i k hi hkl hik
      omega

end DenseMatrix

/-- On a matrix whose cells outside the unit columns count as zero a run finds the unit columns
again, and no step changes anything. -/
theorem PivotReach.idle {tolerance : ℚ} {first w : Worksheet ℚ} {answers : List (Nat × Nat)}
    {pivots : List Nat} (hfirst : first.state.WellFormed)
    (hu : first.state.UnitColumns pivots) (hs : first.state.NoStray tolerance pivots)
    (ht : 0 ≤ tolerance) (ht' : pivots ≠ [] → tolerance < 1)
    (reach : PivotReach tolerance first answers w) : w.state = first.state ∧ ∃ ops,
      w.log.operations = first.log.operations ++ ops ∧ ∀ op ∈ ops, op.IsIdle := by
  obtain ⟨_, ops, hall, _, hstate, hidle⟩ := reach.exact_invariant ht hfirst
    (P := fun answers m ops => pivotColumns answers <+: pivots ∧ m = first.state ∧
      ∀ op ∈ ops, op.IsIdle)
    ⟨List.nil_prefix, rfl, by simp⟩
    (by
      rintro answers m ops found col hm _ _ _ room hp ⟨⟨rest, hrest⟩, rfl, hidle⟩
      have hlen := length_pivotColumns answers
      cases rest with
      | nil =>
        rw [List.append_nil] at hrest
        have hz := hs.row_isZero hp.lt_rows hp.lt_cols (by rw [← hrest, hlen]; exact hp.row_le)
        rw [hp.usable] at hz
        cases hz
      | cons q rest =>
        obtain ⟨hq, hbefore⟩ := hu.next_of_append hrest
        rw [hlen] at hq
        have hlt := ht' (List.ne_nil_of_mem (List.mem_of_getElem? hq))
        obtain ⟨rfl, rfl⟩ := hp.unique (hu.firstPivot hs hlt hq (nextLead_le hbefore))
        refine ⟨⟨rest, by simpa using hrest⟩, hu.pivoted_self hm hq, ?_⟩
        intro op hop
        rcases List.mem_append.mp hop with hop | hop
        · exact hidle op hop
        · exact hu.pivoting_isIdle hm hq op hop)
  exact ⟨hstate, ops, Worksheet.operations_of_performAll hall, hidle⟩

namespace DenseMatrix

variable {tolerance : ℚ} {m : DenseMatrix ℚ} {pivots : List Nat}

theorem reduce_of_noStray (hm : m.WellFormed) (hu : m.UnitColumns pivots)
    (hs : m.NoStray tolerance pivots) (ht : 0 ≤ tolerance)
    (ht' : pivots ≠ [] → tolerance < 1) :
    ∃ w, m.reduce tolerance = .ok w ∧ w.state = m ∧ ∀ op ∈ w.log.operations, op.IsIdle := by
  obtain ⟨answers, w, hrun, reach, _⟩ := reduce_reach tolerance hm
  obtain ⟨hstate, ops, hops, hidle⟩ := reach.idle hm hu hs ht ht'
  refine ⟨_, hrun, hstate, fun op hop => hidle op ?_⟩
  change op ∈ w.log.operations at hop
  rw [hops] at hop
  exact hop

/-- Exact reduction is a projection onto the matrices that the check accepts, and it passes over
such a matrix without changing it. -/
theorem reduce_zero_projects (hm : m.WellFormed) :
    ∃ w, m.reduce 0 = .ok w ∧ w.state.isReduced 0 = true ∧
      (w.state = m ↔ m.isReduced 0 = true) ∧
      (m.isReduced 0 = true → ∀ op ∈ w.log.operations, op.IsIdle) := by
  obtain ⟨answers, w, hrun, reach, hs⟩ := reduce_reach (0 : ℚ) hm
  have hreduced : w.state.isReduced 0 = true := by
    have hu := (reach.pivotsTaken (le_refl 0) hm).toUnitColumns
    exact isReduced_iff.mpr ⟨_, hu.echelon (reach.noStray hm hs) (le_refl 0) fun _ => one_pos⟩
  have hfixed : m.isReduced 0 = true → w.state = m ∧ ∀ op ∈ w.log.operations, op.IsIdle := by
    intro h
    obtain ⟨leads, he⟩ := isReduced_iff.mp h
    obtain ⟨w', hrun', hstate, hidle⟩ :=
      reduce_of_noStray hm he.unitColumns he.noStray (le_refl 0) fun _ => one_pos
    rw [hrun] at hrun'
    cases hrun'
    exact ⟨hstate, hidle⟩
  refine ⟨_, hrun, hreduced, ⟨fun h => ?_, fun h => (hfixed h).1⟩, fun h => (hfixed h).2⟩
  change w.state = m at h
  rw [← h]
  exact hreduced

theorem reduce_zero_projects_unordered :
    (⟨2, 3, #[0, 2, 4, 1, 1, 3]⟩ : DenseMatrix ℚ).WellFormed ∧
    ∃ w, (⟨2, 3, #[0, 2, 4, 1, 1, 3]⟩ : DenseMatrix ℚ).reduce 0 = .ok w ∧
      w.state.isReduced 0 = true ∧
      (w.state = ⟨2, 3, #[0, 2, 4, 1, 1, 3]⟩ ↔
        (⟨2, 3, #[0, 2, 4, 1, 1, 3]⟩ : DenseMatrix ℚ).isReduced 0 = true) ∧
      ((⟨2, 3, #[0, 2, 4, 1, 1, 3]⟩ : DenseMatrix ℚ).isReduced 0 = true →
        ∀ op ∈ w.log.operations, op.IsIdle) := by
  have hm : (⟨2, 3, #[0, 2, 4, 1, 1, 3]⟩ : DenseMatrix ℚ).WellFormed := rfl
  exact ⟨hm, reduce_zero_projects hm⟩

end DenseMatrix

end GaussJordan
