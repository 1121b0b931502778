import GaussJordan.EchelonForm

namespace GaussJordan

theorem pairwise_lt_concat {xs : List Nat} (hs : xs.Pairwise (· < ·)) {c : Nat}
    (hlast : ∀ last, xs.getLast? = some last → last < c) : (xs ++ [c]).Pairwise (· < ·) := by
  refine List.pairwise_append.mpr ⟨hs, List.pairwise_singleton _ _, ?_⟩
  intro x hx y hy
  obtain rfl := List.mem_singleton.mp hy
  have hne : xs ≠ [] := List.ne_nil_of_mem hx
  obtain ⟨last, hl⟩ := Option.isSome_iff_exists.mp (List.getLast?_isSome.mpr hne)
  have hlt := hlast last hl
  obtain ⟨initial, rfl⟩ := List.getLast?_eq_some_iff.mp hl
  rcases List.mem_append.mp hx with hx | hx
  · have := (List.pairwise_append.mp hs).2.2 x hx last (List.mem_singleton.mpr rfl)
    omega
  · rw [List.mem_singleton.mp hx]
    exact hlt

theorem getElem?_concat_cases {β : Type} {xs : List β} {x y : β} {i : Nat}
    (h : (xs ++ [x])[i]? = some y) : xs[i]? = some y ∨ i = xs.length ∧ y = x := by
  obtain ⟨hi, hy⟩ := List.getElem?_eq_some_iff.mp h
  by_cases hlt : i < xs.length
  · rw [List.getElem?_append_left hlt] at h
    exact .inl h
  · rw [List.length_append, List.length_singleton] at hi
    obtain rfl : i = xs.length := by omega
    rw [List.getElem_concat_length rfl] at hy
    exact .inr ⟨rfl, hy.symm⟩

namespace DenseMatrix

variable {α : Type} [Scalar α] {tolerance : α} {m : DenseMatrix α}

def LeadsAt (tolerance : α) (m : DenseMatrix α) (row c : Nat) : Prop :=
  c < m.cols ∧ isSignificant tolerance (m.entry row c) = true ∧
    ∀ d, d < c → isSignificant tolerance (m.entry row d) = false

def IsBlankRow (tolerance : α) (m : DenseMatrix α) (row : Nat) : Prop :=
  ∀ c, c < m.cols → isSignificant tolerance (m.entry row c) = false

theorem leadColumn_eq_none_iff {row : Nat} :
    m.leadColumn tolerance row = none ↔ m.IsBlankRow tolerance row := by
  simp [leadColumn, IsBlankRow]

theorem leadColumn_eq_some_iff {row c : Nat} :
    m.leadColumn tolerance row = some c ↔ m.LeadsAt tolerance row c := by
  simp only [leadColumn, LeadsAt, List.find?_range_eq_some, Bool.not_eq_true', List.mem_range]
  constructor
  · rintro ⟨hs, hc, hd⟩
    exact ⟨hc, hs, hd⟩
  · rintro ⟨hc, hs, hd⟩
    exact ⟨hs, hc, hd⟩

theorem LeadsAt.unique {row c d : Nat} (h : m.LeadsAt tolerance row c)
    (h' : m.LeadsAt tolerance row d) : c = d := by
  have hc := leadColumn_eq_some_iff.mpr h
  rw [leadColumn_eq_some_iff.mpr h'] at hc
  exact (Option.some.inj hc).symm

theorem LeadsAt.not_blank {row c : Nat} (h : m.LeadsAt tolerance row c) :
    ¬m.IsBlankRow tolerance row := by
  intro hb
  have hs := hb c h.1
  rw [h.2.1] at hs
  cases hs

theorem isPivot_iff {row lead : Nat} : m.isPivot tolerance row lead = true ↔
    isSignificant tolerance (m.entry row lead - 1) = false ∧
      ∀ r, r < m.rows → r ≠ row → isSignificant tolerance (m.entry r lead) = false := by
  simp only [isPivot, Bool.and_eq_true, Bool.not_eq_true', List.all_eq_true, List.mem_range,
    Bool.or_eq_true, beq_iff_eq]
  constructor
  · rintro ⟨hone, hall⟩
    exact ⟨hone, fun r hr hne => (hall r hr).resolve_left hne⟩
  · rintro ⟨hone, hall⟩
    refine ⟨hone, fun r hr => ?_⟩
    by_cases h : r = row
    · exact .inl h
    · exact .inr (hall r hr h)

/-- The rows from the top on have their leading cells in these columns, which move to the right;
each leading cell is one and alone in its column. -/
structure Leads (tolerance : α) (m : DenseMatrix α) (leads : List Nat) : Prop where
  length_le : leads.length ≤ m.rows
  sorted : leads.Pairwise (· < ·)
  leadsAt : ∀ i c, leads[i]? = some c → m.LeadsAt tolerance i c
  one : ∀ i c, leads[i]? = some c → isSignificant tolerance (m.entry i c - 1) = false
  alone : ∀ i c, leads[i]? = some c → ∀ r, r < m.rows → r ≠ i →
    isSignificant tolerance (m.entry r c) = false

/-- Reduced row echelon form up to the tolerance, with the leading cells in the given columns. -/
structure Echelon (tolerance : α) (m : DenseMatrix α) (leads : List Nat) : Prop
    extends Leads tolerance m leads where
  blank : ∀ r, leads.length ≤ r → r < m.rows → m.IsBlankRow tolerance r

theorem Leads.initial {leads more : List Nat} (h : m.Leads tolerance (leads ++ more)) :
    m.Leads tolerance leads := by
  have get : ∀ (i : Nat) c, leads[i]? = some c → (leads ++ more)[i]? = some c := by
    intro i c hi
    obtain ⟨hlt, _⟩ := List.getElem?_eq_some_iff.mp hi
    rw [List.getElem?_append_left hlt, hi]
  have hl := h.length_le
  rw [List.length_append] at hl
  exact {
    length_le := by omega
    sorted := (List.pairwise_append.mp h.sorted).1
    leadsAt := fun i c hi => h.leadsAt i c (get i c hi)
    one := fun i c hi => h.one i c (get i c hi)
    alone := fun i c hi => h.alone i c (get i c hi) }

theorem Leads.concat {leads : List Nat} (h : m.Leads tolerance leads)
    (room : leads.length < m.rows) {c : Nat} (hlead : m.LeadsAt tolerance leads.length c)
    (hpivot : m.isPivot tolerance leads.length c = true)
    (hlast : ∀ last, leads.getLast? = some last → last < c) :
    m.Leads tolerance (leads ++ [c]) := by
  obtain ⟨hone, halone⟩ := isPivot_iff.mp hpivot
  refine ⟨?_, pairwise_lt_concat h.sorted hlast, ?_, ?_, ?_⟩
  · rw [List.length_append, List.length_singleton]
    omega
  · intro i d hi
    rcases getElem?_concat_cases hi with hi | ⟨rfl, rfl⟩
    · exact h.leadsAt i d hi
    · exact hlead
  · intro i d hi
    rcases getElem?_concat_cases hi with hi | ⟨rfl, rfl⟩
    · exact h.one i d hi
    · exact hone
  · intro i d hi
    rcases getElem?_concat_cases hi with hi | ⟨rfl, rfl⟩
    · exact h.alone i d hi
    · exact halone

theorem isReducedFrom_iff {leads : List Nat} {left : Nat} (h : m.Leads tolerance leads)
    (hl : leads.length + left = m.rows) :
    m.isReducedFrom tolerance leads.getLast? leads.length left = true ↔
      ∃ more, m.Echelon tolerance (leads ++ more) := by
  induction left generalizing leads with
  | zero =>
    have hall : m.Echelon tolerance (leads ++ []) := by
      rw [List.append_nil]
      exact { h with blank := fun r hle hlt => by omega }
    exact ⟨fun _ => ⟨[], hall⟩, fun _ => rfl⟩
  | succ left ih =>
    have room : leads.length < m.rows := by omega
    rw [isReducedFrom]
    cases hlead : m.leadColumn tolerance leads.length with
    | none =>
      have hb := leadColumn_eq_none_iff.mp hlead
      simp only [List.all_eq_true, List.mem_range, Option.isNone_iff_eq_none,
        leadColumn_eq_none_iff]
      constructor
      · intro hrest
        refine ⟨[], ?_⟩
        rw [List.append_nil]
        refine { h with blank := fun r hle hlt => ?_ }
        rcases Nat.eq_or_lt_of_le hle with rfl | hgt
        · exact hb
        · have hr := hrest (r - (leads.length + 1)) (by omega)
          rwa [Nat.add_sub_cancel' hgt] at hr
      · rintro ⟨more, hm⟩ k hk
        cases more with
        | nil => exact hm.blank _ (by rw [List.append_nil]; omega) (by omega)
        | cons c more => exact absurd hb (hm.leadsAt leads.length c (by simp)).not_blank
    | some c =>
      have hc := leadColumn_eq_some_iff.mp hlead
      simp only [Bool.and_eq_true, Option.all_eq_true, decide_eq_true_eq]
      constructor
      · rintro ⟨⟨hlast, hpivot⟩, hrest⟩
        have hmore := h.concat room hc hpivot hlast
        have hlen : (leads ++ [c]).length + left = m.rows := by
          rw [List.length_append, List.length_singleton]
          omega
        obtain ⟨more, hm⟩ := (ih hmore hlen).mp (by simpa using hrest)
        exact ⟨c :: more, by simpa using hm⟩
      · rintro ⟨more, hm⟩
        cases more with
        | nil => exact absurd (hm.blank leads.length (by simp) room) hc.not_blank
        | cons d more =>
          have hget : (leads ++ d :: more)[leads.length]? = some d := by simp
          obtain rfl : c = d := hc.unique (hm.leadsAt _ _ hget)
          have happend : leads ++ c :: more = leads ++ [c] ++ more := by simp
          have hmore : m.Leads tolerance (leads ++ [c]) := by
            have hm' := hm.toLeads
            rw [happend] at hm'
            exact hm'.initial
          have hlen : (leads ++ [c]).length + left = m.rows := by
            rw [List.length_append, List.length_singleton]
            omega
          refine ⟨⟨?_, isPivot_iff.mpr ⟨hm.one _ _ hget, hm.alone _ _ hget⟩⟩, ?_⟩
          · intro last hlast
            exact (List.pairwise_append.mp hmore.sorted).2.2 last (List.mem_of_getLast? hlast) c
              (List.mem_singleton.mpr rfl)
          · have hrest := (ih hmore hlen).mpr ⟨more, by rwa [happend] at hm⟩
            simpa using hrest

/-- The check accepts exactly the matrices in reduced row echelon form. -/
theorem isReduced_iff : m.isReduced tolerance = true ↔ ∃ leads, m.Echelon tolerance leads := by
  have hnil : m.Leads tolerance [] := by
    refine ⟨Nat.zero_le _, List.Pairwise.nil, ?_, ?_, ?_⟩ <;> simp
  exact isReducedFrom_iff hnil (Nat.zero_add m.rows)

theorem echelon_map_range_iff {p : Nat} {column : Nat → Nat} :
    m.Echelon tolerance ((List.range p).map column) ↔ p ≤ m.rows ∧
      (∀ i j, i < j → j < p → column i < column j) ∧
      (∀ i, i < p → m.LeadsAt tolerance i (column i) ∧
        m.isPivot tolerance i (column i) = true) ∧
      ∀ r, p ≤ r → r < m.rows → m.IsBlankRow tolerance r := by
  have hlen : ((List.range p).map column).length = p := by simp
  have hget : ∀ {i}, i < p → ((List.range p).map column)[i]? = some (column i) := fun hi => by
    simp [hi]
  constructor
  · intro h
    refine ⟨hlen ▸ h.length_le, fun i j hij hj => ?_, fun i hi => ⟨h.leadsAt i _ (hget hi), ?_⟩,
      hlen ▸ h.blank⟩
    · have hi' : i < ((List.range p).map column).length := by omega
      have hj' : j < ((List.range p).map column).length := by omega
      simpa using List.pairwise_iff_getElem.mp h.sorted i j hi' hj' hij
    · exact isPivot_iff.mpr ⟨h.one i _ (hget hi), h.alone i _ (hget hi)⟩
  · rintro ⟨hp, hsorted, hpivot, hblank⟩
    have hlead : ∀ {i c}, ((List.range p).map column)[i]? = some c →
        m.LeadsAt tolerance i c ∧ m.isPivot tolerance i c = true := by
      intro i c hi
      obtain ⟨hlt, rfl⟩ := List.getElem?_eq_some_iff.mp hi
      simpa using hpivot i (hlen ▸ hlt)
    refine ⟨⟨hlen.symm ▸ hp, ?_, fun i c hi => (hlead hi).1,
      fun i c hi => (isPivot_iff.mp (hlead hi).2).1,
      fun i c hi => (isPivot_iff.mp (hlead hi).2).2⟩, hlen.symm ▸ hblank⟩
    refine List.pairwise_iff_getElem.mpr fun i j _ hj hij => ?_
    simpa using hsorted i j hij (hlen ▸ hj)

/-- A matrix passes the check just when there are `p` columns, further and further to the right,
such that in each of the first `p` rows the cell in its column is significant but not so when one
is subtracted, no cell before it in the row and none above or below it in the column is
significant, and no cell of the other rows is. -/
theorem isReduced_iff_exists_columns (tolerance : α) (m : DenseMatrix α) :
    m.isReduced tolerance = true ↔ ∃ (p : Nat) (column : Nat → Nat), p ≤ m.rows ∧
      (∀ i j, i < j → j < p → column i < column j) ∧
      (∀ i, i < p → column i < m.cols ∧
        (∀ c, c < column i → isSignificant tolerance (m.entry i c) = false) ∧
        isSignificant tolerance (m.entry i (column i)) = true ∧
        isSignificant tolerance (m.entry i (column i) - 1) = false ∧
        ∀ r, r < m.rows → r ≠ i → isSignificant tolerance (m.entry r (column i)) = false) ∧
      ∀ r c, p ≤ r → r < m.rows → c < m.cols →
        isSignificant tolerance (m.entry r c) = false := by
  rw [isReduced_iff]
  constructor
  · rintro ⟨leads, h⟩
    have hleads : leads = (List.range leads.length).map fun i => leads.getD i 0 :=
      List.ext_getElem (by simp) fun i hi _ => by simp [hi]
    rw [hleads] at h
    obtain ⟨hp, hsorted, hpivot, hblank⟩ := echelon_map_range_iff.mp h
    refine ⟨_, _, hp, hsorted, fun i hi => ?_, fun r c hle hr => hblank r hle hr c⟩
    obtain ⟨⟨hcol, hsignificant, hbefore⟩, hpivot⟩ := hpivot i hi
    exact ⟨hcol, hbefore, hsignificant, isPivot_iff.mp hpivot⟩
  · rintro ⟨p, column, hp, hsorted, hpivot, hblank⟩
    refine ⟨_, echelon_map_range_iff.mpr ⟨hp, hsorted, fun i hi => ?_,
      fun r hle hr c => hblank r c hle hr⟩⟩
    obtain ⟨hcol, hbefore, hsignificant, hpivot⟩ := hpivot i hi
    exact ⟨⟨hcol, hsignificant, hbefore⟩, isPivot_iff.mpr hpivot⟩

/-- A number that is not ordered is not significant, and a row of such numbers is a blank one. -/
example : (⟨2, 2, #[1, 0.0 / 0.0, 0.0 / 0.0, 0.0 / 0.0]⟩ : DenseMatrix Float).isReduced 1e-10 := by
  decide +kernel

end DenseMatrix

end GaussJordan
