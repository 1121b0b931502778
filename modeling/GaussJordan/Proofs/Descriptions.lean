import GaussJordan.Operation
import GaussJordan.Proofs.PrintedNumbers

namespace GaussJordan

/-- A character that is in neither of two lists shows where both end. -/
theorem append_cons_inj {c : Char} {xs ys rest rest' : List Char} (hx : c ∉ xs) (hy : c ∉ ys)
    (h : xs ++ c :: rest = ys ++ c :: rest') : xs = ys ∧ rest = rest' := by
  induction xs generalizing ys with
  | nil =>
    cases ys with
    | nil => exact ⟨rfl, (List.cons.inj h).2⟩
    | cons y ys =>
      obtain ⟨rfl, _⟩ := List.cons.inj h
      exact absurd List.mem_cons_self hy
  | cons x xs ih =>
    cases ys with
    | nil =>
      obtain ⟨rfl, _⟩ := List.cons.inj h
      exact absurd List.mem_cons_self hx
    | cons y ys =>
      obtain ⟨rfl, htail⟩ := List.cons.inj h
      obtain ⟨rfl, hrest⟩ := ih (fun hmem => hx (List.mem_cons_of_mem _ hmem))
        (fun hmem => hy (List.mem_cons_of_mem _ hmem)) htail
      exact ⟨rfl, hrest⟩

section Fields

variable {c : Char} {separator text text' rest rest' : String}

/-- A text ends where a separator begins with a character that the text does not hold. -/
theorem field_inj (hc : separator.toList.head? = some c) (htext : c ∉ text.toList)
    (htext' : c ∉ text'.toList) (h : text ++ (separator ++ rest) = text' ++ (separator ++ rest')) :
    text = text' ∧ rest = rest' := by
  obtain ⟨tail, hseparator⟩ := List.head?_eq_some_iff.mp hc
  have hchars := congrArg String.toList h
  simp only [String.toList_append, hseparator, List.cons_append] at hchars
  obtain ⟨hfield, hafter⟩ := append_cons_inj htext htext' hchars
  exact ⟨String.toList_inj.mp hfield,
    String.toList_inj.mp (List.append_cancel_left hafter)⟩

theorem head?_toList_append (h : text.toList.head? = some c) :
    (text ++ rest).toList.head? = some c := by
  rw [String.toList_append, List.head?_append, h, Option.some_or]

theorem notMem_repr (hc : c.isDigit = false) (n : Nat) : c ∉ n.repr.toList := by
  rw [Nat.repr_eq_ofList_toDigits, String.toList_ofList]
  intro hmem
  have hdigit := Nat.isDigit_of_mem_toDigits (by decide) (by decide) hmem
  rw [hc] at hdigit
  cases hdigit

/-- An index ends at the next character that is no digit. -/
theorem index_inj (hc : separator.toList.head? = some c) (hdigit : c.isDigit = false) {n n' : Nat}
    (h : n.repr ++ (separator ++ rest) = n'.repr ++ (separator ++ rest')) :
    n = n' ∧ rest = rest' := by
  obtain ⟨hindex, hrest⟩ := field_inj hc (notMem_repr hdigit n) (notMem_repr hdigit n') h
  exact ⟨Nat.repr_injective hindex, hrest⟩

/-- A row is shown by the number after its index. -/
theorem row_inj (hc : separator.toList.head? = some c) (hdigit : c.isDigit = false) {n n' : Nat}
    (h : (n + 1).repr ++ (separator ++ rest) = (n' + 1).repr ++ (separator ++ rest')) :
    n = n' ∧ rest = rest' := by
  obtain ⟨hindex, hrest⟩ := index_inj hc hdigit h
  exact ⟨Nat.succ.inj hindex, hrest⟩

end Fields

/-- The decimal places of the numbers in the descriptions of row operations. -/
def TraceStyle.places : TraceStyle → Nat
  | .inversion => 4
  | _ => 2

namespace Operation

section Kinds

variable {α : Type} {style : TraceStyle}

/-- The first character of a description. -/
def initial (style : TraceStyle) : Operation α → Char
  | .augment => 'C'
  | .swap _ _ => 'S'
  | .scale _ _ => 'N'
  | .eliminate _ _ _ => if style = .inversion then 'R' else 'E'
  | .assign _ _ _ => 't'

/-- Two operations that differ at most in rows, columns and numbers. -/
inductive SameKind : Operation α → Operation α → Prop where
  | augment : SameKind .augment .augment
  | swap (first second first' second' : Nat) : SameKind (.swap first second) (.swap first' second')
  | scale (row row' : Nat) (factor factor' : α) : SameKind (.scale row factor) (.scale row' factor')
  | eliminate (target source target' source' : Nat) (factor factor' : α) :
    SameKind (.eliminate target source factor) (.eliminate target' source' factor')
  | assign (row col row' col' : Nat) (value value' : α) :
    SameKind (.assign row col value) (.assign row' col' value')

theorem sameKind_of_initial {op op' : Operation α} (h : op.initial style = op'.initial style) :
    SameKind op op' := by
  cases op <;> cases op' <;> try constructor
  all_goals cases style <;> simp [initial] at h

end Kinds

section Wording

variable {α : Type} [Scalar α] {style : TraceStyle}

/-- An operation with the text of its number in place of the number. -/
def shown (style : TraceStyle) : Operation α → Operation String
  | .augment => .augment
  | .swap first second => .swap first second
  | .scale row factor => .scale row (Scalar.fixedText style.places factor)
  | .eliminate target source factor =>
    .eliminate target source (Scalar.fixedText style.places factor)
  | .assign row col value => .assign row col (Scalar.fixedText 4 value)

theorem describe_augment :
    (augment : Operation α).describe style = "Creating augmented matrix [A | I]:" := rfl

theorem describe_swap (first second : Nat) : (swap first second : Operation α).describe style =
    "Swapped Row " ++ ((first + 1).repr ++ (" with Row " ++ ((second + 1).repr ++ ":"))) := by
  simp only [← String.append_assoc]
  rfl

theorem describe_scale (h : style ≠ .inversion) (row : Nat) (factor : α) :
    (scale row factor).describe style = "Normalized Row " ++ ((row + 1).repr ++ (" (divided by " ++
      (Scalar.fixedText style.places factor ++ "):"))) := by
  simp only [← String.append_assoc]
  cases style with
  | inversion => exact absurd rfl h
  | reduction => rfl
  | transposition => rfl

theorem describe_scale_inversion (row : Nat) (factor : α) :
    (scale row factor).describe .inversion = "Normalize row " ++ ((row + 1).repr ++
      (" by dividing with pivot " ++ Scalar.fixedText TraceStyle.inversion.places factor)) := by
  simp only [← String.append_assoc]
  rfl

theorem describe_eliminate (h : style ≠ .inversion) (target source : Nat) (factor : α) :
    (eliminate target source factor).describe style = "Eliminated Row " ++ ((target + 1).repr ++
      (" using Row " ++ ((source + 1).repr ++ (" (multiplied by " ++
        (Scalar.fixedText style.places factor ++ "):"))))) := by
  simp only [← String.append_assoc]
  cases style with
  | inversion => exact absurd rfl h
  | reduction => rfl
  | transposition => rfl

theorem describe_eliminate_inversion (target source : Nat) (factor : α) :
    (eliminate target source factor).describe .inversion = "Row " ++ ((target + 1).repr ++
      (" = Row " ++ ((target + 1).repr ++ (" – " ++
        (Scalar.fixedText TraceStyle.inversion.places factor ++
          (" × Row " ++ (source + 1).repr)))))) := by
  simp only [← String.append_assoc]
  rfl

theorem describe_assign (row col : Nat) (value : α) : (assign row col value).describe style =
    "t[" ++ (row.repr ++ ("," ++ (col.repr ++ ("] = matrix[" ++ (col.repr ++ ("," ++ (row.repr ++
      ("] → " ++ Scalar.fixedText 4 value)))))))) := by
  simp only [← String.append_assoc]
  rfl

theorem head?_describe (style : TraceStyle) (op : Operation α) :
    (op.describe style).toList.head? = some (op.initial style) := by
  cases op with
  | augment =>
    rw [describe_augment]
    rfl
  | swap =>
    rw [describe_swap]
    exact head?_toList_append rfl
  | scale =>
    rcases eq_or_ne style .inversion with rfl | h
    · rw [describe_scale_inversion]
      exact head?_toList_append rfl
    · rw [describe_scale h]
      exact head?_toList_append rfl
  | eliminate =>
    rcases eq_or_ne style .inversion with rfl | h
    · rw [describe_eliminate_inversion]
      exact head?_toList_append rfl
    · rw [describe_eliminate h, initial, if_neg h]
      exact head?_toList_append rfl
  | assign =>
    rw [describe_assign]
    exact head?_toList_append rfl

theorem initial_shown (op : Operation α) : (op.shown style).initial style = op.initial style := by
  cases op <;> rfl

end Wording

variable {style : TraceStyle}

theorem notMem_fixedText (places : Nat) (x : Float) : ' ' ∉ (Scalar.fixedText places x).toList :=
  fun hmem => absurd (Binary64.not_isBlank_of_mem_fixedText hmem) (by decide)

theorem swap_inj_of_describe {first second first' second' : Nat}
    (h : (swap first second : Operation Float).describe style =
      (swap first' second' : Operation Float).describe style) :
    first = first' ∧ second = second' := by
  rw [describe_swap, describe_swap, String.append_right_inj] at h
  obtain ⟨hfirst, h⟩ := row_inj rfl rfl h
  rw [String.append_left_inj] at h
  exact ⟨hfirst, Nat.succ.inj (Nat.repr_injective h)⟩

theorem scale_inj_of_describe {row row' : Nat} {factor factor' : Float}
    (h : (scale row factor).describe style = (scale row' factor').describe style) :
    row = row' ∧ Scalar.fixedText style.places factor = Scalar.fixedText style.places factor' := by
  rcases eq_or_ne style .inversion with rfl | hstyle
  · rw [describe_scale_inversion, describe_scale_inversion, String.append_right_inj] at h
    exact row_inj rfl rfl h
  · rw [describe_scale hstyle, describe_scale hstyle, String.append_right_inj] at h
    obtain ⟨hrow, h⟩ := row_inj rfl rfl h
    exact ⟨hrow, (String.append_left_inj _).mp h⟩

theorem eliminate_inj_of_describe {target source target' source' : Nat} {factor factor' : Float}
    (h : (eliminate target source factor).describe style =
      (eliminate target' source' factor').describe style) :
    target = target' ∧ source = source' ∧
      Scalar.fixedText style.places factor = Scalar.fixedText style.places factor' := by
  rcases eq_or_ne style .inversion with rfl | hstyle
  · rw [describe_eliminate_inversion, describe_eliminate_inversion, String.append_right_inj] at h
    obtain ⟨htarget, h⟩ := row_inj rfl rfl h
    -- the target is repeated
    obtain ⟨_, h⟩ := row_inj rfl rfl h
    obtain ⟨hfactor, hsource⟩ := field_inj rfl (notMem_fixedText _ _) (notMem_fixedText _ _) h
    exact ⟨htarget, Nat.succ.inj (Nat.repr_injective hsource), hfactor⟩
  · rw [describe_eliminate hstyle, describe_eliminate hstyle, String.append_right_inj] at h
    obtain ⟨htarget, h⟩ := row_inj rfl rfl h
    obtain ⟨hsource, h⟩ := row_inj rfl rfl h
    exact ⟨htarget, hsource, (String.append_left_inj _).mp h⟩

theorem assign_inj_of_describe {row col row' col' : Nat} {value value' : Float}
    (h : (assign row col value).describe style = (assign row' col' value').describe style) :
    row = row' ∧ col = col' ∧ Scalar.fixedText 4 value = Scalar.fixedText 4 value' := by
  rw [describe_assign, describe_assign, String.append_right_inj] at h
  obtain ⟨hrow, h⟩ := index_inj rfl rfl h
  obtain ⟨hcol, h⟩ := index_inj rfl rfl h
  -- both indices stand there once more, in the other order
  obtain ⟨_, h⟩ := index_inj rfl rfl h
  obtain ⟨_, h⟩ := index_inj rfl rfl h
  exact ⟨hrow, hcol, h⟩

theorem sameKind_of_describe {op op' : Operation Float}
    (h : op.describe style = op'.describe style) : SameKind op op' := by
  have hhead := head?_describe style op
  rw [h, head?_describe] at hhead
  exact sameKind_of_initial (Option.some.inj hhead).symm

theorem sameKind_of_shown {op op' : Operation Float} (h : op.shown style = op'.shown style) :
    SameKind op op' := by
  have hinitial : (op.shown style).initial style = op.initial style := initial_shown op
  rw [h, initial_shown] at hinitial
  exact sameKind_of_initial hinitial.symm

theorem shown_eq_of_describe {op op' : Operation Float}
    (h : op.describe style = op'.describe style) : op.shown style = op'.shown style := by
  cases sameKind_of_describe h with
  | augment => rfl
  | swap =>
    obtain ⟨rfl, rfl⟩ := swap_inj_of_describe h
    rfl
  | scale =>
    obtain ⟨rfl, hfactor⟩ := scale_inj_of_describe h
    rw [shown, shown, hfactor]
  | eliminate =>
    obtain ⟨rfl, rfl, hfactor⟩ := eliminate_inj_of_describe h
    rw [shown, shown, hfactor]
  | assign =>
    obtain ⟨rfl, rfl, hvalue⟩ := assign_inj_of_describe h
    rw [shown, shown, hvalue]

theorem describe_eq_of_shown {op op' : Operation Float} (h : op.shown style = op'.shown style) :
    op.describe style = op'.describe style := by
  cases sameKind_of_shown h with
  | augment => rfl
  | swap =>
    obtain ⟨rfl, rfl⟩ := swap.inj h
    rfl
  | scale =>
    obtain ⟨rfl, hfactor⟩ := scale.inj h
    rcases eq_or_ne style .inversion with rfl | hstyle
    · rw [describe_scale_inversion, describe_scale_inversion, hfactor]
    · rw [describe_scale hstyle, describe_scale hstyle, hfactor]
  | eliminate =>
    obtain ⟨rfl, rfl, hfactor⟩ := eliminate.inj h
    rcases eq_or_ne style .inversion with rfl | hstyle
    · rw [describe_eliminate_inversion, describe_eliminate_inversion, hfactor]
    · rw [describe_eliminate hstyle, describe_eliminate hstyle, hfactor]
  | assign =>
    obtain ⟨rfl, rfl, hvalue⟩ := assign.inj h
    rw [describe_assign, describe_assign, hvalue]

/-- A description tells the operation, its rows and columns, and its number as far as the decimal
places go. -/
theorem describe_eq_iff (style : TraceStyle) (op op' : Operation Float) :
    op.describe style = op'.describe style ↔ op.shown style = op'.shown style :=
  ⟨shown_eq_of_describe, describe_eq_of_shown⟩

end Operation

end GaussJordan
