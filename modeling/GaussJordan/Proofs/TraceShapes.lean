import GaussJordan.Proofs.ReductionRun

namespace GaussJordan

variable {α : Type} [Scalar α] {tolerance : α} {rows cols : Nat}

/-- A trace whose steps are described in its style and have matrices of one shape. -/
structure TraceLog.Shows (rows cols : Nat) (log : TraceLog α) : Prop where
  description_eq : ∀ step ∈ log.steps.toList,
    step.description = step.operation.describe log.style
  shape : ∀ step ∈ log.steps.toList, step.snapshot.HasShape rows cols

theorem TraceLog.shows_empty (style : TraceStyle) :
    (TraceLog.empty style : TraceLog α).Shows rows cols :=
  ⟨by simp [empty], by simp [empty]⟩

namespace Worksheet

variable {w w' : Worksheet α}

theorem steps_of_perform {op : Operation α} (h : w.perform op = .ok w') :
    w'.log.style = w.log.style ∧ w'.log.steps.toList =
      w.log.steps.toList ++ [⟨op, w'.state, op.describe w.log.style⟩] := by
  rw [(perform_ok h).2]
  exact ⟨rfl, Array.toList_push⟩

theorem perform_shows {op : Operation α} (h : w.perform op = .ok w')
    (hlog : w.log.Shows rows cols) (hstate : w'.state.HasShape rows cols) :
    w'.log.Shows rows cols := by
  obtain ⟨hstyle, hsteps⟩ := steps_of_perform h
  constructor
  · rw [hsteps, hstyle]
    exact List.forall_mem_append.mpr ⟨hlog.description_eq, by simp⟩
  · rw [hsteps]
    exact List.forall_mem_append.mpr ⟨hlog.shape, by simpa using hstate⟩

/-- A derivation without augmentations stays in the shape that it starts with. -/
theorem performAll_shows {ops : List (Operation α)} (hops : ∀ op ∈ ops, op ≠ .augment)
    (hstate : w.state.HasShape rows cols) (hlog : w.log.Shows rows cols)
    (h : w.performAll ops = .ok w') : w'.state.HasShape rows cols ∧ w'.log.Shows rows cols := by
  refine performAll_invariant (P := fun v => v.state.HasShape rows cols ∧ v.log.Shows rows cols) ?_
    ⟨hstate, hlog⟩ h
  rintro op hop u v ⟨hu, hseen⟩ hperform
  have hv := (Operation.apply_keepsShape (hops op hop) (perform_ok hperform).1).hasShape hu
  exact ⟨hv, perform_shows hperform hseen hv⟩

end Worksheet

theorem DenseMatrix.ne_augment_of_mem_pivoting {m : DenseMatrix α} {row found col : Nat}
    {op : Operation α} (h : op ∈ m.pivoting row found col) : op ≠ .augment := by
  rcases mem_pivoting_cases h with rfl | rfl | ⟨k, _, _, rfl⟩
  · nofun
  · nofun
  · nofun

/-- All that a run records is of the shape that it starts with. -/
theorem PivotReach.shows {first w : Worksheet α} {answers : List (Nat × Nat)}
    (hfirst : first.state.HasShape rows cols) (hlog : first.log.Shows rows cols)
    (reach : PivotReach tolerance first answers w) :
    w.state.HasShape rows cols ∧ w.log.Shows rows cols := by
  obtain ⟨_, ops, hall, hops⟩ := reach.invariant hfirst.wellFormed
    (P := fun _ _ ops => ∀ op ∈ ops, op ≠ .augment) (by simp)
    (fun _ _ _ _ _ hops => List.forall_mem_append.mpr
      ⟨hops, fun _ => DenseMatrix.ne_augment_of_mem_pivoting⟩)
  exact Worksheet.performAll_shows hops hfirst hlog hall

end GaussJordan
