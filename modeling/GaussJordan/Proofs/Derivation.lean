import GaussJordan.Proofs.Shapes
import GaussJordan.Worksheet

namespace GaussJordan

variable {α : Type}

/-- What every step of a loop keeps holds at the end of a loop that meets no fault. -/
theorem foldlM_invariant {β γ : Type} {P : β → Prop} {step : β → γ → Except Fault β} {cs : List γ}
    (keep : ∀ c ∈ cs, ∀ b b', P b → step b c = .ok b' → P b') {b b' : β} (hb : P b)
    (h : cs.foldlM step b = .ok b') : P b' := by
  induction cs generalizing b with
  | nil =>
    cases h
    exact hb
  | cons c cs ih =>
    rw [List.foldlM_cons] at h
    obtain ⟨next, hnext, hrest⟩ := exists_of_bind_ok h
    exact ih (fun d hd => keep d (List.mem_cons_of_mem c hd))
      (keep c List.mem_cons_self b next hb hnext) hrest

def TraceLog.operations (log : TraceLog α) : List (Operation α) :=
  log.steps.toList.map Step.operation

def TraceLog.snapshots (log : TraceLog α) : List (DenseMatrix α) :=
  log.steps.toList.map Step.snapshot

theorem Operation.apply_wellFormed [Scalar α] {op : Operation α} {m n : DenseMatrix α}
    (hm : m.WellFormed) (h : op.apply m = .ok n) : n.WellFormed := by
  by_cases hop : op = .augment
  · cases hop
    cases h
    exact DenseMatrix.generate_wellFormed _ _ _
  · exact (apply_keepsShape hop h).wellFormed hm

namespace Worksheet

variable [Scalar α] {w w' : Worksheet α}

def performAll (ops : List (Operation α)) (w : Worksheet α) : Except Fault (Worksheet α) :=
  ops.foldlM perform w

theorem perform_of_apply {op : Operation α} {next : DenseMatrix α}
    (h : op.apply w.state = .ok next) :
    w.perform op = .ok ⟨next, w.log.record op next,
      w.journal.push (.step w.log.style op (op.describe w.log.style))⟩ := by
  simp only [perform, h]
  rfl

theorem perform_ok {op : Operation α} (h : w.perform op = .ok w') :
    op.apply w.state = .ok w'.state ∧ w'.log = w.log.record op w'.state := by
  obtain ⟨next, ha, _⟩ := exists_of_bind_ok h
  rw [perform_of_apply ha] at h
  cases h
  exact ⟨ha, rfl⟩

theorem operations_record (log : TraceLog α) (op : Operation α) (m : DenseMatrix α) :
    (log.record op m).operations = log.operations ++ [op] := by
  simp [TraceLog.operations, TraceLog.record]

theorem snapshots_record (log : TraceLog α) (op : Operation α) (m : DenseMatrix α) :
    (log.record op m).snapshots = log.snapshots ++ [m] := by
  simp [TraceLog.snapshots, TraceLog.record]

theorem performAll_cons_ok {op : Operation α} {ops : List (Operation α)}
    (h : w.performAll (op :: ops) = .ok w') :
    ∃ v, w.perform op = .ok v ∧ v.performAll ops = .ok w' := by
  rw [performAll, List.foldlM_cons] at h
  exact exists_of_bind_ok h

/-- A derivation is recorded operation by operation. -/
theorem operations_of_performAll {ops : List (Operation α)} (h : w.performAll ops = .ok w') :
    w'.log.operations = w.log.operations ++ ops := by
  induction ops generalizing w with
  | nil =>
    cases h
    simp
  | cons op ops ih =>
    obtain ⟨v, hv, hrest⟩ := performAll_cons_ok h
    rw [ih hrest, (perform_ok hv).2, operations_record, List.append_assoc]
    rfl

/-- From one matrix, the same operations lead to the same matrices, whatever was recorded before. -/
theorem performAll_alike {ops : List (Operation α)} {v v' : Worksheet α}
    (hstate : v.state = w.state) (h : w.performAll ops = .ok w') (h' : v.performAll ops = .ok v') :
    v'.state = w'.state ∧ ∃ snapshots, w'.log.snapshots = w.log.snapshots ++ snapshots ∧
      v'.log.snapshots = v.log.snapshots ++ snapshots := by
  induction ops generalizing w v with
  | nil =>
    cases h
    cases h'
    exact ⟨hstate, [], by simp, by simp⟩
  | cons op ops ih =>
    obtain ⟨u, hu, hrest⟩ := performAll_cons_ok h
    obtain ⟨u', hu', hrest'⟩ := performAll_cons_ok h'
    obtain ⟨happly, hlog⟩ := perform_ok hu
    obtain ⟨happly', hlog'⟩ := perform_ok hu'
    have hnext : u'.state = u.state := by
      rw [hstate, happly] at happly'
      exact (Except.ok.inj happly').symm
    obtain ⟨hlast, snapshots, hsnapshots, hsnapshots'⟩ := ih hnext hrest hrest'
    refine ⟨hlast, u.state :: snapshots, ?_, ?_⟩
    · rw [hsnapshots, hlog, snapshots_record, List.append_assoc]
      rfl
    · rw [hsnapshots', hlog', snapshots_record, List.append_assoc, hnext]
      rfl

theorem performAll_append_ok {ops more : List (Operation α)} {v : Worksheet α}
    (h : w.performAll ops = .ok v) (hmore : v.performAll more = .ok w') :
    w.performAll (ops ++ more) = .ok w' := by
  rw [performAll] at h
  rw [performAll, List.foldlM_append, h, bind_ok]
  exact hmore

theorem performAll_invariant {P : Worksheet α → Prop} {ops : List (Operation α)}
    (keep : ∀ op ∈ ops, ∀ u v, P u → u.perform op = .ok v → P v) (hw : P w)
    (h : w.performAll ops = .ok w') : P w' := foldlM_invariant keep hw h

/-- What every operation of a derivation keeps holds at its end and of all that it records. -/
theorem performAll_keeps {P : DenseMatrix α → Prop} {ops : List (Operation α)}
    (keep : ∀ op ∈ ops, ∀ m n, P m → op.apply m = .ok n → P n) (hstate : P w.state)
    (hlog : ∀ m ∈ w.log.snapshots, P m) (h : w.performAll ops = .ok w') :
    P w'.state ∧ ∀ m ∈ w'.log.snapshots, P m := by
  refine performAll_invariant (P := fun v => P v.state ∧ ∀ m ∈ v.log.snapshots, P m) ?_
    ⟨hstate, hlog⟩ h
  rintro op hop u v ⟨hu, hseen⟩ hperform
  obtain ⟨happly, hrecord⟩ := perform_ok hperform
  have hv := keep op hop _ _ hu happly
  refine ⟨hv, fun m hm => ?_⟩
  rw [hrecord, snapshots_record, List.mem_append, List.mem_singleton] at hm
  rcases hm with hm | rfl
  · exact hseen m hm
  · exact hv

theorem last?_of_performAll {ops : List (Operation α)}
    (hlast : w.log.last?.map Step.snapshot = some w.state) (h : w.performAll ops = .ok w') :
    w'.log.last?.map Step.snapshot = some w'.state := by
  refine performAll_invariant (P := fun v => v.log.last?.map Step.snapshot = some v.state) ?_
    hlast h
  intro op _ u v _ hperform
  rw [(perform_ok hperform).2]
  simp [TraceLog.record, TraceLog.last?]

end Worksheet

end GaussJordan
