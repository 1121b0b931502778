import GaussJordan.Proofs.ColumnCuts
import GaussJordan.Proofs.TaskOrder

namespace GaussJordan

/-- A change of the cells of a matrix. -/
inductive Change where
  | write (row col : Nat) (x : Float)
  | swapRows (a b : Nat)
  | scaleRow (target : Nat) (divisor : Float)
  | subtractScaledRow (target source : Nat) (factor : Float)

def Change.apply (arith : IndexArithmetic) (m : DenseMatrix Float) :
    Change → Except Fault (DenseMatrix Float)
  | .write row col x => m.write arith row col x
  | .swapRows a b => m.flatSwapRows arith a b
  | .scaleRow target divisor => m.flatScaleRow arith target divisor
  | .subtractScaledRow target source factor => m.flatSubtractScaledRow arith target source factor

/-- Where a new matrix comes from: from given data, or from matrices of a store. The numbers of a
random matrix are drawn by a given function, and the tasks of a product are run in a given order. -/
inductive Source where
  | ofRows (rows : List (List Float))
  | ofCells (rows cols : Nat) (cells : Array Float)
  | zeros (rows cols : Nat)
  | identity (n : Nat)
  | random (rows cols : Nat) (draw : Float → Float → Nat → Float)
  | transpose (place : Nat)
  | augmentIdentity (place : Nat)
  | columns (place first last : Nat)
  | mul (left right : Nat) (order : List Nat)

/-- All matrices that have been made, in order. -/
abbrev Store := List (DenseMatrix Float)

/-- The matrix from a source, or why there is none. A source that meets a fault gives nothing. -/
def Source.build (arith : IndexArithmetic) (store : Store) :
    Source → Option (Except ShapeError (DenseMatrix Float))
  | .ofRows rows => (DenseMatrix.flatOfRows arith rows).toOption
  | .ofCells rows cols cells => (DenseMatrix.ofCells arith rows cols cells).toOption.map .ok
  | .zeros rows cols => (DenseMatrix.flatZeros arith rows cols).toOption.map .ok
  | .identity n => (DenseMatrix.flatIdentity arith n).toOption.map .ok
  | .random rows cols draw => (DenseMatrix.random arith rows cols draw).toOption.map .ok
  | .transpose place => store[place]?.bind fun m => (m.flatTranspose arith).toOption.map .ok
  | .augmentIdentity place =>
    store[place]?.bind fun m => (m.flatAugmentIdentity arith).toOption.map .ok
  | .columns place first last =>
    store[place]?.bind fun m => (m.columnsByCuts first last).toOption.map .ok
  | .mul left right order =>
    store[left]?.bind fun m => store[right]?.bind fun n => (m.flatMul arith order n).toOption

inductive Call where
  | change (place : Nat) (edit : Change)
  | make (source : Source)

/-- What a call that returns leaves in the store, and the error it returns. -/
def Call.run (arith : IndexArithmetic) (store : Store) : Call → Option (Store × Option ShapeError)
  | .change place edit =>
    store[place]?.bind fun m =>
      (edit.apply arith m).toOption.map fun n => (store.set place n, none)
  | .make source => (source.build arith store).map fun
    | .ok m => (store ++ [m], none)
    | .error e => (store, some e)

/-- What calls that all return leave in the store, one after the other. -/
def Store.runAll (arith : IndexArithmetic) (calls : List Call) (store : Store) : Option Store :=
  calls.foldlM (fun store call => (call.run arith store).map Prod.fst) store

variable {arith : IndexArithmetic}

namespace DenseMatrix

variable {α : Type}

def shape (m : DenseMatrix α) : Nat × Nat := (m.rows, m.cols)

theorem SameSizes.shape_eq {m n : DenseMatrix α} (h : m.SameSizes n) : n.shape = m.shape :=
  Prod.ext h.rows_eq h.cols_eq

/-- The slices of a matrix are its rows, and a row read as a whole holds what is read cell by
cell. -/
def ReadAlike (arith : IndexArithmetic) (m : DenseMatrix α) : Prop :=
  ∃ slices, m.rowSlices = .ok slices ∧ slices.length = m.rows ∧
    ∀ r, r < m.rows → ∃ row, slices[r]? = some row ∧ m.flatRow arith r = .ok row ∧
      (List.range m.cols).mapM (m.read arith r) = .ok row

theorem StoredIn.readAlike [Scalar α] {m : DenseMatrix α} (hm : m.StoredIn arith)
    (hc : 0 < m.cols) : m.ReadAlike arith := by
  refine ⟨m.toRows, rowSlices_eq_toRows hm.wellFormed hc, by simp [toRows], fun r hr => ?_⟩
  refine ⟨_, by simp [toRows, hr], hm.flatRow_eq hr (hm.holds_next hr hc), ?_⟩
  exact mapM_eq_ok fun c hcol => hm.read_eq hr (List.mem_range.mp hcol)

end DenseMatrix

theorem Change.apply_sameSizes {m n : DenseMatrix Float} {edit : Change}
    (h : edit.apply arith m = .ok n) : m.SameSizes n := by
  cases edit with
  | write => exact DenseMatrix.write_sameSizes h
  | swapRows => exact DenseMatrix.flatSwapRows_sameSizes h
  | scaleRow => exact DenseMatrix.flatScaleRow_sameSizes h
  | subtractScaledRow => exact DenseMatrix.flatSubtractScaledRow_sameSizes h

theorem toOption_eq_some {ε β : Type} {x : Except ε β} {b : β} :
    x.toOption = some b ↔ x = .ok b := by
  cases x <;> simp [Except.toOption]

theorem map_toOption_eq_some {ε ε' β : Type} {x : Except ε β} {b : β} :
    x.toOption.map Except.ok = some (.ok b : Except ε' β) ↔ x = .ok b := by
  cases x <;> simp [Except.toOption]

/-- A new matrix has all of its cells, unless their number has wrapped. -/
theorem Source.build_storedIn {store : Store} {source : Source} {m : DenseMatrix Float}
    (hstore : ∀ m ∈ store, m.StoredIn arith) (h : source.build arith store = some (.ok m))
    (hfit : m.Unwrapped arith) : m.StoredIn arith := by
  cases source with
  | ofRows rows => exact DenseMatrix.flatOfRows_storedIn (toOption_eq_some.mp h) hfit
  | ofCells rows cols cells => exact DenseMatrix.ofCells_storedIn (map_toOption_eq_some.mp h) hfit
  | zeros rows cols => exact DenseMatrix.flatZeros_storedIn (map_toOption_eq_some.mp h) hfit
  | identity n => exact DenseMatrix.ofCells_storedIn (map_toOption_eq_some.mp h) hfit
  | random rows cols draw => exact DenseMatrix.random_storedIn (map_toOption_eq_some.mp h) hfit
  | transpose place =>
    obtain ⟨n, hn, hmade⟩ := Option.bind_eq_some_iff.mp h
    have hstored := hstore n (List.mem_of_getElem? hn)
    rw [DenseMatrix.flatTranspose_eq hstored] at hmade
    cases hmade
    exact hstored.transpose
  | augmentIdentity place =>
    obtain ⟨n, _, hmade⟩ := Option.bind_eq_some_iff.mp h
    exact DenseMatrix.flatAugmentIdentity_storedIn (map_toOption_eq_some.mp hmade) hfit
  | columns place first last =>
    obtain ⟨n, hn, hmade⟩ := Option.bind_eq_some_iff.mp h
    have hstored := hstore n (List.mem_of_getElem? hn)
    exact DenseMatrix.columnsByCuts_storedIn hstored (map_toOption_eq_some.mp hmade)
  | mul left right order =>
    obtain ⟨n, _, hright⟩ := Option.bind_eq_some_iff.mp h
    obtain ⟨n', _, hmade⟩ := Option.bind_eq_some_iff.mp hright
    exact DenseMatrix.flatMul_storedIn (toOption_eq_some.mp hmade) hfit

namespace Call

variable {store store' : Store} {e? : Option ShapeError}

theorem run_cases {call : Call} (h : call.run arith store = some (store', e?)) :
    (∃ place edit m n, call = .change place edit ∧ store[place]? = some m ∧
      edit.apply arith m = .ok n ∧ store' = store.set place n ∧ e? = none) ∨
    (∃ source m, call = .make source ∧ source.build arith store = some (.ok m) ∧
      store' = store ++ [m] ∧ e? = none) ∨
    ∃ source e, call = .make source ∧ source.build arith store = some (.error e) ∧
      store' = store ∧ e? = some e := by
  cases call with
  | change place edit =>
    obtain ⟨m, hm, hedit⟩ := Option.bind_eq_some_iff.mp h
    obtain ⟨n, hn, hout⟩ := Option.map_eq_some_iff.mp hedit
    cases hout
    exact .inl ⟨place, edit, m, n, rfl, hm, toOption_eq_some.mp hn, rfl, rfl⟩
  | make source =>
    obtain ⟨built, hbuilt, hout⟩ := Option.map_eq_some_iff.mp h
    cases built with
    | ok m =>
      cases hout
      exact .inr (.inl ⟨source, m, rfl, hbuilt, rfl, rfl⟩)
    | error e =>
      cases hout
      exact .inr (.inr ⟨source, e, rfl, hbuilt, rfl, rfl⟩)

/-- A change leaves all shapes as they are. -/
theorem shape_of_run_change {place : Nat} {edit : Change}
    (h : (Call.change place edit).run arith store = some (store', e?)) :
    store'.map DenseMatrix.shape = store.map DenseMatrix.shape := by
  rcases run_cases h with ⟨place, edit, m, n, hcall, hm, hn, rfl, _⟩ | ⟨_, _, hcall, _⟩ |
    ⟨_, _, hcall, _⟩
  · have hplace : (store.map DenseMatrix.shape)[place]? = some m.shape := by
      rw [List.getElem?_map, hm, Option.map_some]
    obtain ⟨hlt, hget⟩ := List.getElem?_eq_some_iff.mp hplace
    rw [List.map_set, (Change.apply_sameSizes hn).shape_eq, ← hget, List.set_getElem_self]
  · cases hcall
  · cases hcall

/-- A call takes no shape out of the store. -/
theorem shape_mem_of_run {call : Call} (h : call.run arith store = some (store', e?))
    {m : DenseMatrix Float} (hm : m ∈ store) : ∃ m' ∈ store', m'.shape = m.shape := by
  rw [← List.mem_map]
  have hshape : m.shape ∈ store.map DenseMatrix.shape := List.mem_map_of_mem hm
  cases call with
  | change place edit => rwa [shape_of_run_change h]
  | make source =>
    rcases run_cases h with ⟨_, _, _, _, hcall, _⟩ | ⟨_, k, _, _, rfl, _⟩ | ⟨_, _, _, _, rfl, _⟩
    · cases hcall
    · rw [List.map_append]
      exact List.mem_append_left _ hshape
    · exact hshape

theorem unwrapped_of_run {call : Call} (h : call.run arith store = some (store', e?))
    (hfit : ∀ m ∈ store', m.Unwrapped arith) : ∀ m ∈ store, m.Unwrapped arith := by
  intro m hm
  obtain ⟨m', hm', hshape⟩ := shape_mem_of_run h hm
  obtain ⟨hrows, hcols⟩ := Prod.mk.inj hshape
  exact (hfit m' hm').of_shape_eq hrows hcols

theorem run_storedIn {call : Call} (hstore : ∀ m ∈ store, m.StoredIn arith)
    (h : call.run arith store = some (store', e?)) (hfit : ∀ m ∈ store', m.Unwrapped arith) :
    ∀ m ∈ store', m.StoredIn arith := by
  rcases run_cases h with ⟨place, edit, m, n, _, hm, hn, rfl, _⟩ | ⟨source, m, _, hm, rfl, _⟩ |
    ⟨_, _, _, _, rfl, _⟩
  · intro k hk
    rcases List.mem_or_eq_of_mem_set hk with hk | rfl
    · exact hstore k hk
    · exact (Change.apply_sameSizes hn).storedIn (hstore m (List.mem_of_getElem? hm))
  · have hmade := Source.build_storedIn hstore hm (hfit m (by simp))
    exact List.forall_mem_append.mpr ⟨hstore, by simpa using hmade⟩
  · exact hstore

/-- A product is refused for what its operands are, and nothing is made then. -/
theorem run_mul_refused_iff {left right : Nat} {order : List Nat} {e : ShapeError} :
    (Call.make (.mul left right order)).run arith store = some (store', some e) ↔
      store' = store ∧ ∃ m n, store[left]? = some m ∧ store[right]? = some n ∧ m.cols ≠ n.rows ∧
        e = .dimensionMismatch m.rows m.cols n.rows n.cols := by
  constructor
  · intro h
    rcases run_cases h with ⟨_, _, _, _, hcall, _⟩ | ⟨_, _, _, _, _, he⟩ |
      ⟨_, _, hcall, hbuild, rfl, he⟩
    · cases hcall
    · cases he
    · cases hcall
      cases he
      obtain ⟨m, hm, hright⟩ := Option.bind_eq_some_iff.mp hbuild
      obtain ⟨n, hn, hmul⟩ := Option.bind_eq_some_iff.mp hright
      exact ⟨rfl, m, n, hm, hn, DenseMatrix.flatMul_eq_error_iff.mp (toOption_eq_some.mp hmul)⟩
  · rintro ⟨rfl, m, n, hm, hn, hrefused⟩
    have hmul : m.flatMul arith order n = .ok (.error e) :=
      DenseMatrix.flatMul_eq_error_iff.mpr hrefused
    simp [run, Source.build, hm, hn, hmul, Except.toOption]

end Call

namespace Store

variable {store store' : Store}

/-- What holds of the store at first and is kept by every call holds after all of them. -/
theorem runAll_invariant {P : Store → Prop} {calls : List Call}
    (keep : ∀ call ∈ calls, ∀ u v e?, P u → call.run arith u = some (v, e?) → P v)
    (hstore : P store) (h : store.runAll arith calls = some store') : P store' := by
  induction calls generalizing store with
  | nil =>
    cases h
    exact hstore
  | cons call calls ih =>
    obtain ⟨next, hnext, hrest⟩ := Option.bind_eq_some_iff.mp h
    obtain ⟨⟨v, e?⟩, hrun, rfl⟩ := Option.map_eq_some_iff.mp hnext
    exact ih (fun c hc => keep c (List.mem_cons_of_mem call hc))
      (keep call List.mem_cons_self store v e? hstore hrun) hrest

/-- Shapes stay in the store, so if none has wrapped in the end, none has before. -/
theorem runAll_storedIn {calls : List Call} (hfit : ∀ m ∈ store, m.Unwrapped arith)
    (h : runAll arith calls [] = some store) : ∀ m ∈ store, m.StoredIn arith :=
  runAll_invariant
    (P := fun u => (∀ m ∈ u, m.Unwrapped arith) → ∀ m ∈ u, m.StoredIn arith)
    (fun _ _ _ _ _ hu hrun hv => Call.run_storedIn (hu (Call.unwrapped_of_run hrun hv)) hrun hv)
    (fun _ => by simp) h hfit

/-- A matrix can be made of no cells at all if their number wraps. It has no rows to be read. -/
example : (DenseMatrix.ofCells (.wrapping 18446744073709551616) 4294967296 4294967296
    (#[] : Array Float)).bind DenseMatrix.rowSlices = .ok [] := by
  decide +kernel

/-- Otherwise that number is a fault. -/
example : DenseMatrix.ofCells (.checked 18446744073709551616) 4294967296 4294967296
    (#[] : Array Float) = .error (.overflow 18446744073709551616) := by
  decide +kernel

end Store

end GaussJordan
