import GaussJordan.Operation

namespace GaussJordan

/-- A recorded operation with the whole matrix after it. -/
structure Step (α : Type) where
  operation : Operation α
  snapshot : DenseMatrix α
  description : String
deriving BEq

structure TraceLog (α : Type) where
  style : TraceStyle
  steps : Array (Step α)
deriving BEq

namespace TraceLog

variable {α : Type}

def empty (style : TraceStyle) : TraceLog α := ⟨style, #[]⟩

def size (log : TraceLog α) : Nat := log.steps.size

def isEmpty (log : TraceLog α) : Bool := log.steps.isEmpty

def last? (log : TraceLog α) : Option (Step α) := log.steps.back?

/-- Adds a step, described in the style of the log. -/
def record [Scalar α] (log : TraceLog α) (operation : Operation α) (snapshot : DenseMatrix α) :
    TraceLog α :=
  { log with steps := log.steps.push ⟨operation, snapshot, operation.describe log.style⟩ }

end TraceLog

end GaussJordan
