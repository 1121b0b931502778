namespace GaussJordan

structure Config (α : Type) where
  epsilon : α
  /-- Decimal places of the reduction's matrices. -/
  stepPrecision : Nat
  /-- Decimal places of solution values, transpose and inverse. -/
  valuePrecision : Nat
deriving BEq

namespace Config

variable {α : Type}

/-- The settings used where none are given. -/
def default : Config Float := ⟨1e-10, 2, 4⟩

def withEpsilon (config : Config α) (epsilon : α) : Config α := { config with epsilon }

def withStepPrecision (config : Config α) (places : Nat) : Config α :=
  { config with stepPrecision := places }

def withValuePrecision (config : Config α) (places : Nat) : Config α :=
  { config with valuePrecision := places }

end Config

end GaussJordan
