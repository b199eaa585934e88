import ElementKernel.Proofs.Execution.Correctness
import ElementKernel.Proofs.Portability.Nodes

/-!
# Portable kernels

The kernels of an integral for C and for Rust compute the same element tensor wherever the one for C
is portable.
-/

namespace ElementKernel.Portability

open Execution Kernel

variable {K : Type} [Field K] [LinearOrder K] [FloorRing K] {D : Interpretation K}
  {type : IntegralType} {options : TargetOptions} {pointCount : Nat}

/-! ## Contributions -/

/-- Rational inputs, where every operator adds up its operands. -/
def addingData : KernelData ℚ :=
  { Integral.sampleData with operator := fun _ operands => operands.sum }

def initial (integral : Integral) : State ℚ :=
  ⟨addingData.inputs Integral.cellTarget integral, fun _ => 7⟩

end ElementKernel.Portability
