import ElementKernel.Monomial.Measure
import ElementKernel.Monomial.Transformation

/-!
Transformation of a whole form.

The first monomial that cannot be transformed stops the form.  A log tells which monomials and
integrals were done up to there.
-/

namespace ElementKernel

structure TransformedIntegral where
  measure : Measure
  monomials : List TransformedMonomial

structure TransformedForm where
  integrals : List TransformedIntegral

/-- The place and the cause of a failure in a form. -/
structure FormError where
  integral : Nat
  monomial : Nat
  measure : Measure
  cause : TransformError
  deriving DecidableEq, Repr

namespace FormError

def message (e : FormError) : String :=
  s!"failed to transform monomial {e.monomial} of integral {e.integral} ({e.measure.text})"

/-- The messages from the failure of the form down to its cause. -/
def chain (e : FormError) : List String := e.message :: e.cause.chain

end FormError

/-- A result together with the log written on the way to it. -/
structure Logged (α : Type) where
  log : List String
  result : Except FormError α

namespace MonomialForm

def monomialEntry (text : String) : String := "DEBUG: Transformed monomial: " ++ text

def integralEntry (count position : Nat) (measure : Measure) : String :=
  s!"DEBUG: Transformed {count} monomial(s) of integral {position} ({measure.text})"

/-- Transforms the monomials of one integral, from the position `j` on. -/
def transformMonomials (provider : ElementProvider) (i : Nat) (measure : Measure) :
    Nat → List RawMonomial → Checked (Logged (List TransformedMonomial))
  | _, [] => .ok ⟨[], .ok []⟩
  | j, monomial :: rest =>
      match monomial.transform provider with
      | .error (.fault fault) => .error fault
      | .error (.error cause) => .ok ⟨[], .error ⟨i, j, measure, cause⟩⟩
      | .ok transformed => do
          let text ← transformed.text
          let ⟨log, others⟩ ← transformMonomials provider i measure (j + 1) rest
          return ⟨monomialEntry text :: log, (transformed :: ·) <$> others⟩

/-- Transforms integrals, from the position `i` on. -/
def transformIntegrals (provider : ElementProvider) :
    Nat → List MonomialIntegral → Checked (Logged (List TransformedIntegral))
  | _, [] => .ok ⟨[], .ok []⟩
  | i, integral :: rest => do
      let ⟨log, monomials⟩ ← transformMonomials provider i integral.measure 0 integral.monomials
      match monomials with
      | .error e => return ⟨log, .error e⟩
      | .ok monomials =>
          let entry := integralEntry monomials.length i integral.measure
          let ⟨later, others⟩ ← transformIntegrals provider (i + 1) rest
          return ⟨log ++ entry :: later, (⟨integral.measure, monomials⟩ :: ·) <$> others⟩

def transform (form : MonomialForm) (provider : ElementProvider) :
    Checked (Logged TransformedForm) := do
  let ⟨log, integrals⟩ ← transformIntegrals provider 0 form.integrals
  return ⟨log, TransformedForm.mk <$> integrals⟩

end MonomialForm

end ElementKernel
