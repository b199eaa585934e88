import ElementKernel.Integrand.Block
import ElementKernel.Integrand.Inconsistency

/-!
Contributions to blocks of the element tensor.

A contribution is a factor times one table entry per axis.  Contributions are grouped by partition
and block; inserting one keeps sorted blocks sorted and the contributions of a block in order.
-/

namespace ElementKernel

inductive Partition where
  /-- Constant over the quadrature points of a cell. -/
  | piecewise
  /-- Varying between quadrature points. -/
  | varying
  deriving DecidableEq, Repr

namespace Partition

def all : List Partition := [.piecewise, .varying]

def name : Partition → String
  | .piecewise => "piecewise"
  | .varying => "varying"

end Partition

structure BlockContribution where
  /-- For each axis, the position of its argument among the modified arguments. -/
  arguments : List Nat
  factor : NodeId
  /-- For each axis, the table range of its argument. -/
  ranges : List TableRange
  deriving DecidableEq, Repr

abbrev BlockEntry := DofBlock × List BlockContribution

/-- Halves a nonempty interval of positions until one is left.  The interval moves up to its middle
when `reached` holds there, so on a list where `reached` holds up to some place it ends at that
place or at the start. -/
def bisect (reached : Nat → Bool) (start size : Nat) : Nat :=
  if _h : size ≤ 1 then start
  else
    let half := size / 2
    bisect reached (if reached (start + half) then start + half else start) (size - half)
termination_by size

namespace BlockEntry

/-- Adds a contribution to the entry of its block, which is made at its place if it is missing. -/
def insert (entries : List BlockEntry) (block : DofBlock) (contribution : BlockContribution) :
    List BlockEntry :=
  let orderAt (i : Nat) : Ordering := (entries[i]?.map (·.1.order block)).getD .gt
  let place := bisect (fun i => (orderAt i).isLE) 0 entries.length
  match orderAt place with
  | .eq => entries.modify place fun entry => (entry.1, entry.2 ++ [contribution])
  | .lt => entries.insertIdx (place + 1) (block, [contribution])
  | .gt => entries.insertIdx place (block, [contribution])

end BlockEntry

structure BlockContributions where
  piecewise : List BlockEntry := []
  varying : List BlockEntry := []
  deriving DecidableEq, Repr

namespace BlockContributions

def get (contributions : BlockContributions) : Partition → List BlockEntry
  | .piecewise => contributions.piecewise
  | .varying => contributions.varying

def insert (contributions : BlockContributions) (partition : Partition) (block : DofBlock)
    (contribution : BlockContribution) : BlockContributions :=
  match partition with
  | .piecewise =>
      let piecewise := BlockEntry.insert contributions.piecewise block contribution
      { contributions with piecewise }
  | .varying =>
      let varying := BlockEntry.insert contributions.varying block contribution
      { contributions with varying }

end BlockContributions

end ElementKernel
