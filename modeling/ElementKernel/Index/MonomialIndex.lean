import ElementKernel.Word

/-!
Symbolic indices of a monomial.

An index has an ordered list of values, and once it is classified a role and an id that is unique
within the role.  An index without a role is still to be classified.
-/

namespace ElementKernel

structure MonomialIndex where
  role : Option IndexRole
  range : List Nat
  id : Option Nat
  deriving DecidableEq, Repr

namespace MonomialIndex

/-- An index of given parts; a fixed index holds exactly one value. -/
def make (role : Option IndexRole) (range : List Nat) (id : Option Nat) : Checked MonomialIndex :=
  if role = some .fixed ∧ range.length ≠ 1 then .error (.fixedIndexRange range)
  else .ok ⟨role, range, id⟩

def fixed (value : Nat) : MonomialIndex := ⟨some .fixed, [value], none⟩

/-- A fixed index that carries its value as its id, as directions of derivatives do. -/
def fixedDirection (value : Nat) : MonomialIndex := ⟨some .fixed, [value], some value⟩

/-- The basis function index of an argument. -/
def primary (argument : Nat) (range : List Nat) : MonomialIndex :=
  ⟨some .primary, range, some argument⟩

def unclassified (range : List Nat) : MonomialIndex := ⟨none, range, none⟩

def isFixed (index : MonomialIndex) : Bool := index.role = some .fixed

def isClassified (index : MonomialIndex) : Bool := index.role.isSome

def classifyAs (index : MonomialIndex) (role : IndexRole) (id : Nat) : MonomialIndex :=
  { index with role := some role, id := some id }

/-- The value of a fixed index. -/
def value (index : MonomialIndex) : Checked Nat := Checked.get index.range 0

/-- Adds an offset to every value. -/
def raise (index : MonomialIndex) (offset : Nat) : Checked MonomialIndex := do
  let range ← index.range.mapM (Word.add · offset)
  return { index with range }

/-- Subtracts an offset from every value; the offset may not exceed any of them. -/
def lower (index : MonomialIndex) (offset : Nat) : Checked MonomialIndex :=
  if index.range.all (offset ≤ ·) then
    .ok { index with range := index.range.map (· - offset) }
  else .error (.offsetExceedsRange offset index.range)

/-- Indices are ordered by id, then by role, then by range; what is missing comes first. -/
def order (a b : MonomialIndex) : Ordering :=
  (compare a.id b.id).then ((compare a.role b.role).then (compare a.range b.range))

/-- A fixed index is written as its value and a classified one as its letter and id. -/
def text (index : MonomialIndex) : Checked String :=
  match index.role, index.id with
  | some .fixed, _ => return toString (← index.value)
  | some role, some id => return s!"{role.letter}_{id}"
  | _, _ => return "?"

theorem make_fixed (value : Nat) : make (some .fixed) [value] none = .ok (fixed value) := rfl

end MonomialIndex

end ElementKernel
