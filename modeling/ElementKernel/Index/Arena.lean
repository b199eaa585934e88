import ElementKernel.Index.MonomialIndex

/-!
Storage of the indices of one transformation.

Indices are referred to by their position.  Two occurrences denote the same index exactly when they
have the same handle, so two fixed indices of equal value may still be different.
-/

namespace ElementKernel

abbrev IndexHandle := Nat

structure IndexArena where
  indices : List MonomialIndex := []
  deriving DecidableEq, Repr

namespace IndexArena

/-- The handle that the next inserted index gets. -/
def next (arena : IndexArena) : IndexHandle := arena.indices.length

def insert (arena : IndexArena) (index : MonomialIndex) : IndexArena :=
  ⟨arena.indices ++ [index]⟩

def get? (arena : IndexArena) (handle : IndexHandle) : Option MonomialIndex :=
  arena.indices[handle]?

def get (arena : IndexArena) (handle : IndexHandle) : Checked MonomialIndex :=
  Checked.get arena.indices handle

def set (arena : IndexArena) (handle : IndexHandle) (index : MonomialIndex) : IndexArena :=
  ⟨arena.indices.set handle index⟩

/-- The role of the index behind a handle, if there is one. -/
def role? (arena : IndexArena) (handle : IndexHandle) : Option IndexRole :=
  (arena.get? handle).bind MonomialIndex.role

def textAt (arena : IndexArena) (handle : IndexHandle) : Checked String := do
  (← arena.get handle).text

/-- The indices behind a list of handles, separated by commas. -/
def listText (arena : IndexArena) (handles : List IndexHandle) : Checked String := do
  return ", ".intercalate (← handles.mapM arena.textAt)

@[simp] theorem get?_insert_next (arena : IndexArena) (index : MonomialIndex) :
    (arena.insert index).get? arena.next = some index := by
  simp [get?, insert, next]

theorem get?_insert_of_lt {arena : IndexArena} {handle : IndexHandle} (index : MonomialIndex)
    (h : handle < arena.next) : (arena.insert index).get? handle = arena.get? handle := by
  simp only [get?, insert]
  exact List.getElem?_append_left h

@[simp] theorem next_insert (arena : IndexArena) (index : MonomialIndex) :
    (arena.insert index).next = arena.next + 1 := by
  simp [next, insert]

end IndexArena

end ElementKernel
