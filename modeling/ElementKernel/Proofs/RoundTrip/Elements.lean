import ElementKernel.Interchange.Element
import ElementKernel.Interchange.Index
import ElementKernel.Proofs.RoundTrip.Formats

/-!
# Elements and indices are given back

Their formats are faithful: elements of any nesting, by induction along the recursion that writes
them, and the arenas of indices.
-/

namespace ElementKernel

open JsonFormat

instance : Faithful CellShape :=
  ⟨fun cell => named_restores (by decide) (CellShape.mem_all cell)⟩

instance : Faithful IndexRole :=
  ⟨fun role => named_restores (by decide) (IndexRole.mem_all role)⟩

instance : NonNull IndexRole := ⟨fun _ => nofun⟩

instance : Faithful MonomialIndex where
  restored index := by
    refine record_restores (by decide) rfl ?_
    simp [required, ifPresent]

instance : Faithful IndexArena where
  restored arena := by
    refine record_restores (by decide) rfl ?_
    simp [required]

namespace ElementDescriptor

theorem decodeFamily_restores (make : CellShape → Nat → ElementDescriptor) (cell : CellShape)
    (degree : Nat) :
    decodeFamily make (.object [("cell", encode cell), ("degree", encode degree)]) =
      .ok (make cell degree) := by
  simp [decodeFamily, JsonValue.members?, List.lookup_cons, required]

theorem decodeReal_restores (cell : CellShape) :
    decodeReal (.object [("cell", encode cell)]) = .ok (.real cell) := by
  simp [decodeReal, JsonValue.members?, required]

mutual

theorem ofJson_toJson (element : ElementDescriptor) : ofJson element.toJson = .ok element := by
  cases element with
  | lagrange | discontinuousLagrange | raviartThomas | brezziDouglasMarini | nedelec | quadrature =>
      simp only [toJson, encodeFamily, JsonValue.tagged, ofJson, decodeSimple]
      exact decodeFamily_restores _ _ _
  | real cell =>
      simp only [toJson, JsonValue.tagged, ofJson, decodeSimple]
      exact decodeReal_restores cell
  | vector base copies =>
      simp [toJson, JsonValue.tagged, ofJson, ofMember, List.lookup_cons, ifPresent,
        ofJson_toJson base]
  | mixed elements =>
      simp [toJson, JsonValue.tagged, ofJson, ofJsonAll_toJsonAll elements]

theorem ofJsonAll_toJsonAll (elements : List ElementDescriptor) :
    ofJsonAll (toJsonAll elements) = .ok elements := by
  cases elements with
  | nil => rfl
  | cons element rest =>
      simp [toJsonAll, ofJsonAll, ofJson_toJson element, ofJsonAll_toJsonAll rest]

end

instance : Faithful ElementDescriptor := ⟨ofJson_toJson⟩

end ElementDescriptor

end ElementKernel
