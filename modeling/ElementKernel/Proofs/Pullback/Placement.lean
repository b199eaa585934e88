import ElementKernel.Element.Reference
import ElementKernel.Proofs.Outcome

/-!
# Sub-elements of a description

How a value component is mapped and where its sub-element starts follows from the description alone:
copies of a scalar element start at every component, and the parts of a mixed element lie side by
side.  The metadata of every accepted element says the same (`ElementDescriptor.info_describes`).
-/

namespace ElementKernel

namespace ElementDescriptor

mutual

/-- The number of value components. -/
def size : ElementDescriptor → Nat
  | .lagrange .. | .discontinuousLagrange .. | .real _ | .quadrature .. => 1
  | .raviartThomas cell _ | .brezziDouglasMarini cell _ | .nedelec cell _ => cell.dimension
  | .vector base copies => copies.getD ((base.cell?.map CellShape.dimension).getD 0)
  | .mixed elements => sizes elements

def sizes : List ElementDescriptor → Nat
  | [] => 0
  | element :: rest => element.size + sizes rest

end

/-- The component of an element without sub-elements. -/
def leaf (size : Nat) (mapping : Mapping) (c : Nat) : Option ComponentElement :=
  if c < size then some ⟨mapping, 0⟩ else none

mutual

/-- The mapping of a value component and the first component of its sub-element. -/
def placement : ElementDescriptor → Nat → Option ComponentElement
  | .lagrange .., c | .discontinuousLagrange .., c | .real _, c | .quadrature .., c =>
      leaf 1 .affine c
  | .raviartThomas cell _, c | .brezziDouglasMarini cell _, c =>
      leaf cell.dimension .contravariantPiola c
  | .nedelec cell _, c => leaf cell.dimension .covariantPiola c
  | .vector base copies, c =>
      if c < (vector base copies).size then
        (base.placement 0).map fun only => ⟨only.mapping, c⟩
      else none
  | .mixed elements, c => placements elements c

/-- The placement in elements side by side. -/
def placements : List ElementDescriptor → Nat → Option ComponentElement
  | [], _ => none
  | element :: rest, c =>
      if c < element.size then element.placement c
      else (placements rest (c - element.size)).map fun p =>
        { p with offset := element.size + p.offset }

end

end ElementDescriptor

/-- The metadata of an element agrees with its description. -/
structure ElementInfo.Describes (info : ElementInfo) (element : ElementDescriptor) : Prop where
  cell : element.cell? = some info.cell
  size : info.valueDimension = element.size
  component : ∀ c, info.component? c = element.placement c

namespace ElementInfo

theorem describes_simple {element : ElementDescriptor} {cell : CellShape}
    {spaceDimension count : Nat} {mapping : Mapping} (hcell : element.cell? = some cell)
    (hsize : element.size = count)
    (hplacement : element.placement = ElementDescriptor.leaf count mapping) :
    (simple cell spaceDimension count mapping).Describes element where
  cell := hcell
  size := by simp [simple, valueDimension, hsize]
  component c := by
    rw [hplacement, component?, simple, ElementDescriptor.leaf, List.getElem?_replicate]

theorem describes_vectorValued {element : ElementDescriptor} {family : String} {cell : CellShape}
    {degree : Nat} {mapping : Mapping} {onTriangle onTetrahedron : Checked Nat}
    {info : ElementInfo} (hcell : element.cell? = some cell)
    (hsize : element.size = cell.dimension)
    (hplacement : element.placement = ElementDescriptor.leaf cell.dimension mapping)
    (h : vectorValued family cell degree mapping onTriangle onTetrahedron = .ok info) :
    info.Describes element := by
  unfold vectorValued at h
  split at h
  · cases h
  · split at h
    · obtain ⟨n, -, hinfo⟩ := bind_eq_ok.1 h
      obtain rfl := Except.ok.inj hinfo
      exact describes_simple hcell hsize hplacement
    · obtain ⟨n, -, hinfo⟩ := bind_eq_ok.1 h
      obtain rfl := Except.ok.inj hinfo
      exact describes_simple hcell hsize hplacement
    · cases h

theorem describes_copies {base : ElementInfo} {element : ElementDescriptor} {count : Option Nat}
    {info : ElementInfo} (hbase : base.Describes element) (h : base.copies count = .ok info) :
    info.Describes (.vector element count) := by
  unfold copies at h
  split at h
  next only honly =>
    obtain ⟨n, -, hinfo⟩ := bind_eq_ok.1 h
    obtain rfl := Except.ok.inj hinfo
    have hsize : (ElementDescriptor.vector element count).size =
        count.getD base.geometricDimension := by
      rw [ElementDescriptor.size, hbase.cell]
      rfl
    have hmapping : element.placement 0 = some only := by
      rw [← hbase.component, component?, honly]
      rfl
    refine ⟨by rw [ElementDescriptor.cell?, hbase.cell], ?_, fun c => ?_⟩
    · rw [hsize, valueDimension, List.length_map, List.length_range]
    · rw [ElementDescriptor.placement, hsize, hmapping, component?, List.getElem?_map]
      split
      next hlt => simp [List.getElem?_range hlt]
      next hge => simp [Nat.le_of_not_lt hge]
  next => cases h

theorem describes_sideBySide {infos : List ElementInfo} {elements : List ElementDescriptor}
    (h : List.Forall₂ Describes infos elements) (start : Nat) :
    (sideBySide start infos).length = ElementDescriptor.sizes elements ∧
      ∀ c, (sideBySide start infos)[c]? =
        (ElementDescriptor.placements elements c).map fun p =>
          { p with offset := start + p.offset } := by
  induction h generalizing start with
  | nil => exact ⟨rfl, fun c => rfl⟩
  | @cons info element infos elements hinfo hrest ih =>
      obtain ⟨hlength, hget⟩ := ih (start + info.valueDimension)
      have hsize : info.components.length = element.size := hinfo.size
      refine ⟨?_, fun c => ?_⟩
      · rw [sideBySide, List.length_append, List.length_map, hlength, ElementDescriptor.sizes,
          hsize]
      · rw [sideBySide, ElementDescriptor.placements]
        split
        next hlt =>
          rw [List.getElem?_append_left (by rw [List.length_map]; omega), List.getElem?_map,
            ← hinfo.component]
          rfl
        next hge =>
          rw [List.getElem?_append_right (by rw [List.length_map]; omega), List.length_map, hget,
            hsize, Option.map_map]
          congr 1
          funext p
          simp [valueDimension, hsize, Nat.add_assoc]

theorem describes_combine {infos : List ElementInfo} {elements : List ElementDescriptor}
    {info : ElementInfo} (h : List.Forall₂ Describes infos elements)
    (hinfo : combine infos = .ok info) : info.Describes (.mixed elements) := by
  obtain ⟨hlength, hget⟩ := describes_sideBySide h 0
  cases h with
  | nil => cases hinfo
  | @cons first element rest elements hfirst hrest =>
      unfold combine at hinfo
      dsimp only at hinfo
      split at hinfo
      next => cases hinfo
      next =>
        obtain ⟨n, -, hinfo⟩ := bind_eq_ok.1 hinfo
        obtain rfl := Except.ok.inj hinfo
        refine ⟨by rw [ElementDescriptor.cell?, hfirst.cell], ?_, fun c => ?_⟩
        · rw [ElementDescriptor.size, ← hlength]
          rfl
        · rw [ElementDescriptor.placement, component?, hget]
          simp

end ElementInfo

namespace ElementDescriptor

mutual

/-- Accepted elements have the sub-elements of their descriptions. -/
theorem info_describes : (element : ElementDescriptor) → {info : ElementInfo} →
    element.info = .ok info → info.Describes element
  | .lagrange cell degree, info, h => by
      rw [ElementDescriptor.info] at h
      split at h
      · cases h
      · obtain ⟨n, -, hinfo⟩ := bind_eq_ok.1 h
        obtain rfl := Except.ok.inj hinfo
        exact ElementInfo.describes_simple rfl rfl (by funext c; rw [placement])
  | .discontinuousLagrange cell degree, info, h => by
      rw [ElementDescriptor.info] at h
      obtain ⟨n, -, hinfo⟩ := bind_eq_ok.1 h
      obtain rfl := Except.ok.inj hinfo
      exact ElementInfo.describes_simple rfl rfl (by funext c; rw [placement])
  | .raviartThomas cell degree, info, h => by
      rw [ElementDescriptor.info] at h
      exact ElementInfo.describes_vectorValued rfl rfl (by funext c; rw [placement]) h
  | .brezziDouglasMarini cell degree, info, h => by
      rw [ElementDescriptor.info] at h
      exact ElementInfo.describes_vectorValued rfl rfl (by funext c; rw [placement]) h
  | .nedelec cell degree, info, h => by
      rw [ElementDescriptor.info] at h
      exact ElementInfo.describes_vectorValued rfl rfl (by funext c; rw [placement]) h
  | .real cell, info, h => by
      rw [ElementDescriptor.info] at h
      obtain rfl := Except.ok.inj h
      exact ElementInfo.describes_simple rfl rfl (by funext c; rw [placement])
  | .quadrature cell degree, info, h => by
      rw [ElementDescriptor.info] at h
      obtain ⟨points, -, hinfo⟩ := bind_eq_ok.1 h
      obtain ⟨n, -, hinfo⟩ := bind_eq_ok.1 hinfo
      obtain rfl := Except.ok.inj hinfo
      exact ElementInfo.describes_simple rfl rfl (by funext c; rw [placement])
  | .vector base copies, info, h => by
      rw [ElementDescriptor.info] at h
      obtain ⟨baseInfo, hbase, hcopies⟩ := bind_eq_ok.1 h
      exact ElementInfo.describes_copies (info_describes base hbase) hcopies
  | .mixed elements, info, h => by
      rw [ElementDescriptor.info] at h
      obtain ⟨infos, hinfos, hcombine⟩ := bind_eq_ok.1 h
      exact ElementInfo.describes_combine (infos_describe elements hinfos) hcombine

theorem infos_describe : (elements : List ElementDescriptor) → {result : List ElementInfo} →
    infos elements = .ok result → List.Forall₂ ElementInfo.Describes result elements
  | [], result, h => by
      rw [infos] at h
      obtain rfl := Except.ok.inj h
      exact .nil
  | element :: rest, result, h => by
      rw [infos] at h
      obtain ⟨first, hfirst, h⟩ := bind_eq_ok.1 h
      obtain ⟨others, hothers, h⟩ := bind_eq_ok.1 h
      obtain rfl := Except.ok.inj h
      exact .cons (info_describes element hfirst) (infos_describe rest hothers)

end

/-- The provider of reference elements places components as the descriptions do. -/
theorem reference_component {descriptor : ElementDescriptor} {element : FiniteElement}
    (h : reference descriptor = .ok element) (c : Nat) :
    element.component c = .ok (descriptor.placement c) := by
  obtain ⟨info, hinfo, h⟩ := bind_eq_ok.1 h
  obtain rfl := Except.ok.inj h
  rw [← (info_describes descriptor hinfo).component]
  rfl

end ElementDescriptor

end ElementKernel
