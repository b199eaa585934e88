import ElementKernel.Proofs.Pullback.Placement
import Mathlib.Algebra.Ring.Nat

/-!
# Components of sub-elements

The components of an accepted element fall into runs, one for each sub-element that is a leaf of the
description.  All components of a run have the same mapping and the offset of the first of them, and
a run under a Piola map is as long as the cell has dimensions.  Side by side, runs stay runs
(`Grouped.append`), which is all that a nested description needs.
-/

namespace ElementKernel

/-- The components, the first of which is numbered `start`, fall into runs. -/
structure Grouped (dimension start : Nat) (components : List ComponentElement) : Prop where
  offset_le : ∀ (c : Nat) (p : ComponentElement), components[c]? = some p →
    start ≤ p.offset ∧ p.offset ≤ start + c
  same : ∀ (c : Nat) (p : ComponentElement), components[c]? = some p →
    ∀ d ≤ c, p.offset ≤ start + d → components[d]? = some p
  /-- A run under a Piola map is never a single component. -/
  piola : ∀ (c : Nat) (p : ComponentElement), components[c]? = some p → p.mapping ≠ .affine →
    2 ≤ dimension ∧ ∀ d, (∃ q, components[d]? = some q ∧ q.offset = p.offset) ↔
      p.offset ≤ start + d ∧ start + d < p.offset + dimension

namespace Grouped

variable {dimension start : Nat} {components first rest : List ComponentElement}

theorem nil (dimension start : Nat) : Grouped dimension start [] where
  offset_le _ _ h := nomatch h
  same _ _ h := nomatch h
  piola _ _ h := nomatch h

/-- The components of a leaf are one run. -/
theorem replicate {count : Nat} {mapping : Mapping}
    (h : mapping ≠ .affine → 2 ≤ dimension ∧ count = dimension) :
    Grouped dimension 0 (List.replicate count ⟨mapping, 0⟩) := by
  have hget : ∀ (c : Nat) (p : ComponentElement),
      (List.replicate count (⟨mapping, 0⟩ : ComponentElement))[c]? = some p ↔
        c < count ∧ p = ⟨mapping, 0⟩ := by
    intro c p
    rw [List.getElem?_replicate]
    split <;> simp [*, eq_comm]
  refine ⟨fun c p hp => ?_, fun c p hp d hd _ => ?_, fun c p hp hmapping => ?_⟩
  · obtain ⟨-, rfl⟩ := (hget c p).1 hp
    simp
  · obtain ⟨hc, rfl⟩ := (hget c p).1 hp
    exact (hget d _).2 ⟨by omega, rfl⟩
  · obtain ⟨-, rfl⟩ := (hget c p).1 hp
    obtain ⟨htwo, hcount⟩ := h hmapping
    refine ⟨htwo, fun d => ?_⟩
    simp only [hget]
    constructor
    · rintro ⟨q, ⟨hd, rfl⟩, -⟩
      omega
    · rintro ⟨-, hd⟩
      exact ⟨_, ⟨by simpa [hcount] using hd, rfl⟩, rfl⟩

theorem copies (count : Nat) :
    Grouped dimension 0 ((List.range count).map fun offset => ⟨.affine, offset⟩) := by
  have hget : ∀ (c : Nat) (p : ComponentElement),
      ((List.range count).map fun offset => (⟨.affine, offset⟩ : ComponentElement))[c]? = some p ↔
        c < count ∧ p = ⟨.affine, c⟩ := by
    intro c p
    by_cases hc : c < count <;> simp [hc, eq_comm]
  refine ⟨fun c p hp => ?_, fun c p hp d hd hle => ?_, fun c p hp hmapping => ?_⟩
  · obtain ⟨-, rfl⟩ := (hget c p).1 hp
    simp
  · obtain ⟨hc, rfl⟩ := (hget c p).1 hp
    obtain rfl : d = c := by
      simp only at hle
      omega
    exact hp
  · obtain ⟨-, rfl⟩ := (hget c p).1 hp
    exact absurd rfl hmapping

theorem shift (h : Grouped dimension 0 components) (start : Nat) :
    Grouped dimension start (components.map fun p => { p with offset := start + p.offset }) := by
  have hget : ∀ (c : Nat) (p : ComponentElement),
      (components.map fun p => { p with offset := start + p.offset })[c]? = some p ↔
        ∃ q, components[c]? = some q ∧ p = { q with offset := start + q.offset } := by
    intro c p
    rw [List.getElem?_map, Option.map_eq_some_iff]
    simp only [eq_comm]
  refine ⟨fun c p hp => ?_, fun c p hp d hd hle => ?_, fun c p hp hmapping => ?_⟩
  · obtain ⟨q, hq, rfl⟩ := (hget c p).1 hp
    have hoffset := h.offset_le c q hq
    simp only
    omega
  · obtain ⟨q, hq, rfl⟩ := (hget c p).1 hp
    simp only at hle
    exact (hget d _).2 ⟨q, h.same c q hq d hd (by omega), rfl⟩
  · obtain ⟨q, hq, rfl⟩ := (hget c p).1 hp
    obtain ⟨htwo, hrun⟩ := h.piola c q hq hmapping
    refine ⟨htwo, fun d => ?_⟩
    have hrun := hrun d
    simp only [hget]
    constructor
    · rintro ⟨-, ⟨other, hother, rfl⟩, hsame⟩
      have hwithin := hrun.1 ⟨other, hother, Nat.add_left_cancel hsame⟩
      omega
    · rintro ⟨hle, hlt⟩
      obtain ⟨other, hother, hsame⟩ := hrun.2 (by omega)
      exact ⟨_, ⟨other, hother, rfl⟩, congrArg (start + ·) hsame⟩

theorem append (hfirst : Grouped dimension start first)
    (hrest : Grouped dimension (start + first.length) rest) :
    Grouped dimension start (first ++ rest) := by
  -- The offsets of the first components lie in front of `start + first.length`, the others not.
  have hcases : ∀ (c : Nat) (p : ComponentElement), (first ++ rest)[c]? = some p →
      (first[c]? = some p ∧ c < first.length ∧ p.offset < start + first.length) ∨
      (∃ k, c = first.length + k ∧ rest[k]? = some p ∧ start + first.length ≤ p.offset) := by
    intro c p hp
    obtain hc | hc := Nat.lt_or_ge c first.length
    · rw [List.getElem?_append_left hc] at hp
      have hoffset := hfirst.offset_le c p hp
      exact Or.inl ⟨hp, hc, by omega⟩
    · obtain ⟨k, rfl⟩ := Nat.exists_eq_add_of_le hc
      rw [List.getElem?_append_right hc, Nat.add_sub_cancel_left] at hp
      exact Or.inr ⟨k, rfl, hp, (hrest.offset_le k p hp).1⟩
  have hleft : ∀ (c : Nat) (p : ComponentElement), first[c]? = some p →
      (first ++ rest)[c]? = some p := fun c p hp => by
    rw [List.getElem?_append_left (List.getElem?_eq_some_iff.1 hp).1, hp]
  have hright : ∀ (k : Nat), (first ++ rest)[first.length + k]? = rest[k]? := fun k => by
    rw [List.getElem?_append_right (Nat.le_add_right _ _), Nat.add_sub_cancel_left]
  refine ⟨fun c p hp => ?_, fun c p hp d hd hle => ?_, fun c p hp hmapping => ?_⟩
  · obtain ⟨hp, -, -⟩ | ⟨k, rfl, hp, hlate⟩ := hcases c p hp
    · exact hfirst.offset_le c p hp
    · have hoffset := hrest.offset_le k p hp
      omega
  · obtain ⟨hp, -, -⟩ | ⟨k, rfl, hp, hlate⟩ := hcases c p hp
    · exact hleft d p (hfirst.same c p hp d hd hle)
    · obtain ⟨j, rfl⟩ := Nat.exists_eq_add_of_le (show first.length ≤ d by omega)
      rw [hright]
      exact hrest.same k p hp j (by omega) (by omega)
  · obtain ⟨hp, -, hearly⟩ | ⟨k, rfl, hp, hlate⟩ := hcases c p hp
    · obtain ⟨htwo, hrun⟩ := hfirst.piola c p hp hmapping
      refine ⟨htwo, fun d => ⟨?_, fun hd => ?_⟩⟩
      · rintro ⟨q, hq, hsame⟩
        obtain ⟨hq, -, -⟩ | ⟨j, rfl, hq, hq'⟩ := hcases d q hq
        · exact (hrun d).1 ⟨q, hq, hsame⟩
        · omega
      · obtain ⟨q, hq, hsame⟩ := (hrun d).2 hd
        exact ⟨q, hleft d q hq, hsame⟩
    · obtain ⟨htwo, hrun⟩ := hrest.piola k p hp hmapping
      refine ⟨htwo, fun d => ⟨?_, fun hd => ?_⟩⟩
      · rintro ⟨q, hq, hsame⟩
        obtain ⟨hq, -, hq'⟩ | ⟨j, rfl, hq, -⟩ := hcases d q hq
        · omega
        · have hwithin := (hrun j).1 ⟨q, hq, hsame⟩
          omega
      · obtain ⟨j, rfl⟩ := Nat.exists_eq_add_of_le (show first.length ≤ d by omega)
        rw [hright]
        exact (hrun j).2 (by omega)

end Grouped

namespace ElementInfo

theorem grouped_vectorValued {family : String} {cell : CellShape} {degree : Nat}
    {mapping : Mapping} {onTriangle onTetrahedron : Checked Nat} {info : ElementInfo}
    (h : vectorValued family cell degree mapping onTriangle onTetrahedron = .ok info) :
    Grouped info.cell.dimension 0 info.components := by
  unfold vectorValued at h
  split at h
  · cases h
  · split at h
    · obtain ⟨n, -, hinfo⟩ := bind_eq_ok.1 h
      obtain rfl := Except.ok.inj hinfo
      exact .replicate fun _ => ⟨Nat.le_refl 2, rfl⟩
    · obtain ⟨n, -, hinfo⟩ := bind_eq_ok.1 h
      obtain rfl := Except.ok.inj hinfo
      exact .replicate fun _ => ⟨Nat.le_succ 2, rfl⟩
    · cases h

/-- A scalar element is under no Piola map, as a run under one has two components at least. -/
theorem grouped_copies {base : ElementInfo} {count : Option Nat} {info : ElementInfo}
    (hbase : Grouped base.cell.dimension 0 base.components)
    (h : base.copies count = .ok info) : Grouped info.cell.dimension 0 info.components := by
  unfold copies at h
  split at h
  next only honly =>
    obtain ⟨n, -, hinfo⟩ := bind_eq_ok.1 h
    obtain rfl := Except.ok.inj hinfo
    rw [honly] at hbase
    have haffine : only.mapping = .affine := by
      by_contra hmapping
      obtain ⟨htwo, hrun⟩ := hbase.piola 0 only rfl hmapping
      have hoffset := hbase.offset_le 0 only rfl
      obtain ⟨q, hq, -⟩ := (hrun 1).2 (by omega)
      cases hq
    rw [haffine]
    exact .copies _
  next => cases h

theorem grouped_sideBySide {dimension : Nat} {infos : List ElementInfo}
    (h : ∀ info ∈ infos, Grouped dimension 0 info.components) (start : Nat) :
    Grouped dimension start (sideBySide start infos) := by
  induction infos generalizing start with
  | nil => exact .nil dimension start
  | cons info infos ih =>
      obtain ⟨hinfo, hrest⟩ := List.forall_mem_cons.1 h
      rw [sideBySide]
      refine (hinfo.shift start).append ?_
      rw [List.length_map]
      exact ih hrest (start + info.valueDimension)

theorem grouped_combine {infos : List ElementInfo} {info : ElementInfo}
    (h : ∀ part ∈ infos, Grouped part.cell.dimension 0 part.components)
    (hinfo : combine infos = .ok info) : Grouped info.cell.dimension 0 info.components := by
  unfold combine at hinfo
  split at hinfo
  next => cases hinfo
  next first rest =>
    split at hinfo
    next => cases hinfo
    next hcells =>
      obtain ⟨n, -, hinfo⟩ := bind_eq_ok.1 hinfo
      obtain rfl := Except.ok.inj hinfo
      refine grouped_sideBySide (fun part hpart => ?_) 0
      have hcell : part.cell = first.cell := by
        simpa using List.find?_eq_none.1 hcells part hpart
      exact hcell ▸ h part hpart

end ElementInfo

namespace ElementDescriptor

mutual

theorem info_grouped : (element : ElementDescriptor) → {info : ElementInfo} →
    element.info = .ok info → Grouped info.cell.dimension 0 info.components
  | .lagrange cell degree, info, h => by
      rw [ElementDescriptor.info] at h
      split at h
      · cases h
      · obtain ⟨n, -, hinfo⟩ := bind_eq_ok.1 h
        obtain rfl := Except.ok.inj hinfo
        exact .replicate (absurd rfl)
  | .discontinuousLagrange cell degree, info, h => by
      rw [ElementDescriptor.info] at h
      obtain ⟨n, -, hinfo⟩ := bind_eq_ok.1 h
      obtain rfl := Except.ok.inj hinfo
      exact .replicate (absurd rfl)
  | .raviartThomas cell degree, info, h => by
      rw [ElementDescriptor.info] at h
      exact ElementInfo.grouped_vectorValued h
  | .brezziDouglasMarini cell degree, info, h => by
      rw [ElementDescriptor.info] at h
      exact ElementInfo.grouped_vectorValued h
  | .nedelec cell degree, info, h => by
      rw [ElementDescriptor.info] at h
      exact ElementInfo.grouped_vectorValued h
  | .real cell, info, h => by
      rw [ElementDescriptor.info] at h
      obtain rfl := Except.ok.inj h
      exact .replicate (absurd rfl)
  | .quadrature cell degree, info, h => by
      rw [ElementDescriptor.info] at h
      obtain ⟨points, -, hinfo⟩ := bind_eq_ok.1 h
      obtain ⟨n, -, hinfo⟩ := bind_eq_ok.1 hinfo
      obtain rfl := Except.ok.inj hinfo
      exact .replicate (absurd rfl)
  | .vector base copies, info, h => by
      rw [ElementDescriptor.info] at h
      obtain ⟨baseInfo, hbase, hcopies⟩ := bind_eq_ok.1 h
      exact ElementInfo.grouped_copies (info_grouped base hbase) hcopies
  | .mixed elements, info, h => by
      rw [ElementDescriptor.info] at h
      obtain ⟨infos, hinfos, hcombine⟩ := bind_eq_ok.1 h
      exact ElementInfo.grouped_combine (infos_grouped elements hinfos) hcombine

theorem infos_grouped : (elements : List ElementDescriptor) → {result : List ElementInfo} →
    infos elements = .ok result →
      ∀ info ∈ result, Grouped info.cell.dimension 0 info.components
  | [], result, h => by
      rw [infos] at h
      obtain rfl := Except.ok.inj h
      exact List.forall_mem_nil _
  | element :: rest, result, h => by
      rw [infos] at h
      obtain ⟨first, hfirst, h⟩ := bind_eq_ok.1 h
      obtain ⟨others, hothers, h⟩ := bind_eq_ok.1 h
      obtain rfl := Except.ok.inj h
      exact List.forall_mem_cons.2 ⟨info_grouped element hfirst, infos_grouped rest hothers⟩

end

end ElementDescriptor

/-! ## Accepted elements -/

/-- What the offsets of an element say about its components. -/
structure FiniteElement.IsGrouped (element : FiniteElement) : Prop where
  exists_iff : ∀ c, (∃ p, element.component c = .ok (some p)) ↔ c < element.valueDimension
  /-- A sub-element starts at a component, which is not behind the others. -/
  start : ∀ c p, element.component c = .ok (some p) →
    p.offset ≤ c ∧ element.component p.offset = .ok (some p)
  same : ∀ c p, element.component c = .ok (some p) → ∀ d, p.offset ≤ d → d ≤ c →
    element.component d = .ok (some p)
  piola : ∀ c p, element.component c = .ok (some p) → p.mapping ≠ .affine →
    ∀ d, (∃ q, element.component d = .ok (some q) ∧ q.offset = p.offset) ↔
      p.offset ≤ d ∧ d < p.offset + element.geometricDimension

/-- The number of value components in front of a part. -/
def FiniteElement.start (parts : List FiniteElement) (j : Nat) : Nat :=
  ((parts.take j).map (·.valueDimension)).sum

/-- The element consists of the parts side by side. -/
structure FiniteElement.Joins (element : FiniteElement) (parts : List FiniteElement) : Prop where
  valueDimension : element.valueDimension = (parts.map (·.valueDimension)).sum
  spaceDimension : element.spaceDimension = (parts.map (·.spaceDimension)).sum
  component : ∀ j part, parts[j]? = some part → ∀ i q, part.component i = .ok (some q) →
    element.component (start parts j + i) =
      .ok (some { q with offset := start parts j + q.offset })

theorem Grouped.isGrouped {info : ElementInfo} (h : Grouped info.cell.dimension 0 info.components) :
    info.toFiniteElement.IsGrouped := by
  have hcomponent : ∀ c p, info.toFiniteElement.component c = .ok (some p) ↔
      info.components[c]? = some p := fun c p => by
    rw [ElementInfo.toFiniteElement, Except.ok.injEq]
    rfl
  have hle : ∀ (c : Nat) (p : ComponentElement), info.components[c]? = some p → p.offset ≤ c :=
      fun c p hp => by
    have hoffset := h.offset_le c p hp
    omega
  have hsame : ∀ (c : Nat) (p : ComponentElement), info.components[c]? = some p →
      ∀ d, p.offset ≤ d → d ≤ c → info.components[d]? = some p :=
    fun c p hp d hd hdc => h.same c p hp d hdc (by omega)
  refine ⟨fun c => ?_, fun c p hp => ?_, fun c p hp d hd hdc => ?_, fun c p hp hmapping d => ?_⟩
  · simp only [hcomponent]
    rw [← Option.isSome_iff_exists, isSome_getElem?]
    exact Iff.rfl
  · rw [hcomponent] at hp ⊢
    exact ⟨hle c p hp, hsame c p hp _ (Nat.le_refl _) (hle c p hp)⟩
  · rw [hcomponent] at hp ⊢
    exact hsame c p hp d hd hdc
  · simp only [hcomponent] at hp ⊢
    have hrun := (h.piola c p hp hmapping).2 d
    rwa [Nat.zero_add] at hrun

theorem Word.sum_eq_ok {xs : List Nat} {n : Nat} (h : Word.sum xs = .ok n) : n = xs.sum := by
  suffices hfold : ∀ a, xs.foldlM Word.add a = .ok n → n = a + xs.sum by
    simpa using hfold 0 h
  clear h
  induction xs with
  | nil => exact fun a h => by simpa using (Except.ok.inj h).symm
  | cons x xs ih =>
      intro a h
      rw [List.foldlM_cons] at h
      obtain ⟨b, hb, h⟩ := bind_eq_ok.1 h
      obtain ⟨rfl, -⟩ := Word.fit_eq_ok_iff.1 hb
      rw [ih _ h, List.sum_cons, Nat.add_assoc]

namespace ElementInfo

theorem length_sideBySide (start : Nat) (infos : List ElementInfo) :
    (sideBySide start infos).length = (infos.map valueDimension).sum := by
  induction infos generalizing start with
  | nil => rfl
  | cons info infos ih =>
      rw [sideBySide, List.length_append, List.length_map, ih, List.map_cons, List.sum_cons]
      rfl

theorem getElem?_sideBySide {infos : List ElementInfo} (start : Nat) {j : Nat}
    {info : ElementInfo} (hinfo : infos[j]? = some info) {i : Nat} {q : ComponentElement}
    (hq : info.components[i]? = some q) :
    (sideBySide start infos)[((infos.take j).map valueDimension).sum + i]? =
      some { q with offset := start + ((infos.take j).map valueDimension).sum + q.offset } := by
  induction infos generalizing start j with
  | nil => cases hinfo
  | cons first rest ih =>
      rw [sideBySide]
      cases j with
      | zero =>
          obtain rfl := Option.some.inj hinfo
          have hlt : i < first.components.length := (List.getElem?_eq_some_iff.1 hq).1
          rw [List.take_zero, List.map_nil, List.sum_nil, Nat.zero_add,
            List.getElem?_append_left (by rwa [List.length_map]), List.getElem?_map, hq]
          rfl
      | succ j =>
          rw [List.take_succ_cons, List.map_cons, List.sum_cons, Nat.add_assoc,
            List.getElem?_append_right (by rw [List.length_map]; exact Nat.le_add_right _ _),
            List.length_map, valueDimension, Nat.add_sub_cancel_left]
          rw [ih _ hinfo]
          simp only [Nat.add_assoc]

theorem joins_combine {infos : List ElementInfo} {info : ElementInfo}
    (h : combine infos = .ok info) :
    info.toFiniteElement.Joins (infos.map toFiniteElement) := by
  obtain ⟨hcomponents, hspace⟩ : info.components = sideBySide 0 infos ∧
      info.spaceDimension = (infos.map (·.spaceDimension)).sum := by
    unfold combine at h
    split at h
    · cases h
    · split at h
      · cases h
      · obtain ⟨n, hn, h⟩ := bind_eq_ok.1 h
        obtain rfl := Except.ok.inj h
        exact ⟨rfl, Word.sum_eq_ok (liftM_eq_ok.1 hn)⟩
  have hstart : ∀ j, FiniteElement.start (infos.map toFiniteElement) j =
      ((infos.take j).map valueDimension).sum := fun j => by
    rw [FiniteElement.start, ← List.map_take, List.map_map]
    rfl
  refine ⟨?_, ?_, fun j part hpart i q hq => ?_⟩
  · rw [List.map_map]
    exact (congrArg List.length hcomponents).trans (length_sideBySide 0 infos)
  · rw [List.map_map]
    exact hspace
  · rw [List.getElem?_map] at hpart
    obtain ⟨info', hinfo', rfl⟩ := Option.map_eq_some_iff.1 hpart
    have hget := getElem?_sideBySide 0 hinfo' (Except.ok.inj hq)
    rw [← hcomponents, Nat.zero_add] at hget
    rw [hstart]
    exact congrArg Except.ok hget

end ElementInfo

namespace ElementDescriptor

theorem infos_eq_ok {elements : List ElementDescriptor} {result : List ElementInfo}
    (h : infos elements = .ok result) :
    List.Forall₂ (fun element info => element.info = .ok info) elements result := by
  induction elements generalizing result with
  | nil =>
      rw [infos] at h
      obtain rfl := Except.ok.inj h
      exact .nil
  | cons element rest ih =>
      rw [infos] at h
      obtain ⟨first, hfirst, h⟩ := bind_eq_ok.1 h
      obtain ⟨others, hothers, h⟩ := bind_eq_ok.1 h
      obtain rfl := Except.ok.inj h
      exact .cons hfirst (ih hothers)

theorem reference_eq_ok {descriptor : ElementDescriptor} {element : FiniteElement} :
    reference descriptor = .ok element ↔
      ∃ info, descriptor.info = .ok info ∧ info.toFiniteElement = element := by
  rw [reference, bind_eq_ok]
  exact exists_congr fun info => and_congr_right fun _ => ⟨Except.ok.inj, congrArg Except.ok⟩

theorem reference_isGrouped {descriptor : ElementDescriptor} {element : FiniteElement}
    (h : reference descriptor = .ok element) : element.IsGrouped := by
  obtain ⟨info, hinfo, rfl⟩ := reference_eq_ok.1 h
  exact (info_grouped descriptor hinfo).isGrouped

/-- A mixed element joins the elements of its parts, which are accepted with it. -/
theorem reference_joins {elements : List ElementDescriptor} {element : FiniteElement}
    (h : reference (.mixed elements) = .ok element) :
    ∃ parts, List.Forall₂ (fun descriptor part => reference descriptor = .ok part) elements parts ∧
      element.Joins parts := by
  obtain ⟨info, hinfo, rfl⟩ := reference_eq_ok.1 h
  rw [ElementDescriptor.info] at hinfo
  obtain ⟨infos, hinfos, hcombine⟩ := bind_eq_ok.1 hinfo
  refine ⟨infos.map ElementInfo.toFiniteElement, ?_, ElementInfo.joins_combine hcombine⟩
  rw [List.forall₂_map_right_iff]
  exact (infos_eq_ok hinfos).imp fun descriptor info hpart => reference_eq_ok.2 ⟨info, hpart, rfl⟩

end ElementDescriptor

end ElementKernel
