import ElementKernel.Proofs.Roles.Contraction
import ElementKernel.Proofs.Roles.Stops

/-!
# Texts of transformed monomials

A transformed monomial refers to indices of its own arena only, and each of them can be written: it
has no role, it has a role and an id, or it is fixed to one value.  So whatever the provider of the
elements is, a monomial that is transformed has a text (`RawMonomial.exists_text`).
-/

namespace ElementKernel

namespace MonomialIndex

theorem IsInitial.exists_text {arguments : Nat → Prop} {index : MonomialIndex}
    (h : index.IsInitial arguments) : ∃ text, index.text = .ok text := by
  obtain ⟨role, range, id⟩ := index
  unfold text
  obtain hnone | ⟨hfixed, v, hrange⟩ | ⟨n, hprimary, hid, -⟩ := h
  · obtain rfl : role = none := hnone
    exact ⟨_, rfl⟩
  · obtain rfl : role = some .fixed := hfixed
    obtain rfl : range = [v] := hrange
    exact ⟨_, rfl⟩
  · obtain rfl : role = some .primary := hprimary
    obtain rfl : id = some n := hid
    exact ⟨_, rfl⟩

theorem exists_text_classifyAs (index : MonomialIndex) {role : IndexRole} (hrole : role.IsSummed)
    (id : Nat) : ∃ text, (index.classifyAs role id).text = .ok text := by
  obtain rfl | rfl | rfl := hrole
  all_goals exact ⟨_, rfl⟩

end MonomialIndex

/-- Classification leaves indices that can be written. -/
theorem Balanced.exists_textAt {arguments : Nat → Prop} {keys : List ComponentKey} {size : Nat}
    {state : Transformation} (h : Balanced arguments keys size [] state)
    {classified : Classification} (hvisited : state.VisitedAll classified) {handle : IndexHandle}
    (hmem : handle ∈ state.footprint) : ∃ text, classified.arena.textAt handle = .ok text := by
  obtain ⟨index, hget⟩ := IndexArena.exists_get? (h.inside handle (List.mem_append_left _ hmem))
  obtain ⟨found, hfound, text, htext⟩ : ∃ found,
      classified.arena.get? handle = some found ∧ ∃ text, found.text = .ok text := by
    obtain ⟨-, hsame⟩ | ⟨role, i, old, hplace, -, hnew⟩ := hvisited.get?_cases handle
    · exact ⟨index, hsame.trans hget, (h.initial handle index hget).exists_text⟩
    · have hrole := (Classification.mem_numbered.1 (List.mem_of_getElem? hplace)).2
      exact ⟨_, hnew, old.exists_text_classifyAs (Classification.isSummed_of_newRole? hrole) _⟩
  exact ⟨text, bind_eq_ok.2 ⟨found, Checked.get_eq_ok_iff.2 hfound, htext⟩⟩

/-! ## Parts of a monomial -/

variable {arena : IndexArena}

theorem JacobianEntry.exists_text {entry : JacobianEntry}
    (hrow : ∃ text, arena.textAt entry.row = .ok text)
    (hcolumn : ∃ text, arena.textAt entry.column = .ok text) :
    ∃ text, entry.text arena = .ok text := by
  obtain ⟨row, hrow⟩ := hrow
  obtain ⟨column, hcolumn⟩ := hcolumn
  unfold text
  rw [hrow, hcolumn]
  cases entry.kind
  all_goals exact ⟨_, rfl⟩

theorem BasisFunction.exists_text {v : BasisFunction}
    (h : ∀ k ∈ v.handles, ∃ text, arena.textAt k = .ok text) :
    ∃ text, v.text arena = .ok text := by
  simp only [handles, List.forall_mem_cons, List.forall_mem_append] at h
  obtain ⟨⟨index, hindex⟩, hcomponents, hderivatives⟩ := h
  obtain ⟨components, hcomponents⟩ := exists_mapM_eq_ok.2 hcomponents
  have hdirections : ∀ d ∈ v.derivatives, ∃ text,
      (do return "d/dX_" ++ (← arena.textAt d) : Checked String) = .ok text := by
    intro d hd
    obtain ⟨text, htext⟩ := hderivatives d hd
    exact ⟨_, bind_eq_ok.2 ⟨text, htext, rfl⟩⟩
  obtain ⟨directions, hdirections⟩ := exists_mapM_eq_ok.2 hdirections
  unfold text IndexArena.listText
  rw [hcomponents, hdirections, hindex]
  cases v.components.isEmpty <;> cases v.derivatives.isEmpty <;> exact ⟨_, rfl⟩

theorem TransformedMonomial.exists_text {m : TransformedMonomial}
    (h : ∀ k ∈ m.internalHandles ++ m.externalHandles, ∃ text, m.arena.textAt k = .ok text) :
    ∃ text, m.text = .ok text := by
  simp only [internalHandles, externalHandles, internalOccurrences, externalOccurrences,
    List.forall_mem_append, List.forall_mem_map, List.forall_mem_flatMap] at h
  obtain ⟨hbasis, ⟨hcoefficients, hrows⟩, hcolumns⟩ := h
  have hvalues : ∀ c ∈ m.coefficients, ∃ text,
      (do return "c_" ++ (← m.arena.textAt c.index) : Checked String) = .ok text := by
    intro c hc
    obtain ⟨text, htext⟩ := hcoefficients c hc
    exact ⟨_, bind_eq_ok.2 ⟨text, htext, rfl⟩⟩
  obtain ⟨coefficients, hcoefficients⟩ := exists_mapM_eq_ok.2 hvalues
  obtain ⟨transforms, htransforms⟩ := exists_mapM_eq_ok.2 fun entry hentry =>
    JacobianEntry.exists_text (hrows entry hentry) (hcolumns entry hentry)
  obtain ⟨basisFunctions, hbasisFunctions⟩ := exists_mapM_eq_ok.2 fun v hv =>
    BasisFunction.exists_text (hbasis v hv)
  unfold text
  rw [hcoefficients, htransforms, hbasisFunctions]
  exact ⟨_, rfl⟩

theorem RawMonomial.exists_text {monomial : RawMonomial} {provider : ElementProvider}
    {m : TransformedMonomial} (h : monomial.transform provider = .ok m) :
    ∃ text, m.text = .ok text := by
  obtain ⟨state, hfold, hfinish⟩ := bind_eq_ok.1 h
  have hbalanced := (@factors_yield False (fun _ => True) provider monomial.factors False.elim
    fun _ _ _ _ => trivial).ok state hfold
  obtain ⟨classified, hvisited, hok⟩ | ⟨_, -, -, _, _, _, -, hstop⟩ | ⟨-, hstop⟩ :=
    hbalanced.finish_cases monomial.coefficient
  · obtain rfl := Except.ok.inj (hfinish.symm.trans hok)
    exact TransformedMonomial.exists_text fun k hk => hbalanced.exists_textAt hvisited hk
  · rw [hstop] at hfinish
    cases hfinish
  · rw [hstop] at hfinish
    cases hfinish

end ElementKernel
