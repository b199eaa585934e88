import ElementKernel.Proofs.Pullback.Steps

/-!
# Components under transformation

A component that a Piola map applies to is replaced by the sum over the components of its
sub-element.
-/

namespace ElementKernel

variable {F : Type*} [Field F] {P : PointData F} {uses : List (Nat × Nat)}
  {own : Summation IndexHandle} {a b : Transformation}

theorem raise_eq {range : List Nat} {offset : Nat} {image : MonomialIndex}
    (h : (MonomialIndex.unclassified range).raise offset = .ok image) :
    image = .unclassified (range.map (· + offset)) := by
  obtain ⟨raised, hraised, h⟩ := bind_eq_ok.1 h
  obtain rfl := Except.ok.inj h
  rw [eq_map_of_mapM (fun v w hw => (Word.fit_eq_ok_iff.1 hw).1.symm) hraised]
  rfl

/-- Components that are mapped in common have the common mapping, which is that of one of them. -/
theorem commonMapping_eq {element : FiniteElement} {range : List Nat} {p : ComponentElement}
    (h : Transformation.commonMapping element range = .ok p) {c : Nat} (hc : c ∈ range) :
    (∃ q, element.component c = .ok (some q) ∧ q.mapping = p.mapping) ∧
      ∃ d ∈ range, element.component d = .ok (some p) := by
  obtain ⟨found, hfound, h⟩ := bind_eq_ok.1 h
  have hcomponent : ∀ (d : Nat) (q : ComponentElement),
      ((liftM (element.component d) : Attempt TransformError (Option ComponentElement)) >>=
        Attempt.ofOption (.invalidComponent d element.valueDimension)) = .ok q →
      element.component d = .ok (some q) := by
    intro d q hd
    obtain ⟨option, hoption, hd⟩ := bind_eq_ok.1 hd
    cases option with
    | none => cases hd
    | some r =>
        obtain rfl := Except.ok.inj hd
        exact liftM_eq_ok.1 hoption
  obtain ⟨q, hq, hcq⟩ := exists_mem_of_mapM_left hfound hc
  cases found with
  | nil => cases hq
  | cons first rest =>
      dsimp only at h
      split at h
      next => cases h
      next hany =>
        obtain rfl := Except.ok.inj h
        obtain ⟨d, hd, hdfirst⟩ := exists_mem_of_mapM_right hfound List.mem_cons_self
        refine ⟨⟨q, hcomponent c q hcq, ?_⟩, d, hd, hcomponent d _ hdfirst⟩
        obtain _ | ⟨_, hq⟩ := hq
        · rfl
        · simpa using fun hne => hany (List.any_eq_true.2 ⟨q, hq, decide_eq_true hne⟩)

/-- All components that a Piola map applies to start at the same component. -/
def ElementDescriptor.OnePiolaPart (element : ElementDescriptor) : Prop :=
  ∀ c d p q, element.placement c = some p → element.placement d = some q →
    p.mapping ≠ .affine → q.mapping ≠ .affine → p.offset = q.offset

/-- The sub-element of the values of a component. -/
theorem placement_eq {element : FiniteElement} {descriptor : ElementDescriptor}
    (helement : ElementDescriptor.reference descriptor = .ok element) {key : ComponentKey}
    (hone : ∀ number, key = .free number → descriptor.OnePiolaPart) {range : List Nat}
    (hkey : ∀ v, key = .fixed v → range = [v]) {mapping : Mapping} {offset : Nat}
    (h : Transformation.commonMapping element range = .ok ⟨mapping, offset⟩)
    (hmapping : mapping ≠ .affine) {c : Nat} (hc : c ∈ range) :
    descriptor.placement c = some ⟨mapping, offset⟩ := by
  obtain ⟨⟨q, hq, hqmapping⟩, d, hd, hp⟩ := commonMapping_eq h hc
  rw [ElementDescriptor.reference_component helement] at hq hp
  have hq := Except.ok.inj hq
  have hp := Except.ok.inj hp
  cases key with
  | fixed v =>
      rw [hkey v rfl, List.mem_singleton] at hc hd
      rw [hc, ← hd, hp]
  | free number =>
      have hoffset := hone number rfl c d q _ hq hp (hqmapping ▸ hmapping) hmapping
      rw [hq]
      exact congrArg some (congrArg₂ ComponentElement.mk hqmapping hoffset)

/-- A reference component is introduced and linked with the physical one. -/
theorem adds_image {component : IndexHandle} (h : Tracked uses own [component] a)
    {range : List Nat} {row column : IndexHandle} {kind : JacobianKind}
    {restriction : Option Restriction} {offset : Nat} {mid : Transformation}
    (hlink : (a.insert (.unclassified range)).2.link row column kind restriction offset = .ok mid)
    (hends : (row = component ∧ column = a.arena.next) ∨
      (row = a.arena.next ∧ column = component)) (power : Int)
    (hb : b = { mid with determinant :=
      { mid.determinant with power := mid.determinant.power + power } }) :
    ∃ entry, Links P uses (own ++ [(a.arena.next, range)]) [a.arena.next]
        (a.insert (.unclassified range)).2 mid row column kind offset entry ∧
      Tracked uses (own ++ [(a.arena.next, range)]) [a.arena.next] b ∧ Grows mid b ∧
      Adds a b { own := [(a.arena.next, range)], transforms := [entry], power := power } := by
  have hinsert := Adds.insert a (.unclassified range) [(a.arena.next, range)]
    fun _ hkey => List.mem_singleton.1 hkey
  have hpending : ∀ k ∈ [a.arena.next, component], k = row ∨ k = column ∨ k ∈ [a.arena.next] := by
    intro k hk
    obtain hk | hk := List.mem_cons.1 hk
    · exact Or.inr (Or.inr (List.mem_singleton.2 hk))
    · obtain rfl := List.mem_singleton.1 hk
      obtain ⟨hrow, -⟩ | ⟨-, hcolumn⟩ := hends
      · exact Or.inl hrow.symm
      · exact Or.inr (Or.inl hcolumn.symm)
  obtain ⟨entry, hentry⟩ := links (P := P) (h.insertOwn range) hlink hpending
  have hrecord : Adds mid b { power := power } := by
    subst hb
    exact .record _ rfl rfl rfl (fun k hk => absurd hk List.not_mem_nil)
      (List.append_nil _).symm (List.append_nil _).symm rfl rfl
  refine ⟨entry, hentry, ?_, hrecord.grows, ?_⟩
  · subst hb
    exact hentry.tracked.place rfl rfl (fun _ hk => hk) fun _ hk _ _ _ => Or.inr hk
  · have hadds := hinsert.trans (hentry.adds.trans hrecord)
    simpa [Part.append] using hadds

theorem sum_image {offset dimension : Nat} (f : Nat → F) :
    (((List.range dimension).map (· + offset)).map f).sum =
      ((List.range dimension).map fun j => f (offset + j)).sum := by
  rw [List.map_map]
  refine congrArg List.sum (List.map_congr_left fun j _ => ?_)
  exact congrArg f (Nat.add_comm j offset)

/-- The reference component is summed over the components of its sub-element. -/
theorem performs_image {offset dimension : Nat} {entry : JacobianEntry} {power : Int}
    {component : IndexHandle} {key : ComponentKey} {pending : List IndexHandle}
    (htracked : Tracked uses (own ++ [(a.arena.next, (List.range dimension).map (· + offset))])
      pending b)
    (hadds : Adds a b { own := [(a.arena.next, (List.range dimension).map (· + offset))],
                        transforms := [entry], power := power })
    (hresolves : a.Resolves key component) (hlt : component < a.arena.next)
    (matrix : Int → Int → F)
    (hentry : ∀ fixed assignment value, Reading P fixed assignment b value →
      P.entry fixed value entry =
        matrix ((value component : Int) - offset) ((value a.arena.next : Int) - offset)) :
    Performs P a b { own := [(a.arena.next, (List.range dimension).map (· + offset))],
                     transforms := [entry], power := power } [a.arena.next] fun assignment f =>
      P.determinant ^ power * ((List.range dimension).map fun j : Nat =>
        matrix ((key.value assignment : Int) - offset) j * f [offset + j]).sum where
  adds := hadds
  realizes := by
    intro fixed assignment value hvalue f
    rw [sum_entry, sum_image]
    simp only [List.map_cons, List.map_nil, Function.update_self]
    congr 2
    refine List.map_congr_left fun j _ => ?_
    have hreading := hvalue.update htracked (own.mem_keys_concat _ _) (offset + j)
    rw [hentry fixed assignment _ hreading, Function.update_self, Function.update_of_ne hlt.ne,
      hresolves.value_eq (hvalue.mono hadds.grows)]
    simp
  below := by
    intro k hk
    obtain rfl := List.mem_singleton.1 hk
    exact htracked.own_lt (own.mem_keys_concat _ _)

theorem performs_mapComponent {component : IndexHandle} (h : Tracked uses own [component] a)
    {element : FiniteElement} {descriptor : ElementDescriptor}
    (helement : ElementDescriptor.reference descriptor = .ok element) {key : ComponentKey}
    (hone : ∀ number, key = .free number → descriptor.OnePiolaPart)
    (hresolves : a.Resolves key component) {restriction : Option Restriction}
    {reference : IndexHandle}
    (hmap : a.mapComponent element restriction component = .ok (reference, b)) :
    ∃ part, Tracked uses (own ++ part.own) [reference] b ∧
      Performs P a b part [reference] fun assignment =>
        P.component descriptor element.geometricDimension [key.value assignment] := by
  unfold Transformation.mapComponent at hmap
  obtain ⟨index, hindex, hmap⟩ := bind_eq_ok.1 hmap
  have hget : a.arena.get? component = some index :=
    Checked.get_eq_ok_iff.1 (liftM_eq_ok.1 hindex)
  obtain ⟨⟨mapping, offset⟩, hcommon, hmap⟩ := bind_eq_ok.1 hmap
  have hfixed : ∀ v, key = .fixed v → index.range = [v] := by
    rintro v rfl
    obtain ⟨other, hother, -, hrange⟩ := hresolves
    obtain rfl := Option.some.inj (hother.symm.trans hget)
    exact hrange
  cases mapping with
  | affine =>
      obtain ⟨rfl, rfl⟩ := Prod.mk.inj (Except.ok.inj hmap)
      refine ⟨{}, by rwa [List.append_nil], .refl a, fun fixed assignment value hvalue f => ?_,
        fun k hk => ?_⟩
      · have hmem := hresolves.value_mem hvalue hget
        obtain ⟨⟨⟨mapping, start⟩, hq, rfl⟩, -⟩ := commonMapping_eq hcommon hmem
        rw [ElementDescriptor.reference_component helement, hresolves.value_eq hvalue] at hq
        simp [PointData.component, Except.ok.inj hq, hresolves.value_eq hvalue]
      · obtain rfl := List.mem_singleton.1 hk
        exact IndexArena.lt_next hget
  | contravariantPiola =>
      obtain ⟨image, himage, hmap⟩ := bind_eq_ok.1 hmap
      obtain rfl := raise_eq (liftM_eq_ok.1 himage)
      obtain ⟨mid, hlink, hmap⟩ := bind_eq_ok.1 hmap
      obtain ⟨rfl, hb⟩ := Prod.mk.inj (Except.ok.inj hmap)
      obtain ⟨entry, hentry, htracked, hgrows, hadds⟩ :=
        adds_image (P := P) h hlink (Or.inl ⟨rfl, rfl⟩) (-1) hb.symm
      have himage := performs_image htracked hadds hresolves (IndexArena.lt_next hget) P.jacobian
        fun fixed assignment value hvalue => hentry.entry_eq (hvalue.mono hgrows)
      refine ⟨_, htracked, himage.congr fun fixed assignment value hvalue f => ?_⟩
      have hreading := hvalue.mono hadds.grows
      have hplace := placement_eq helement hone hfixed hcommon (by decide)
        (hresolves.value_mem hreading hget)
      rw [hresolves.value_eq hreading] at hplace
      simp [PointData.component, hplace]
  | covariantPiola =>
      obtain ⟨image, himage, hmap⟩ := bind_eq_ok.1 hmap
      obtain rfl := raise_eq (liftM_eq_ok.1 himage)
      obtain ⟨mid, hlink, hmap⟩ := bind_eq_ok.1 hmap
      obtain ⟨rfl, rfl⟩ := Prod.mk.inj (Except.ok.inj hmap)
      obtain ⟨entry, hentry, htracked, hgrows, hadds⟩ :=
        adds_image (P := P) (b := mid) h hlink (Or.inr ⟨rfl, rfl⟩) 0 (by rw [Int.add_zero])
      -- the reference component selects the row here
      have himage := performs_image htracked hadds hresolves (IndexArena.lt_next hget)
        (fun i j => P.inverse j i)
        fun fixed assignment value hvalue => hentry.entry_eq (hvalue.mono hgrows)
      refine ⟨_, htracked, himage.congr fun fixed assignment value hvalue f => ?_⟩
      have hreading := hvalue.mono hadds.grows
      have hplace := placement_eq helement hone hfixed hcommon (by decide)
        (hresolves.value_mem hreading hget)
      rw [hresolves.value_eq hreading] at hplace
      simp [PointData.component, hplace]

end ElementKernel
