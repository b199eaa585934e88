import ElementKernel.Proofs.Pullback.Keys

/-!
# Steps of a transformation

Each operation of the transformation adds a part, and the part realizes what the operation stands
for: the expansion of a coefficient function, a Piola map, or a chain of derivatives.
-/

namespace ElementKernel

variable {F : Type*} [Field F] {P : PointData F} {uses : List (Nat × Nat)}
  {own : Summation IndexHandle} {pending : List IndexHandle} {a b : Transformation}

/-- The step from `a` to `b` adds a part that realizes a target with some handles. -/
structure Performs (P : PointData F) (a b : Transformation) (part : Part)
    (handles : List IndexHandle) (target : (Nat → Nat) → (List Nat → F) → F) : Prop where
  adds : Adds a b part
  realizes : part.Realizes P b handles target
  below : ∀ k ∈ handles, k < b.arena.next

theorem Performs.congr {part : Part} {handles : List IndexHandle}
    {target other : (Nat → Nat) → (List Nat → F) → F} (h : Performs P a b part handles target)
    (heq : ∀ fixed assignment value, Reading P fixed assignment b value → ∀ f,
      target assignment f = other assignment f) : Performs P a b part handles other where
  adds := h.adds
  realizes fixed assignment value hvalue f :=
    (h.realizes fixed assignment value hvalue f).trans (heq fixed assignment value hvalue f)
  below := h.below

@[simp] theorem Part.sum_empty (P : PointData F) (fixed : IndexHandle → Bool)
    (body : (IndexHandle → Nat) → F) (value : IndexHandle → Nat) :
    ({} : Part).sum P fixed body value = body value := by
  simp [sum, weight, sumOver]

/-! ## Origins -/

theorem performs_origin (h : Tracked uses own pending a) (spaceDimension : Nat)
    (origin : FactorOrigin) {index : IndexHandle}
    (hb : a.resolveOrigin spaceDimension origin = (index, b)) :
    ∃ part, Tracked uses (own ++ part.own) pending b ∧ Performs P a b part [index]
      fun _ f => P.expansion spaceDimension origin fun dof => f [dof] := by
  cases origin with
  | argument number =>
      obtain ⟨rfl, rfl⟩ := Prod.mk.inj hb
      have hplain : (MonomialIndex.primary number (List.range spaceDimension)).IsPlain :=
        Or.inr (Or.inr ⟨number, rfl, rfl⟩)
      refine ⟨{}, ?_, .insert a _ [] fun _ hkey => absurd hkey List.not_mem_nil, ?_, ?_⟩
      · rw [List.append_nil]
        exact h.insertFixed hplain (by simp [MonomialIndex.primary])
      · intro fixed assignment value hvalue f
        have hprimary := hvalue.primary a.arena.next _ number
          (IndexArena.get?_insert_next a.arena (.primary number (List.range spaceDimension)))
          rfl rfl
        simp [hprimary, PointData.expansion]
      · rintro k hk
        obtain rfl := List.mem_singleton.1 hk
        exact IndexArena.lt_next (IndexArena.get?_insert_next _ _)
  | coefficient number =>
      obtain ⟨rfl, rfl⟩ := Prod.mk.inj hb
      have hown := h.insertOwn (List.range spaceDimension)
      have hinsert := Adds.insert a (.unclassified (List.range spaceDimension))
        [(a.arena.next, List.range spaceDimension)] fun _ hkey => List.mem_singleton.1 hkey
      refine ⟨{ own := [(a.arena.next, List.range spaceDimension)],
                coefficients := [⟨a.arena.next, number⟩] }, ?_, ⟨?_, ?_, ?_⟩⟩
      · refine hown.place rfl rfl (fun k hk => ?_) fun k hk index hget hnone => ?_
        · simp only [Transformation.footprint, externalOccurrences, List.map_append,
            List.mem_append] at hk ⊢
          tauto
        · obtain rfl | hk := List.mem_cons.1 hk
          · exact Or.inl (by simp [Transformation.footprint, externalOccurrences])
          · exact Or.inr hk
      · have hreads : ∀ k ∈ ({ coefficients := [⟨a.arena.next, number⟩] } : Part).reads,
            k < (a.arena.insert (.unclassified (List.range spaceDimension))).next := by
          intro k hk
          obtain rfl : k = a.arena.next := by
            simpa [Part.reads, externalOccurrences] using hk
          exact IndexArena.lt_next (IndexArena.get?_insert_next _ _)
        have hrecord := Adds.record (a := (a.insert (.unclassified (List.range spaceDimension))).2)
          (b := { (a.insert (.unclassified (List.range spaceDimension))).2 with
            coefficients := a.coefficients ++ [⟨a.arena.next, number⟩] })
          { coefficients := [⟨a.arena.next, number⟩] } rfl rfl rfl hreads rfl
          (List.append_nil _).symm (Int.add_zero _).symm rfl
        exact hinsert.trans hrecord
      · intro fixed assignment value _ f
        simp [Part.sum, Part.weight, sumOver, PointData.coefficient, PointData.expansion]
      · rintro k hk
        obtain rfl := List.mem_singleton.1 hk
        exact IndexArena.lt_next (IndexArena.get?_insert_next _ _)

/-! ## Entries of the Jacobian -/

/-- What making an endpoint local does. -/
structure Localizes (P : PointData F) (uses : List (Nat × Nat)) (own : Summation IndexHandle)
    (pending : List IndexHandle) (a b : Transformation) (handle result : IndexHandle)
    (offset : Nat) : Prop where
  tracked : Tracked uses own pending b
  adds : Adds a b {}
  below : result < b.arena.next
  keeps : ∃ index, a.arena.get? handle = some index ∧ (index.role = none → result = handle)
  endpoint : ∀ fixed assignment value, Reading P fixed assignment b value →
    PointData.endpoint fixed value offset result = (value handle : Int) - offset

theorem Localizes.eq_of_unclassified {c : Transformation} {handle result : IndexHandle}
    {offset : Nat} (h : Localizes P uses own pending a b handle result offset)
    (hgrows : Grows b c) {index : MonomialIndex} (hget : c.arena.get? handle = some index)
    (hnone : index.role = none) : result = handle := by
  obtain ⟨old, hold, hkeeps⟩ := h.keeps
  have hnew := (h.adds.grows.trans hgrows).get? handle old hold
  obtain rfl := Option.some.inj (hnew.symm.trans hget)
  exact hkeeps hnone

/-- The endpoint of an entry is the value of the given handle less the offset in any case. -/
theorem localizes (h : Tracked uses own pending a) {handle result : IndexHandle}
    {offset : Nat} {arena : IndexArena}
    (hlocal : JacobianEntry.localize a.arena handle offset = .ok (result, arena)) :
    Localizes P uses own pending a { a with arena } handle result offset := by
  unfold JacobianEntry.localize at hlocal
  obtain ⟨index, hindex, hlocal⟩ := bind_eq_ok.1 hlocal
  have hget : a.arena.get? handle = some index := Checked.get_eq_ok_iff.1 (liftM_eq_ok.1 hindex)
  split at hlocal
  next hfixed =>
    have hrole : index.role = some .fixed := by simpa [MonomialIndex.isFixed] using hfixed
    obtain ⟨v, hrange⟩ : ∃ v, index.range = [v] := by
      rcases h.plain handle index hget with hnone | ⟨-, hrange⟩ | ⟨n, hprimary, -⟩
      · simp [hrole] at hnone
      · exact hrange
      · simp [hrole] at hprimary
    obtain ⟨component, hcomponent, hlocal⟩ := bind_eq_ok.1 hlocal
    obtain rfl : component = v := by
      have hvalue := Checked.get_eq_ok_iff.1 (liftM_eq_ok.1 hcomponent)
      simpa [hrange] using hvalue.symm
    split at hlocal
    next => cases hlocal
    next hle =>
      obtain ⟨low, hlow, hlocal⟩ := bind_eq_ok.1 hlocal
      have hlow := liftM_eq_ok.1 hlow
      obtain ⟨rfl, rfl⟩ := Prod.mk.inj (Except.ok.inj hlocal)
      have hlowered : low = { index with range := [component - offset] } := by
        rw [MonomialIndex.lower, hrange] at hlow
        split at hlow
        · exact (Except.ok.inj hlow).symm
        · cases hlow
      have hrole' : low.role = some .fixed := by rw [hlowered, hrole]
      have hrange' : low.range = [component - offset] := by rw [hlowered]
      have hinserted := IndexArena.get?_insert_next a.arena low
      refine ⟨h.insertFixed (Or.inr (Or.inl ⟨hrole', _, hrange'⟩)) (by simp [hrole']),
        .insert a low [] fun _ hkey => absurd hkey List.not_mem_nil,
        IndexArena.lt_next hinserted, ⟨index, hget, fun hnone => ?_⟩, ?_⟩
      · simp [hrole] at hnone
      · intro fixed assignment value hvalue
        have hnew := hvalue.fixed a.arena.next low _ hinserted hrole' hrange'
        have hold := hvalue.fixed handle index component (IndexArena.get?_insert hget low) hrole
          hrange
        have hisFixed := hvalue.isFixed a.arena.next low hinserted
        rw [PointData.endpoint, hisFixed, MonomialIndex.isFixed, hrole', hnew, hold]
        simp only [decide_true, if_true]
        omega
  next hfixed =>
    obtain ⟨rfl, rfl⟩ := Prod.mk.inj (Except.ok.inj hlocal)
    refine ⟨h, .refl a, IndexArena.lt_next hget, ⟨index, hget, fun _ => rfl⟩, ?_⟩
    intro fixed assignment value hvalue
    rw [PointData.endpoint, hvalue.isFixed handle index hget, if_neg hfixed]

/-- What an entry between two indices does. -/
structure Links (P : PointData F) (uses : List (Nat × Nat)) (own : Summation IndexHandle)
    (pending : List IndexHandle) (a b : Transformation) (row column : IndexHandle)
    (kind : JacobianKind) (offset : Nat) (entry : JacobianEntry) : Prop where
  tracked : Tracked uses own pending b
  adds : Adds a b { transforms := [entry] }
  kind : entry.kind = kind
  row : ∀ fixed assignment value, Reading P fixed assignment b value →
    PointData.endpoint fixed value entry.offset entry.row = (value row : Int) - offset
  column : ∀ fixed assignment value, Reading P fixed assignment b value →
    PointData.endpoint fixed value entry.offset entry.column = (value column : Int) - offset

theorem links {remaining : List IndexHandle} (h : Tracked uses own pending a)
    {row column : IndexHandle} {kind : JacobianKind} {restriction : Option Restriction}
    {offset : Nat} (hlink : a.link row column kind restriction offset = .ok b)
    (hpending : ∀ k ∈ pending, k = row ∨ k = column ∨ k ∈ remaining) :
    ∃ entry, Links P uses own remaining a b row column kind offset entry := by
  unfold Transformation.link JacobianEntry.link at hlink
  split at hlink
  next arena entry hentry =>
    obtain rfl := Except.ok.inj hlink
    split at hentry
    next => cases (Prod.mk.inj hentry).2
    next row' arena' hrow =>
      split at hentry
      next => cases (Prod.mk.inj hentry).2
      next column' arena'' hcolumn =>
        obtain ⟨rfl, hentry⟩ := Prod.mk.inj hentry
        cases hentry
        have hfirst := localizes (P := P) h hrow
        have hsecond := localizes (P := P) hfirst.tracked hcolumn
        have hreads : ∀ k ∈ ({ transforms := [⟨row', column', kind, restriction, offset⟩] } :
            Part).reads, k < arena''.next := by
          intro k hk
          have hk : k = row' ∨ k = column' := by
            simpa [Part.reads, externalOccurrences] using hk
          obtain rfl | rfl := hk
          · exact hfirst.below.trans_le hsecond.adds.grows.next
          · exact hsecond.below
        have hrecord := Adds.record (a := { a with arena := arena'' })
          (b := { a with
            arena := arena''
            transforms := a.transforms ++ [⟨row', column', kind, restriction, offset⟩] })
          { transforms := [⟨row', column', kind, restriction, offset⟩] } rfl rfl rfl hreads
          (List.append_nil _).symm rfl (Int.add_zero _).symm rfl
        refine ⟨⟨row', column', kind, restriction, offset⟩, ?_,
          (hfirst.adds.trans hsecond.adds).trans hrecord, rfl,
          fun fixed assignment value hvalue => ?_, fun fixed assignment value hvalue => ?_⟩
        · refine hsecond.tracked.place rfl rfl hrecord.footprint fun k hk index hget hnone => ?_
          obtain rfl | rfl | hk := hpending k hk
          · rw [← hfirst.eq_of_unclassified hsecond.adds.grows hget hnone]
            exact Or.inl (by simp [Transformation.footprint, externalOccurrences])
          · rw [← hsecond.eq_of_unclassified (.refl _) hget hnone]
            exact Or.inl (by simp [Transformation.footprint, externalOccurrences])
          · exact Or.inr hk
        · exact hfirst.endpoint fixed assignment value
            (hvalue.mono (hsecond.adds.grows.trans hrecord.grows))
        · exact hsecond.endpoint fixed assignment value (hvalue.mono hrecord.grows)
  next => cases hlink

theorem Links.entry_eq {row column : IndexHandle} {kind : JacobianKind} {offset : Nat}
    {entry : JacobianEntry} (h : Links P uses own pending a b row column kind offset entry)
    {fixed : IndexHandle → Bool} {assignment : Nat → Nat} {value : IndexHandle → Nat}
    (hvalue : Reading P fixed assignment b value) :
    P.entry fixed value entry =
      P.matrix kind ((value row : Int) - offset) ((value column : Int) - offset) := by
  rw [PointData.entry, h.kind, h.row fixed assignment value hvalue,
    h.column fixed assignment value hvalue]

/-! ## Derivatives -/

theorem freeUses_cons (dimension : Nat) (key : ComponentKey) (keys : List ComponentKey) :
    freeUses dimension (key :: keys) = freeUses dimension [key] ++ freeUses dimension keys := by
  rw [freeUses, ← List.singleton_append, List.filterMap_append]
  rfl

theorem sum_entry {key : IndexHandle} {range : List Nat} {entry : JacobianEntry} {power : Int}
    (fixed : IndexHandle → Bool) (body : (IndexHandle → Nat) → F) (value : IndexHandle → Nat) :
    ({ own := [(key, range)], transforms := [entry], power := power } : Part).sum P fixed body
      value = P.determinant ^ power *
        (range.map fun v => P.entry fixed (Function.update value key v) entry *
          body (Function.update value key v)).sum := by
  simp [Part.sum, Part.weight, sumOver]

/-- A derivative introduces a reference direction and links it with the physical one. -/
theorem adds_gradient (h : Tracked uses own pending a) {dimension : Nat} {key : ComponentKey}
    {direction : IndexHandle × Transformation} {restriction : Option Restriction}
    (hdirection : (a.insert (.unclassified (List.range dimension))).2.resolveDirection dimension
      key = direction)
    (hlink : direction.2.link a.arena.next direction.1 .inverse restriction 0 = .ok b) :
    ∃ entry, Tracked (uses ++ freeUses dimension [key])
        (own ++ [(a.arena.next, List.range dimension)]) pending b ∧
      Adds a b { own := [(a.arena.next, List.range dimension)], transforms := [entry] } ∧
      a.arena.next < b.arena.next ∧
      ∀ fixed assignment value, Reading P fixed assignment b value →
        P.entry fixed value entry = P.inverse (value a.arena.next) (key.value assignment) := by
  have hgradient := h.insertOwn (List.range dimension)
  have hinsert := Adds.insert a (.unclassified (List.range dimension))
    [(a.arena.next, List.range dimension)] fun _ hkey => List.mem_singleton.1 hkey
  have hresolves := resolvesTo_direction hgradient dimension key
  rw [hdirection] at hresolves
  have hpending : ∀ k ∈ direction.1 :: a.arena.next :: pending,
      k = a.arena.next ∨ k = direction.1 ∨ k ∈ pending := by
    intro k hk
    obtain rfl | hk := List.mem_cons.1 hk
    · exact Or.inr (Or.inl rfl)
    · exact (List.mem_cons.1 hk).imp_right Or.inr
  obtain ⟨entry, hentry⟩ := links (P := P) hresolves.tracked hlink hpending
  refine ⟨entry, hentry.tracked, hinsert.trans (hresolves.adds.trans hentry.adds), ?_, ?_⟩
  · exact (hgradient.own_lt (own.mem_keys_concat _ _)).trans_le
      (hresolves.adds.grows.trans hentry.adds.grows).next
  · intro fixed assignment value hvalue
    have hkey := (hresolves.resolves.mono hentry.adds.grows).value_eq hvalue
    rw [hentry.entry_eq hvalue, hkey]
    exact congrArg₂ P.inverse (Int.sub_zero _) (Int.sub_zero _)

theorem performs_derivatives (h : Tracked uses own pending a) {dimension : Nat}
    {restriction : Option Restriction} {keys : List ComponentKey} {gradients : List IndexHandle}
    (hadd : a.addDerivatives dimension restriction keys = .ok (gradients, b)) :
    ∃ part, Tracked (uses ++ freeUses dimension keys) (own ++ part.own) pending b ∧
      Performs P a b part gradients fun assignment =>
        P.derivative dimension (keys.map (·.value assignment)) := by
  induction keys generalizing a uses own gradients with
  | nil =>
      obtain ⟨rfl, rfl⟩ := Prod.mk.inj (Except.ok.inj hadd)
      refine ⟨{}, ?_, .refl a, ?_, fun k hk => absurd hk List.not_mem_nil⟩
      · simpa [freeUses] using h
      · intro fixed assignment value _ f
        simp [PointData.derivative]
  | cons key keys ih =>
      rw [Transformation.addDerivatives] at hadd
      obtain ⟨linked, hlink, hadd⟩ := bind_eq_ok.1 hadd
      obtain ⟨⟨rest, last⟩, hrest, hadd⟩ := bind_eq_ok.1 hadd
      obtain ⟨rfl, rfl⟩ := Prod.mk.inj (Except.ok.inj hadd)
      obtain ⟨entry, hlinked, hstep, hlater, hentry⟩ := adds_gradient (P := P) h rfl hlink
      obtain ⟨part, htracked, hpart⟩ := ih hlinked hrest
      refine ⟨Part.append { own := [(a.arena.next, List.range dimension)], transforms := [entry] }
        part, ?_, hstep.trans hpart.adds, ?_, ?_⟩
      · rw [freeUses_cons, ← List.append_assoc, Part.append, ← List.append_assoc]
        exact htracked
      · intro fixed assignment value hvalue f
        have hown : ∀ k ∈ Summation.keys part.own, k ∈ Summation.keys
            (own ++ [(a.arena.next, List.range dimension)] ++ part.own) := fun k hk => by
          rw [Summation.keys, List.map_append]
          exact List.mem_append_right _ hk
        rw [Part.sum_append hstep.reads hpart.adds.fresh, sum_entry, zpow_zero, one_mul]
        simp only [List.map_cons, PointData.derivative]
        congr 1
        refine List.map_congr_left fun γ _ => ?_
        -- the value of the gradient is chosen, and the later part does not change it
        have hreading : Reading P fixed assignment last (Function.update value a.arena.next γ) :=
          hvalue.update htracked (by simp [Summation.keys]) γ
        have hrest : part.sum P fixed (fun v => f (v a.arena.next :: rest.map v))
            (Function.update value a.arena.next γ) =
            part.sum P fixed (fun v => f (γ :: rest.map v))
              (Function.update value a.arena.next γ) := by
          refine Part.sum_congr hpart.adds.fresh htracked hown hreading fun v _ hv => ?_
          rw [hv a.arena.next hlater, Function.update_self]
        rw [hrest, hpart.realizes fixed assignment _ hreading fun γs => f (γ :: γs),
          hentry fixed assignment _ (hreading.mono hpart.adds.grows), Function.update_self]
      · intro k hk
        obtain rfl | hk := List.mem_cons.1 hk
        · exact hlater.trans_le hpart.adds.grows.next
        · exact hpart.below k hk

end ElementKernel
