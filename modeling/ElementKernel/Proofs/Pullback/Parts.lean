import ElementKernel.Proofs.Pullback.Bookkeeping
import Mathlib.Tactic.Ring

/-!
# Parts of a transformation

Each step of a transformation introduces indices and records coefficient values and entries of the
Jacobian: a `Part`.  The sum of a part runs over its own indices; the sum of two parts in a row is
the one sum inside of the other.  What a part means is said for every `Reading`, which is an
assignment of handles that agrees with an assignment of the free keys.
-/

namespace ElementKernel

variable {F : Type*} [Field F]

/-- What a step adds to a transformation. -/
structure Part where
  own : Summation IndexHandle := []
  coefficients : List CoefficientValue := []
  transforms : List JacobianEntry := []
  power : Int := 0

namespace Part

def append (first second : Part) : Part where
  own := first.own ++ second.own
  coefficients := first.coefficients ++ second.coefficients
  transforms := first.transforms ++ second.transforms
  power := first.power + second.power

/-- The handles that the recorded values read. -/
def reads (part : Part) : List IndexHandle :=
  externalOccurrences part.coefficients part.transforms

/-- The recorded values under an assignment. -/
def weight (P : PointData F) (fixed : IndexHandle → Bool) (part : Part)
    (value : IndexHandle → Nat) : F :=
  (part.coefficients.map (P.coefficient value)).prod *
    (part.transforms.map (P.entry fixed value)).prod

/-- A body summed over the indices of a part with its recorded values. -/
def sum (P : PointData F) (fixed : IndexHandle → Bool) (part : Part)
    (body : (IndexHandle → Nat) → F) (value : IndexHandle → Nat) : F :=
  P.determinant ^ part.power *
    sumOver part.own (fun v => part.weight P fixed v * body v) value

theorem empty_append (part : Part) : ({} : Part).append part = part := by
  simp [append]

variable {P : PointData F} {fixed : IndexHandle → Bool}

theorem weight_append (first second : Part) (value : IndexHandle → Nat) :
    (first.append second).weight P fixed value =
      first.weight P fixed value * second.weight P fixed value := by
  simp only [weight, append, List.map_append, List.prod_append]
  ring

theorem weight_congr {part : Part} {v w : IndexHandle → Nat} (h : ∀ k ∈ part.reads, v k = w k) :
    part.weight P fixed v = part.weight P fixed w := by
  have hcoefficients : part.coefficients.map (P.coefficient v) =
      part.coefficients.map (P.coefficient w) := by
    refine List.map_congr_left fun c hc => ?_
    rw [PointData.coefficient, PointData.coefficient, h c.index]
    exact List.mem_append_left _ (List.mem_append_left _ (List.mem_map_of_mem hc))
  have htransforms : part.transforms.map (P.entry fixed v) =
      part.transforms.map (P.entry fixed w) := by
    refine List.map_congr_left fun t ht => ?_
    have hrow : v t.row = w t.row :=
      h t.row (List.mem_append_left _ (List.mem_append_right _ (List.mem_map_of_mem ht)))
    have hcolumn : v t.column = w t.column :=
      h t.column (List.mem_append_right _ (List.mem_map_of_mem ht))
    simp only [PointData.entry, PointData.endpoint, hrow, hcolumn]
  rw [weight, weight, hcoefficients, htransforms]

theorem sum_mul_left {part : Part} (c : F) (body : (IndexHandle → Nat) → F)
    (value : IndexHandle → Nat) :
    part.sum P fixed (fun v => c * body v) value = c * part.sum P fixed body value := by
  have hbody : (fun v => part.weight P fixed v * (c * body v)) =
      fun v => c * (part.weight P fixed v * body v) := by
    funext v
    ring
  rw [sum, hbody, sumOver_mul_const, sum]
  ring

end Part

/-- Assignments that agree on the handles below a bound. -/
def AgreeBelow (bound : IndexHandle) (value v : IndexHandle → Nat) : Prop :=
  ∀ k < bound, v k = value k

theorem Summation.keeps_agreeBelow {entries : Summation IndexHandle} {bound : IndexHandle}
    (h : ∀ k ∈ entries.keys, bound ≤ k) (value : IndexHandle → Nat) :
    entries.Keeps (AgreeBelow bound value) := by
  intro v hv entry hentry x _ k hk
  have hne : k ≠ entry.1 := by
    rintro rfl
    exact Nat.not_lt.2 (h _ (List.mem_map_of_mem hentry)) hk
  rw [Function.update_of_ne hne]
  exact hv k hk

/-- A later part is summed inside of an earlier one. -/
theorem Part.sum_append {P : PointData F} {fixed : IndexHandle → Bool} {first second : Part}
    {bound : IndexHandle} (hreads : ∀ k ∈ first.reads, k < bound)
    (hfresh : ∀ k ∈ second.own.keys, bound ≤ k) (body : (IndexHandle → Nat) → F)
    (value : IndexHandle → Nat) :
    (first.append second).sum P fixed body value =
      first.sum P fixed (second.sum P fixed body) value := by
  have hinner : ∀ v, sumOver second.own
      (fun w => (first.append second).weight P fixed w * body w) v =
        first.weight P fixed v *
          sumOver second.own (fun w => second.weight P fixed w * body w) v := by
    intro v
    rw [← sumOver_mul fun w key hkey x => weight_congr fun k hk => ?_]
    · congr 1
      funext w
      rw [weight_append]
      ring
    · have hne : k ≠ key := by
        rintro rfl
        exact Nat.not_lt.2 (hfresh k hkey) (hreads k hk)
      exact Function.update_of_ne hne x w
  have houter : (fun v => first.weight P fixed v * second.sum P fixed body v) = fun v =>
      P.determinant ^ second.power * (first.weight P fixed v *
        sumOver second.own (fun w => second.weight P fixed w * body w) v) := by
    funext v
    rw [sum]
    ring
  rw [sum, append, sumOver_append, sum, houter, sumOver_mul_const,
    zpow_add₀ P.determinant_ne_zero, mul_assoc]
  congr 2
  refine congrArg (fun g => sumOver first.own g value) ?_
  funext v
  exact hinner v

/-! ## Readings -/

/-- The values of handles agree with the values of the free keys. -/
structure Reading (P : PointData F) (fixed : IndexHandle → Bool) (assignment : Nat → Nat)
    (state : Transformation) (value : IndexHandle → Nat) : Prop where
  isFixed : ∀ h index, state.arena.get? h = some index → fixed h = index.isFixed
  fixed : ∀ h index v, state.arena.get? h = some index → index.role = some .fixed →
    index.range = [v] → value h = v
  primary : ∀ h index n, state.arena.get? h = some index → index.role = some .primary →
    index.id = some n → value h = P.argument n
  free : ∀ r ∈ state.resolved, value r.2 = assignment r.1
  range : ∀ r ∈ state.resolved, ∀ index, state.arena.get? r.2 = some index →
    value r.2 ∈ index.range

namespace Reading

variable {P : PointData F} {fixed : IndexHandle → Bool} {assignment : Nat → Nat}
  {a b : Transformation} {value : IndexHandle → Nat}

theorem mono (h : Reading P fixed assignment b value) (hgrows : Grows a b) :
    Reading P fixed assignment a value where
  isFixed k index hget := h.isFixed k index (hgrows.get? k index hget)
  fixed k index v hget := h.fixed k index v (hgrows.get? k index hget)
  primary k index n hget := h.primary k index n (hgrows.get? k index hget)
  free r hr := h.free r (hgrows.resolved r hr)
  range r hr index hget := h.range r (hgrows.resolved r hr) index (hgrows.get? r.2 index hget)

theorem update {uses : List (Nat × Nat)} {own : Summation IndexHandle}
    {pending : List IndexHandle} (ht : Tracked uses own pending b)
    (h : Reading P fixed assignment b value) {key : IndexHandle} (hkey : key ∈ own.keys)
    (v : Nat) : Reading P fixed assignment b (Function.update value key v) := by
  have hrole : ∀ index role, b.arena.get? key = some index → index.role = some role → False := by
    intro index role hget hrole
    obtain ⟨entry, hentry, rfl⟩ := List.mem_map.1 hkey
    obtain rfl := Option.some.inj ((ht.own_get entry hentry).symm.trans hget)
    cases hrole
  have hresolved : ∀ r ∈ b.resolved, r.2 ≠ key := by
    rintro r hr rfl
    exact (List.nodup_append.1 ht.nodup).2.2 r.2 hkey r.2 (List.mem_map_of_mem hr) rfl
  refine ⟨h.isFixed, fun k index w hget hfixed hrange => ?_, fun k index n hget hprimary hid => ?_,
    fun r hr => ?_, fun r hr index hget => ?_⟩
  · have hne : k ≠ key := by
      rintro rfl
      exact hrole index _ hget hfixed
    rw [Function.update_of_ne hne]
    exact h.fixed k index w hget hfixed hrange
  · have hne : k ≠ key := by
      rintro rfl
      exact hrole index _ hget hprimary
    rw [Function.update_of_ne hne]
    exact h.primary k index n hget hprimary hid
  · rw [Function.update_of_ne (hresolved r hr)]
    exact h.free r hr
  · rw [Function.update_of_ne (hresolved r hr)]
    exact h.range r hr index hget

end Reading

/-- The step from `a` to `b` adds a part. -/
structure Adds (a b : Transformation) (part : Part) : Prop where
  grows : Grows a b
  fresh : ∀ key ∈ part.own.keys, a.arena.next ≤ key
  reads : ∀ key ∈ part.reads, key < b.arena.next
  coefficients : b.coefficients = a.coefficients ++ part.coefficients
  transforms : b.transforms = a.transforms ++ part.transforms
  power : b.determinant.power = a.determinant.power + part.power
  basisFunctions : b.basisFunctions = a.basisFunctions

namespace Adds

theorem refl (a : Transformation) : Adds a a {} where
  grows := .refl a
  fresh _ hkey := absurd hkey List.not_mem_nil
  reads _ hkey := absurd hkey List.not_mem_nil
  coefficients := (List.append_nil _).symm
  transforms := (List.append_nil _).symm
  power := (Int.add_zero _).symm
  basisFunctions := rfl

theorem reads_append {first second : Part} {key : IndexHandle}
    (hkey : key ∈ (first.append second).reads) : key ∈ first.reads ∨ key ∈ second.reads := by
  simp only [Part.reads, Part.append, externalOccurrences, List.map_append, List.mem_append]
    at hkey ⊢
  tauto

theorem trans {a b c : Transformation} {first second : Part} (h : Adds a b first)
    (h' : Adds b c second) : Adds a c (first.append second) where
  grows := h.grows.trans h'.grows
  fresh key hkey := by
    rw [Part.append, Summation.keys, List.map_append] at hkey
    obtain hkey | hkey := List.mem_append.1 hkey
    · exact h.fresh key hkey
    · exact h.grows.next.trans (h'.fresh key hkey)
  reads key hkey := by
    obtain hkey | hkey := reads_append hkey
    · exact (h.reads key hkey).trans_le h'.grows.next
    · exact h'.reads key hkey
  coefficients := by rw [h'.coefficients, h.coefficients, List.append_assoc, Part.append]
  transforms := by rw [h'.transforms, h.transforms, List.append_assoc, Part.append]
  power := by rw [h'.power, h.power, Int.add_assoc, Part.append]
  basisFunctions := h'.basisFunctions.trans h.basisFunctions

theorem footprint {a b : Transformation} {part : Part} (h : Adds a b part) :
    ∀ k ∈ a.footprint, k ∈ b.footprint := by
  intro k hk
  simp only [Transformation.footprint, externalOccurrences, h.basisFunctions, h.coefficients,
    h.transforms, List.map_append, List.mem_append] at hk ⊢
  tauto

theorem insert (state : Transformation) (index : MonomialIndex) (own : Summation IndexHandle)
    (hown : ∀ key ∈ own.keys, key = state.arena.next) :
    Adds state (state.insert index).2 { own := own } where
  grows := grows_insert state index
  fresh key hkey := (hown key hkey).ge
  reads _ hkey := absurd hkey List.not_mem_nil
  coefficients := (List.append_nil _).symm
  transforms := (List.append_nil _).symm
  power := (Int.add_zero _).symm
  basisFunctions := rfl

theorem record {a b : Transformation} (part : Part) (hown : part.own = [])
    (harena : b.arena = a.arena) (hresolved : b.resolved = a.resolved)
    (hreads : ∀ key ∈ part.reads, key < a.arena.next)
    (hcoefficients : b.coefficients = a.coefficients ++ part.coefficients)
    (htransforms : b.transforms = a.transforms ++ part.transforms)
    (hpower : b.determinant.power = a.determinant.power + part.power)
    (hbasis : b.basisFunctions = a.basisFunctions) : Adds a b part where
  grows := ⟨by rw [harena]; exact fun _ _ h => h, by rw [hresolved]; exact fun _ h => h,
    by rw [harena]⟩
  fresh key hkey := by
    rw [hown] at hkey
    exact absurd hkey List.not_mem_nil
  reads := by rw [harena]; exact hreads
  coefficients := hcoefficients
  transforms := htransforms
  power := hpower
  basisFunctions := hbasis

end Adds

/-- Bodies need to agree only on readings that keep the earlier handles. -/
theorem Part.sum_congr {P : PointData F} {fixed : IndexHandle → Bool} {assignment : Nat → Nat}
    {uses : List (Nat × Nat)} {own : Summation IndexHandle} {pending : List IndexHandle}
    {c : Transformation} {part : Part} {bound : IndexHandle}
    (hfresh : ∀ key ∈ part.own.keys, bound ≤ key) (ht : Tracked uses own pending c)
    (hown : ∀ key ∈ part.own.keys, key ∈ own.keys)
    {value : IndexHandle → Nat} (hvalue : Reading P fixed assignment c value)
    {body other : (IndexHandle → Nat) → F}
    (h : ∀ v, Reading P fixed assignment c v → AgreeBelow bound value v → body v = other v) :
    part.sum P fixed body value = part.sum P fixed other value := by
  have hkeeps : part.own.Keeps fun v =>
      Reading P fixed assignment c v ∧ AgreeBelow bound value v := by
    intro v hv entry hentry x hx
    exact ⟨Reading.update ht hv.1 (hown _ (List.mem_map_of_mem hentry)) x,
      Summation.keeps_agreeBelow hfresh value v hv.2 entry hentry x hx⟩
  rw [sum, sum]
  congr 1
  refine sumOver_congr hkeeps (fun v hv => ?_) ⟨hvalue, fun _ _ => rfl⟩
  rw [h v hv.1 hv.2]

/-- A part stands for a combination of the values of a function of some handles. -/
def Part.Realizes (P : PointData F) (part : Part) (state : Transformation)
    (handles : List IndexHandle) (target : (Nat → Nat) → (List Nat → F) → F) : Prop :=
  ∀ fixed assignment value, Reading P fixed assignment state value → ∀ f : List Nat → F,
    part.sum P fixed (fun v => f (handles.map v)) value = target assignment f

end ElementKernel
