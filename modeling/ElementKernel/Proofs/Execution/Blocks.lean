import ElementKernel.Kernel.BlockCode
import ElementKernel.Proofs.Acceptance
import ElementKernel.Proofs.Execution.Nodes

/-!
# Code of the contributions

A contribution is one update inside of the loops over its axes.  From the innermost update outwards
the loops add the value of the contribution to every entry of the element tensor whose multi-index
starts with the counters of the loops that have been entered.
-/

namespace ElementKernel

open Execution
open Kernel (Axis)

theorem Kernel.counter_ne_tensorName (axis : Nat) : s!"ia{axis}" ≠ tensorName := by
  intro heq
  have hchars := congrArg String.toList heq
  rw [String.toList_append] at hchars
  change 'i' :: 'a' :: _ = ['A'] at hchars
  cases hchars

theorem Execution.word_sub {m n : Nat} (h : n ≤ m) : word (m - n) = word m - word n := by
  rw [eq_sub_iff_add_eq, ← word_add, Nat.sub_add_cancel h]

theorem Execution.values_append {K : Type} [Field K] {D : Interpretation K} {L : Locals K}
    {first second : List Expr} {us vs : List K} (hfirst : values D L first = some us)
    (hsecond : values D L second = some vs) : values D L (first ++ second) = some (us ++ vs) :=
  values_eq_some.2 (List.rel_append (values_eq_some.1 hfirst) (values_eq_some.1 hsecond))

theorem Target.argument_access_eq_ok {target : Target} {pointCount number : Nat}
    {t : ModifiedTerminal} {range : TableRange} {e : Expr}
    (hterminal : t.terminal = .argument number) (hzeros : range.type ≠ .zeros)
    (hquadrature : range.type ≠ .quadrature) (hones : range.type ≠ .ones)
    (h : target.access t (some range) pointCount = .ok e) :
    e = target.tableValue range t.restriction pointCount
      (.sub (Kernel.axisIndex number) (.int (Word.signed range.first))) := by
  unfold Target.access at h
  rw [if_neg (by simpa using hzeros)] at h
  simp only [hterminal, Target.argumentAccess, hquadrature, hones, or_self, if_false] at h
  exact (Except.ok.inj h).symm

namespace Setting

variable {K : Type} [Field K] {S : Setting K} {L L' M : Locals K} {point size : Nat}
  {partition : Partition} {block : DofBlock} {contribution : BlockContribution}

/-- The code of a partition runs at a point. -/
structure Stands (S : Setting K) (partition : Partition) (M : Locals K) (point : Nat) : Prop where
  inRounds : point < S.rounds partition
  atPoint : partition = .varying → S.AtPoint M point

theorem Stands.extend (h : S.Stands partition M point) (hextends : M.Extends L') :
    S.Stands partition L' point where
  inRounds := h.inRounds
  atPoint hvarying := (h.atPoint hvarying).extend hextends

/-! ## Axes -/

/-- The counter of an axis stands at a degree of freedom of its block. -/
structure AxisAt (S : Setting K) (M : Locals K) (point : Nat) (axis : Axis) (dof : Nat) : Prop where
  index : index M (axis.index S.pointCount) = some (word dof)
  first_le : axis.bounds.1 ≤ dof
  lt_past : dof < axis.bounds.2
  quadrature : axis.range.type = .quadrature → dof = point

theorem AxisAt.extend {axis : Axis} {dof : Nat} (h : S.AxisAt M point axis dof)
    (hextends : M.Extends L') : S.AxisAt L' point axis dof where
  index := by
    have hindex := h.index
    rw [Axis.index] at hindex ⊢
    by_cases htype : axis.range.type = .quadrature
    · rw [if_pos htype] at hindex ⊢
      exact AtPoint.extend hindex hextends
    · rw [if_neg htype] at hindex ⊢
      exact hextends.index_symbol hindex
  first_le := h.first_le
  lt_past := h.lt_past
  quadrature := h.quadrature

/-- Where its counter stands, an axis multiplies the update by the value that it contributes. -/
theorem values_axisFactors {axis : Axis} {dof : Nat} {es : List Expr} (hprovides : S.Provides M)
    (hfit : S.integrand.TablesFit) (hstands : S.Stands partition M point)
    (hconstant : partition = .piecewise → axis.range.type.isVarying = false)
    (hconsistent : S.AxisConsistent partition axis) (hat : S.AxisAt M point axis dof)
    (hes : Kernel.axisFactors S.target S.pointCount S.integrand block axis = .ok es) :
    ∃ vs, values S.data.toInterpretation M es = some vs ∧ vs.prod = S.axisValue axis point dof := by
  unfold Kernel.axisFactors at hes
  unfold axisValue
  rw [if_pos ⟨hat.first_le, hat.lt_past⟩]
  dsimp only at hes
  split at hes
  next htype =>
    cases hes
    refine ⟨[], values_nil, ?_⟩
    obtain htype | htype := htype
    · simp [htype, hat.quadrature htype]
    · simp [htype]
  next htype =>
    obtain ⟨hquadrature, hones⟩ := not_or.1 htype
    split at hes
    · cases hes
    next hbounds =>
      split at hes
      · cases hes
      next hzeros =>
        split at hes
        · cases hes
        next t ht =>
          obtain ⟨e, haccess, hes⟩ := bind_eq_ok.1 hes
          cases hes
          obtain ⟨hterminal, hcovers⟩ := hconsistent.reads hquadrature hones t ht
          obtain rfl := Target.argument_access_eq_ok hterminal hzeros hquadrature hones haccess
          have hindex := hat.index
          rw [Axis.index, if_neg hquadrature] at hindex
          rw [ne_eq, not_not, Prod.ext_iff] at hbounds
          obtain ⟨hfirst, hpast⟩ : axis.range.first = axis.bounds.1 ∧
            axis.range.past = axis.bounds.2 := hbounds
          have hle : axis.range.first ≤ dof := hfirst ▸ hat.first_le
          have hlt : dof - axis.range.first < axis.range.past - axis.range.first := by
            have := hat.lt_past
            omega
          have hsub := index_sub hindex (index_signed axis.range.first)
          rw [← word_sub hle] at hsub
          have hvalue := hprovides.value_tableValue hfit (hcovers point hstands.inRounds) hlt hsub
            fun hpiecewise hfixed => hstands.atPoint ?_
          · refine ⟨_, values_cons hvalue values_nil, ?_⟩
            rw [ht, List.prod_singleton]
            cases htype : axis.range.type <;> simp_all
          · cases hpartition : partition with
            | varying => rfl
            | piecewise =>
                have hfixedType := hconstant hpartition
                cases htype : axis.range.type <;> simp_all [TableType.isVarying]

/-! ## Updates -/

/-- What the code of the blocks of a partition relies on where it runs. -/
structure BlocksReady (S : Setting K) (partition : Partition) (accesses : Accesses)
    (L : Locals K) (point : Nat) : Prop where
  provides : S.Provides L
  fit : S.integrand.TablesFit
  stands : S.Stands partition L point
  reads : ∀ id e, (id, e) ∈ accesses → ∀ M, L.Extends M →
    value S.data.toInterpretation M e = some (S.nodeValue point id)
  counters : ∀ axis < S.integral.tensorShape.length, L s!"ia{axis}" = none
  distinct : ((List.range S.integral.tensorShape.length).map fun axis => s!"ia{axis}").Nodup
  limit : S.integral.tensorShape.prod ≤ Word.limit

/-- The axes of a contribution are consistent, and constant where the contribution has to be. -/
def AxesConsistent (S : Setting K) (partition : Partition) (axes : List Axis) : Prop :=
  ∀ axis ∈ axes, S.AxisConsistent partition axis ∧
    (partition = .piecewise → axis.range.type.isVarying = false)

section

variable {accesses : Accesses} (h : S.BlocksReady partition accesses L point) (hM : L.Extends M)

include h hM

theorem values_scalarFactors {factor : NodeId} {scalar : List Expr}
    (hscalar : Kernel.scalarFactors S.integrand accesses factor = .ok scalar) :
    ∃ vs, values S.data.toInterpretation M scalar = some vs ∧
      vs.prod = S.factorValue point factor := by
  unfold Kernel.scalarFactors at hscalar
  unfold factorValue
  split at hscalar
  next hone =>
    cases hscalar
    exact ⟨[], values_nil, by rw [if_pos hone, List.prod_nil]⟩
  next hone =>
    split at hscalar
    next e hlookup =>
      cases hscalar
      obtain ⟨before, after, haccesses, -⟩ := List.lookup_eq_some_iff.1 hlookup
      have hvalue := h.reads factor e (by simp [haccesses]) M hM
      exact ⟨_, values_cons hvalue values_nil, by rw [if_neg hone, List.prod_singleton]⟩
    next => cases hscalar

theorem values_tables {axes : List Axis} {is : List Nat} {tables : List (List Expr)}
    (hconsistent : S.AxesConsistent partition axes)
    (hat : List.Forall₂ (S.AxisAt M point) axes is)
    (htables : axes.mapM (Kernel.axisFactors S.target S.pointCount S.integrand block) =
      .ok tables) :
    ∃ vs, values S.data.toInterpretation M tables.flatten = some vs ∧
      vs.prod = (List.zipWith (fun axis dof => S.axisValue axis point dof) axes is).prod := by
  have hforall := mapM_eq_ok.1 htables
  clear htables
  induction hat generalizing tables with
  | nil =>
      cases hforall
      exact ⟨[], values_nil, rfl⟩
  | @cons axis dof axes is haxis _ ih =>
      obtain _ | ⟨hes, hrest⟩ := hforall
      obtain ⟨haxisConsistent, hconstant⟩ := hconsistent axis List.mem_cons_self
      obtain ⟨us, hus, hprod⟩ := values_axisFactors (h.provides.extend hM) h.fit
        (h.stands.extend hM) hconstant haxisConsistent haxis hes
      obtain ⟨vs, hvs, hrestProd⟩ :=
        ih (fun other hmem => hconsistent other (List.mem_cons_of_mem _ hmem)) hrest
      refine ⟨us ++ vs, values_append hus hvs, ?_⟩
      rw [List.prod_append, hprod, hrestProd, List.zipWith_cons_cons, List.prod_cons]

theorem value_term {is : List Nat} {scalar : List Expr} {tables : List (List Expr)}
    (hconsistent : S.AxesConsistent partition (Kernel.axes block contribution))
    (hat : List.Forall₂ (S.AxisAt M point) (Kernel.axes block contribution) is)
    (hscalar : Kernel.scalarFactors S.integrand accesses contribution.factor = .ok scalar)
    (htables : (Kernel.axes block contribution).mapM
      (Kernel.axisFactors S.target S.pointCount S.integrand block) = .ok tables) :
    value S.data.toInterpretation M
      (if (scalar ++ tables.flatten).isEmpty then .float 1
        else .product (scalar ++ tables.flatten)) =
      some (S.contributionValue block point contribution is) := by
  obtain ⟨us, hus, hscalarProd⟩ := values_scalarFactors h hM hscalar
  obtain ⟨vs, hvs, htablesProd⟩ := values_tables h hM hconsistent hat htables
  have hfactors := values_append hus hvs
  rw [contributionValue, ← hscalarProd, ← htablesProd, ← List.prod_append]
  split
  next hempty =>
    rw [List.isEmpty_iff.1 hempty, values_nil] at hfactors
    rw [value_float, S.data.literal_one, ← Option.some.inj hfactors, List.prod_nil]
  next => exact value_product hfactors

end

/-! ## Additions to the element tensor -/

/-- The statements add `f` to the entries of the element tensor, by their multi-indices. -/
def Adds (S : Setting K) (L : Locals K) (statements : List Stmt) (f : List Nat → K) : Prop :=
  ∃ δ, Runs S.data.toInterpretation S.integral.tensorShape.prod L statements L δ ∧
    ∀ js p, position S.integral.tensorShape js = some p → δ p = f js

theorem Adds.flatten {α : Type} {f : α → List Nat → K} {xs : List α} {codes : List (List Stmt)}
    (h : List.Forall₂ (fun x code => S.Adds L code (f x)) xs codes) :
    S.Adds L codes.flatten fun js => (xs.map (f · js)).sum := by
  induction h with
  | nil => exact ⟨0, Runs.nil, fun _ _ _ => rfl⟩
  | cons hfirst _ ih =>
      obtain ⟨δ, hrun, hδ⟩ := hfirst
      obtain ⟨ε, hrest, hε⟩ := ih
      refine ⟨δ + ε, hrun.append hrest, fun js p hp => ?_⟩
      simp only [Pi.add_apply, hδ js p hp, hε js p hp, List.map_cons, List.sum_cons]

theorem Adds.congr {statements : List Stmt} {f g : List Nat → K} (h : S.Adds L statements f)
    (hfg : ∀ js, js.length = S.integral.tensorShape.length → f js = g js) :
    S.Adds L statements g := by
  obtain ⟨δ, hrun, hδ⟩ := h
  exact ⟨δ, hrun, fun js p hp => (hδ js p hp).trans (hfg js (forall₂_of_position hp).length_eq)⟩

/-- A loop adds up what its rounds add, whatever they declare. -/
theorem Adds.loop {name : String} {body : List Stmt} {first past : Nat} {f : Nat → List Nat → K}
    (htensor : name ≠ Kernel.tensorName) (hname : L name = none)
    (h : ∀ i, first ≤ i → i < past → ∃ M δ,
      Runs S.data.toInterpretation S.integral.tensorShape.prod (L.set name (.number (word i))) body
        M δ ∧ (L.set name (.number (word i))).Extends M ∧
        ∀ js p, position S.integral.tensorShape js = some p → δ p = f i js) :
    S.Adds L [.forRange (.symbol name) first past body]
      fun js => ∑ i ∈ Finset.Ico first past, f i js := by
  choose! M δ hrun hextends hδ using h
  refine ⟨_, Runs.loop _ name body first past htensor hname fun i hfirst hpast =>
    ⟨M i, hextends i hfirst hpast, hrun i hfirst hpast⟩, fun js p hp => ?_⟩
  rw [Finset.sum_apply]
  refine Finset.sum_congr rfl fun i hi => ?_
  obtain ⟨hfirst, hpast⟩ := Finset.mem_Ico.1 hi
  exact hδ i hfirst hpast js p hp

/-! ## Loops -/

theorem map_position_axes (block : DofBlock) (contribution : BlockContribution) :
    (Kernel.axes block contribution).map Axis.position =
      List.range (Kernel.axes block contribution).length := by
  have hzip := List.zipIdx_map_snd 0 (block.zip (contribution.ranges.zip contribution.arguments))
  rw [← List.range_eq_range'] at hzip
  rw [Kernel.axes, List.map_map, List.length_map, List.length_zipIdx, ← hzip]
  rfl

theorem position_of_getElem? {k : Nat} {axis : Axis}
    (h : (Kernel.axes block contribution)[k]? = some axis) : axis.position = k := by
  have hposition := congrArg (·[k]?) (map_position_axes block contribution)
  have hlt := (List.getElem?_eq_some_iff.1 h).1
  simpa [h, List.getElem?_range hlt] using hposition

/-- A multi-index whose components lie in the blocks of the axes lies in the element tensor. -/
theorem exists_position_of_axes {is : List Nat}
    (hlength : (Kernel.axes block contribution).length = S.integral.tensorShape.length)
    (hconsistent : S.AxesConsistent partition (Kernel.axes block contribution))
    (hat : List.Forall₂ (S.AxisAt M point) (Kernel.axes block contribution) is) :
    ∃ p, position S.integral.tensorShape is = some p := by
  refine exists_position (List.forall₂_iff_get.2 ⟨hat.length_eq ▸ hlength, fun k hk hk' => ?_⟩)
  have haxis := List.getElem?_eq_getElem (hlength ▸ hk')
  have hposition := position_of_getElem? haxis
  have hinside := (hconsistent _ (List.mem_of_getElem? haxis)).1.inside
    S.integral.tensorShape[k] (by rw [hposition]; exact List.getElem?_eq_getElem hk')
  exact ((List.forall₂_iff_get.1 hat).2 k (hlength ▸ hk') hk).lt_past.trans_le hinside

theorem contributionValue_eq_zero {outer inner : List Axis} {axis : Axis} {is js : List Nat}
    {j : Nat} (haxes : Kernel.axes block contribution = outer ++ axis :: inner)
    (hlength : outer.length = is.length) (hzero : S.axisValue axis point j = 0) :
    S.contributionValue block point contribution (is ++ j :: js) = 0 := by
  rw [contributionValue, haxes, List.zipWith_append hlength, List.zipWith_cons_cons, hzero]
  simp

theorem axisValue_outside {axis : Axis} {dof : Nat}
    (h : ¬(axis.bounds.1 ≤ dof ∧ dof < axis.bounds.2)) : S.axisValue axis point dof = 0 := by
  rw [axisValue, if_neg h]

theorem axisValue_of_ne_point {axis : Axis} {dof : Nat} (htype : axis.range.type = .quadrature)
    (h : dof ≠ point) : S.axisValue axis point dof = 0 := by
  unfold axisValue
  rw [htype]
  simp only [if_neg h, ite_self]

theorem concat_isPrefix_iff {is js : List Nat} {i j : Nat} :
    is ++ [i] <+: is ++ j :: js ↔ i = j := by
  rw [List.prefix_append_right_inj, List.cons_prefix_cons]
  simp

/-- The value of the contribution at the multi-indices that start with `is`. -/
def valueBelow (S : Setting K) (block : DofBlock) (point : Nat) (contribution : BlockContribution)
    (is js : List Nat) : K :=
  if is <+: js then S.contributionValue block point contribution js else 0

section

variable {outer inner : List Axis} {axis : Axis} {is js : List Nat}

theorem exists_append_of_isPrefix
    (haxes : Kernel.axes block contribution = outer ++ axis :: inner)
    (hlength : outer.length = is.length)
    (hjs : js.length = (Kernel.axes block contribution).length) (hpre : is <+: js) :
    ∃ j rest, js = is ++ j :: rest := by
  obtain ⟨rest, rfl⟩ := hpre
  cases rest with
  | nil =>
      rw [haxes, List.append_nil, List.length_append, List.length_cons] at hjs
      omega
  | cons j rest => exact ⟨j, rest, rfl⟩

/-- An axis without a loop contributes at the point alone. -/
theorem valueBelow_point (haxes : Kernel.axes block contribution = outer ++ axis :: inner)
    (hlength : outer.length = is.length) (htype : axis.range.type = .quadrature)
    (hjs : js.length = (Kernel.axes block contribution).length) :
    S.valueBelow block point contribution (is ++ [point]) js =
      S.valueBelow block point contribution is js := by
  rw [valueBelow, valueBelow]
  by_cases hpre : is <+: js
  · obtain ⟨j, rest, rfl⟩ := exists_append_of_isPrefix haxes hlength hjs hpre
    rw [if_pos hpre]
    by_cases hj : point = j
    · rw [if_pos (concat_isPrefix_iff.2 hj)]
    · rw [if_neg (concat_isPrefix_iff.not.2 hj)]
      exact (contributionValue_eq_zero haxes hlength
        (axisValue_of_ne_point htype (Ne.symm hj))).symm
  · have hshorter := fun hlonger => hpre ((List.prefix_append is [point]).trans hlonger)
    rw [if_neg hpre, if_neg hshorter]

/-- Outside of its block an axis contributes nothing. -/
theorem sum_valueBelow (haxes : Kernel.axes block contribution = outer ++ axis :: inner)
    (hlength : outer.length = is.length)
    (hjs : js.length = (Kernel.axes block contribution).length) :
    ∑ i ∈ Finset.Ico axis.bounds.1 axis.bounds.2,
        S.valueBelow block point contribution (is ++ [i]) js =
      S.valueBelow block point contribution is js := by
  simp only [valueBelow]
  by_cases hpre : is <+: js
  · obtain ⟨j, rest, rfl⟩ := exists_append_of_isPrefix haxes hlength hjs hpre
    simp only [concat_isPrefix_iff, if_pos hpre, Finset.sum_ite_eq', Finset.mem_Ico]
    split
    · rfl
    next hout => exact (contributionValue_eq_zero haxes hlength (axisValue_outside hout)).symm
  · rw [if_neg hpre]
    exact Finset.sum_eq_zero fun i _ =>
      if_neg fun hlonger => hpre ((List.prefix_append is [i]).trans hlonger)

end

section

variable {accesses : Accesses} (h : S.BlocksReady partition accesses L point)
  (hconsistent : S.AxesConsistent partition (Kernel.axes block contribution))

include h hconsistent

/-- The update adds the value of the contribution to one entry. -/
theorem adds_update {is : List Nat} {scalar : List Expr} {tables : List (List Expr)} {e : Expr}
    (hlength : (Kernel.axes block contribution).length = S.integral.tensorShape.length)
    (hscalar : Kernel.scalarFactors S.integrand accesses contribution.factor = .ok scalar)
    (htables : (Kernel.axes block contribution).mapM
      (Kernel.axisFactors S.target S.pointCount S.integrand block) = .ok tables)
    (hposition : Kernel.flatIndex
      ((Kernel.axes block contribution).map (·.index S.pointCount)) S.integral.tensorShape = .ok e)
    (hM : L.Extends M)
    (hat : List.Forall₂ (S.AxisAt M point) (Kernel.axes block contribution) is) :
    S.Adds M [.assignAdd (.entry Kernel.tensor e)
        (if (scalar ++ tables.flatten).isEmpty then .float 1
          else .product (scalar ++ tables.flatten))]
      (S.valueBelow block point contribution is) := by
  obtain ⟨p, hp⟩ := exists_position_of_axes hlength hconsistent hat
  have hcounters : List.Forall₂ (fun counter i => index M counter = some (word i))
      ((Kernel.axes block contribution).map (·.index S.pointCount)) is :=
    List.forall₂_map_left_iff.2 (hat.imp fun _ _ haxis => haxis.index)
  have hlt := position_lt hp
  have htoNat : (word p).toNat = p := toNat_word (hlt.trans_le h.limit)
  have hadd := Runs.addTensor S.integral.tensorShape.prod
    (index_flatIndex hcounters hp hposition) (htoNat.symm ▸ hlt)
    (value_term h hM hconsistent hat hscalar htables)
  rw [htoNat] at hadd
  refine ⟨_, hadd, fun js q hq => ?_⟩
  rw [valueBelow]
  by_cases hpre : is <+: js
  · have hsame : is.length = js.length := by
      rw [(forall₂_of_position hp).length_eq, (forall₂_of_position hq).length_eq]
    obtain rfl := hpre.eq_of_length hsame
    obtain rfl := Option.some.inj (hp.symm.trans hq)
    rw [if_pos hpre, Pi.single_eq_same]
  · rw [if_neg hpre, Pi.single_eq_of_ne]
    rintro rfl
    exact hpre (position_inj hp hq ▸ List.prefix_rfl)

theorem axisAt_quadrature {axis : Axis} (hM : L.Extends M)
    (hmem : axis ∈ Kernel.axes block contribution) (htype : axis.range.type = .quadrature) :
    S.AxisAt M point axis point := by
  obtain ⟨hconsistentAxis, hconstant⟩ := hconsistent axis hmem
  have hpartition : partition = .varying := by
    cases hpartition : partition with
    | varying => rfl
    | piecewise =>
        have hfixed := hconstant hpartition
        simp [htype, TableType.isVarying] at hfixed
  subst hpartition
  have hbounds := hconsistentAxis.quadrature htype
  refine ⟨?_, by simp [hbounds], ?_, fun _ => rfl⟩
  · rw [Axis.index, if_pos htype]
    exact (h.stands.extend hM).atPoint rfl
  · rw [hbounds]
    exact h.stands.inRounds

/-- The loops over the inner axes add the value of the contribution to the entries whose
multi-indices start with the counters of the outer axes. -/
theorem adds_nest {update : Stmt}
    (hlength : (Kernel.axes block contribution).length = S.integral.tensorShape.length)
    (hupdate : ∀ M is, L.Extends M →
      List.Forall₂ (S.AxisAt M point) (Kernel.axes block contribution) is →
      S.Adds M [update] (S.valueBelow block point contribution is))
    {outer inner : List Axis} {is : List Nat}
    (haxes : Kernel.axes block contribution = outer ++ inner) (hM : L.Extends M)
    (hat : List.Forall₂ (S.AxisAt M point) outer is)
    (hfree : ∀ axis ∈ inner, M s!"ia{axis.position}" = none)
    (hdistinct : (inner.map fun axis => s!"ia{axis.position}").Nodup) :
    S.Adds M [inner.foldr (fun axis body => axis.loop S.pointCount body) update]
      (S.valueBelow block point contribution is) := by
  induction inner generalizing outer is M with
  | nil => exact hupdate M is hM (by rwa [haxes, List.append_nil])
  | cons axis inner ih =>
      have hmem : axis ∈ Kernel.axes block contribution := by simp [haxes]
      have haxes' : Kernel.axes block contribution = outer ++ [axis] ++ inner := by
        rw [haxes, List.append_assoc, List.singleton_append]
      obtain ⟨haxis, hdistinct⟩ := List.nodup_cons.1 hdistinct
      rw [List.foldr_cons, Axis.loop]
      split
      next htype =>
        have hat' :=
          List.rel_append hat (.cons (axisAt_quadrature h hconsistent hM hmem htype) .nil)
        have hinner := ih haxes' hM hat' (fun other hother =>
          hfree other (List.mem_cons_of_mem _ hother)) hdistinct
        exact hinner.congr fun js hjs =>
          valueBelow_point haxes hat.length_eq htype (hjs.trans hlength.symm)
      next htype =>
        have hround : ∀ i, axis.bounds.1 ≤ i → i < axis.bounds.2 →
            S.Adds (M.set s!"ia{axis.position}" (.number (word i)))
              [inner.foldr (fun axis body => axis.loop S.pointCount body) update]
              (S.valueBelow block point contribution (is ++ [i])) := by
          intro i hfirst hpast
          have hextends := Locals.extends_set (hfree axis List.mem_cons_self) (.number (word i))
          have haxisAt :
              S.AxisAt (M.set s!"ia{axis.position}" (.number (word i))) point axis i := by
            refine ⟨?_, hfirst, hpast, fun hquadrature => absurd hquadrature htype⟩
            rw [Axis.index, if_neg htype]
            exact index_symbol Locals.set_same
          refine ih haxes' (hM.trans hextends) (List.rel_append
            (hat.imp fun _ _ h => h.extend hextends) (.cons haxisAt .nil)) (fun other hother => ?_)
            hdistinct
          rw [Locals.set_of_ne]
          · exact hfree other (List.mem_cons_of_mem _ hother)
          · exact fun heq => haxis (List.mem_map.2 ⟨other, hother, heq⟩)
        rw [Axis.index, if_neg htype]
        have hloop := Adds.loop (Kernel.counter_ne_tensorName axis.position)
          (hfree axis List.mem_cons_self) fun i hfirst hpast =>
            let ⟨δ, hrun, hδ⟩ := hround i hfirst hpast
            ⟨_, δ, hrun, .refl _, hδ⟩
        exact hloop.congr fun js hjs =>
          sum_valueBelow haxes hat.length_eq (hjs.trans hlength.symm)

end

/-! ## Blocks -/

variable {accesses : Accesses}

theorem adds_contribution (h : S.BlocksReady partition accesses L point)
    (hconsistent : S.AxesConsistent partition (Kernel.axes block contribution)) {code : Stmt}
    (hcode : Kernel.contributionCode S.target S.integral S.pointCount S.integrand accesses block
      contribution = .ok code) :
    S.Adds L [code] (S.contributionValue block point contribution) := by
  unfold Kernel.contributionCode at hcode
  dsimp only at hcode
  split at hcode
  · cases hcode
  next hranks =>
    obtain ⟨hblock, hranks⟩ := not_or.1 hranks
    obtain ⟨harguments, hrank⟩ := not_or.1 hranks
    rw [ne_eq, not_not] at hblock harguments hrank
    split at hcode
    · cases hcode
    next scalar hscalar =>
      obtain ⟨tables, htables, hcode⟩ := bind_eq_ok.1 hcode
      obtain ⟨e, he, hcode⟩ := bind_eq_ok.1 hcode
      rw [liftM_eq_ok] at he
      cases hcode
      have hlength : (Kernel.axes block contribution).length = S.integral.tensorShape.length :=
        (Kernel.length_axes hblock harguments).trans hrank.symm
      have hpositions := map_position_axes block contribution
      rw [hlength] at hpositions
      have hdistinct := h.distinct
      rw [← hpositions, List.map_map] at hdistinct
      have hfree : ∀ axis ∈ Kernel.axes block contribution, L s!"ia{axis.position}" = none := by
        intro axis hmem
        refine h.counters axis.position ?_
        rw [← List.mem_range, ← hpositions]
        exact List.mem_map_of_mem hmem
      have hnest := adds_nest h hconsistent hlength
        (fun M is hM hat => adds_update h hconsistent hlength hscalar htables he hM hat)
        (List.nil_append _).symm (.refl L) .nil hfree hdistinct
      exact hnest.congr fun js _ => if_pos List.nil_prefix

theorem adds_contributions (h : S.BlocksReady partition accesses L point)
    {contributions : List BlockContribution}
    (hconsistent : ∀ contribution ∈ contributions,
      S.AxesConsistent partition (Kernel.axes block contribution))
    {code : List Stmt}
    (hcode : contributions.mapM (Kernel.contributionCode S.target S.integral S.pointCount
      S.integrand accesses block) = .ok code) :
    S.Adds L code fun js => (contributions.map fun contribution =>
      S.contributionValue block point contribution js).sum := by
  have hforall := (List.forall₂_and_left _ _).2 ⟨hconsistent, mapM_eq_ok.1 hcode⟩
  have hsingle : List.Forall₂ (fun contribution code =>
      S.Adds L code (S.contributionValue block point contribution)) contributions
      (code.map fun statement => [statement]) :=
    List.forall₂_map_right_iff.2 (hforall.imp fun _ _ hboth =>
      adds_contribution h hboth.1 hboth.2)
  have hadds := Adds.flatten hsingle
  rwa [← List.flatMap_def, List.flatMap_singleton'] at hadds

/-- The code of the blocks adds the values of all contributions of the partition. -/
theorem adds_blocks (h : S.BlocksReady partition accesses L point)
    (hconsistent : ∀ entry ∈ S.integrand.contributions.get partition,
      ∀ contribution ∈ entry.2, S.AxesConsistent partition (Kernel.axes entry.1 contribution))
    {code : List Stmt}
    (hcode : Kernel.blockCode S.target S.integral S.pointCount S.integrand partition accesses =
      .ok code) :
    S.Adds L code (S.partitionValue partition point) := by
  obtain ⟨updates, hupdates, hcode⟩ := bind_eq_ok.1 hcode
  cases hcode
  have hsorted := List.mergeSort_perm (S.integrand.contributions.get partition)
    fun a b => (a.1.order b.1).isLE
  have hentries := (List.forall₂_and_left _ _).2
    ⟨fun entry hmem => hconsistent entry (hsorted.mem_iff.1 hmem), mapM_eq_ok.1 hupdates⟩
  have hadds : S.Adds L updates.flatten _ := Adds.flatten (hentries.imp
    fun entry codes ⟨hconsistent, hcodes⟩ => adds_contributions h hconsistent hcodes)
  obtain ⟨δ, hrun, hδ⟩ := hadds
  refine ⟨δ, hrun, fun js p hp => (hδ js p hp).trans ?_⟩
  exact (hsorted.map _).sum_eq

end Setting

end ElementKernel
