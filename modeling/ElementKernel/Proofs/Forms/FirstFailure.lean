import ElementKernel.Monomial.Form
import ElementKernel.Proofs.Forms.Texts
import Mathlib.Order.RelClasses

/-!
# Forms that fail

A form goes through its monomials integral by integral and stops at the first that is not
transformed.  A front part that is transformed as a whole leaves its results and its entries in the
log in front of what the rest does.  The main result says what a form returns and logs, in terms of
its monomials alone: `transform_firstFailure`.
-/

namespace ElementKernel

/-- The monomials are transformed to these, in order. -/
def TransformAll (provider : ElementProvider) (monomials : List RawMonomial)
    (results : List TransformedMonomial) : Prop :=
  List.Forall₂ (fun monomial m => monomial.transform provider = .ok m) monomials results

namespace Logged

variable {α β γ : Type}

/-- What is logged and found later, behind a log and a part of the result. -/
def after (log : List String) (f : α → β) (later : Logged α) : Logged β :=
  ⟨log ++ later.log, f <$> later.result⟩

@[simp] theorem after_nil : after [] (fun a : α => a) = id := by
  funext later
  obtain ⟨log, error | result⟩ := later <;> rfl

@[simp] theorem after_after (log more : List String) (f : β → γ) (g : α → β) (later : Logged α) :
    after log f (after more g later) = after (log ++ more) (fun a => f (g a)) later := by
  obtain ⟨last, error | result⟩ := later
  · simp [after]
  · simp [after]

end Logged

namespace MonomialForm

/-- The entry of a transformed monomial in the log. -/
def monomialLog (m : TransformedMonomial) : Checked String := do
  return monomialEntry (← m.text)

/-- The entries of the transformed integral at a position: one for each monomial, and then one for
the integral with the number of its monomials. -/
def integralLog (position : Nat) (done : TransformedIntegral) : Checked (List String) := do
  return (← done.monomials.mapM monomialLog) ++
    [integralEntry done.monomials.length position done.measure]

/-- The entries of transformed integrals, the first of them at the position `start`. -/
def integralsLog (start : Nat) (done : List TransformedIntegral) : Checked (List String) := do
  return (← (done.zipIdx start).mapM fun entry => integralLog entry.2 entry.1).flatten

/-- The integral is transformed as a whole, under the same measure. -/
def Completes (provider : ElementProvider) (integral : MonomialIntegral)
    (done : TransformedIntegral) : Prop :=
  done.measure = integral.measure ∧ TransformAll provider integral.monomials done.monomials

/-- Every monomial of every integral is transformed. -/
def Succeeds (form : MonomialForm) (provider : ElementProvider) : Prop :=
  ∀ integral ∈ form.integrals, ∀ monomial ∈ integral.monomials,
    ∃ m, monomial.transform provider = .ok m

/-- The monomial `j` of the integral `i` is not transformed, but all those in front of it are, in
lexicographic order. -/
structure FirstFailure (form : MonomialForm) (provider : ElementProvider) (i j : Nat)
    (integral : MonomialIntegral) (failure : Failure TransformError) : Prop where
  found : form.integrals[i]? = some integral
  fails : ∃ monomial, integral.monomials[j]? = some monomial ∧
    monomial.transform provider = .error failure
  first : ∀ i' j' earlier monomial, Prod.Lex (· < ·) (· < ·) (i', j') (i, j) →
    form.integrals[i']? = some earlier → earlier.monomials[j']? = some monomial →
      ∃ m, monomial.transform provider = .ok m

/-- What a failure at a place leaves: an error with the log so far, or just the fault. -/
def stopAt {α : Type} (i j : Nat) (measure : Measure) (log : List String) :
    Failure TransformError → Checked (Logged α)
  | .fault fault => .error fault
  | .error cause => .ok ⟨log, .error ⟨i, j, measure, cause⟩⟩

variable {provider : ElementProvider}

/-! ## Front parts -/

theorem exists_monomialLog {monomials : List RawMonomial} {results : List TransformedMonomial}
    (h : TransformAll provider monomials results) : ∃ log, results.mapM monomialLog = .ok log := by
  refine exists_mapM_eq_ok.2 fun m hm => ?_
  obtain ⟨monomial, -, hmonomial⟩ := exists_of_forall₂_right h hm
  obtain ⟨text, htext⟩ := RawMonomial.exists_text hmonomial
  exact ⟨_, bind_eq_ok.2 ⟨text, htext, rfl⟩⟩

theorem exists_integralLog {integral : MonomialIntegral} {done : TransformedIntegral}
    (h : Completes provider integral done) (position : Nat) :
    ∃ log, integralLog position done = .ok log := by
  obtain ⟨log, hlog⟩ := exists_monomialLog h.2
  exact ⟨_, bind_eq_ok.2 ⟨log, hlog, rfl⟩⟩

theorem transformMonomials_cons {monomial : RawMonomial} {m : TransformedMonomial} {line : String}
    (hmonomial : monomial.transform provider = .ok m) (hline : monomialLog m = .ok line) (i : Nat)
    (measure : Measure) (j : Nat) (rest : List RawMonomial) :
    transformMonomials provider i measure j (monomial :: rest) =
      Logged.after [line] (m :: ·) <$> transformMonomials provider i measure (j + 1) rest := by
  obtain ⟨text, htext, hentry⟩ := bind_eq_ok.1 hline
  cases hentry
  rw [transformMonomials, hmonomial]
  dsimp only
  rw [htext]
  cases transformMonomials provider i measure (j + 1) rest <;> rfl

theorem transformMonomials_append {front : List RawMonomial} {results : List TransformedMonomial}
    (h : TransformAll provider front results) {log : List String}
    (hlog : results.mapM monomialLog = .ok log) (i : Nat) (measure : Measure) (j : Nat)
    (rest : List RawMonomial) :
    transformMonomials provider i measure j (front ++ rest) =
      Logged.after log (results ++ ·) <$>
        transformMonomials provider i measure (j + front.length) rest := by
  induction h generalizing log j with
  | nil =>
      cases hlog
      simp
  | @cons monomial m front results hmonomial _ ih =>
      rw [mapM_eq_ok] at hlog
      obtain _ | ⟨hline, hlines⟩ := hlog
      rw [List.cons_append, transformMonomials_cons hmonomial hline, ih (mapM_eq_ok.2 hlines),
        Functor.map_map]
      simp [Nat.add_right_comm, Nat.add_assoc]

/-- A monomial that fails stops the integral, and nothing is logged for it. -/
theorem transformMonomials_stop {front rest : List RawMonomial}
    {results : List TransformedMonomial} (h : TransformAll provider front results)
    {log : List String} (hlog : results.mapM monomialLog = .ok log) {monomial : RawMonomial}
    {failure : Failure TransformError} (hfailure : monomial.transform provider = .error failure)
    (i : Nat) (measure : Measure) :
    transformMonomials provider i measure 0 (front ++ monomial :: rest) =
      stopAt i front.length measure log failure := by
  rw [transformMonomials_append h hlog, transformMonomials, hfailure, Nat.zero_add]
  cases failure with
  | fault fault => rfl
  | error cause =>
      show Except.ok (Logged.mk (log ++ []) _) = _
      rw [List.append_nil]
      rfl

theorem transformIntegrals_cons {integral : MonomialIntegral} {done : TransformedIntegral}
    (h : Completes provider integral done) {i : Nat} {log : List String}
    (hlog : integralLog i done = .ok log) (rest : List MonomialIntegral) :
    transformIntegrals provider i (integral :: rest) =
      Logged.after log (done :: ·) <$> transformIntegrals provider (i + 1) rest := by
  obtain ⟨measure, results⟩ := done
  obtain ⟨rfl, hresults⟩ := h
  obtain ⟨entries, hentries, hlog⟩ := bind_eq_ok.1 hlog
  cases hlog
  have hmonomials := transformMonomials_append hresults hentries i integral.measure 0 []
  rw [List.append_nil] at hmonomials
  rw [transformIntegrals, hmonomials]
  show (transformIntegrals provider (i + 1) rest >>= _) = _
  cases transformIntegrals provider (i + 1) rest <;> simp [Logged.after]

theorem integralsLog_cons (start : Nat) (first : TransformedIntegral)
    (done : List TransformedIntegral) :
    integralsLog start (first :: done) =
      (do return (← integralLog start first) ++ (← integralsLog (start + 1) done)) := by
  simp [integralsLog]

theorem transformIntegrals_append {front : List MonomialIntegral} {done : List TransformedIntegral}
    (h : List.Forall₂ (Completes provider) front done) {i : Nat} {log : List String}
    (hlog : integralsLog i done = .ok log) (rest : List MonomialIntegral) :
    transformIntegrals provider i (front ++ rest) =
      Logged.after log (done ++ ·) <$> transformIntegrals provider (i + front.length) rest := by
  induction h generalizing log i with
  | nil =>
      cases hlog
      simp
  | @cons integral first front done hfirst _ ih =>
      rw [integralsLog_cons] at hlog
      obtain ⟨entries, hentries, hlog⟩ := bind_eq_ok.1 hlog
      obtain ⟨more, hmore, hlog⟩ := bind_eq_ok.1 hlog
      cases hlog
      rw [List.cons_append, transformIntegrals_cons hfirst hentries, ih hmore, Functor.map_map]
      simp [Nat.add_right_comm, Nat.add_assoc]

theorem exists_integralsLog {front : List MonomialIntegral} {done : List TransformedIntegral}
    (h : List.Forall₂ (Completes provider) front done) (i : Nat) :
    ∃ log, integralsLog i done = .ok log := by
  induction h generalizing i with
  | nil => exact ⟨[], rfl⟩
  | cons hfirst _ ih =>
      obtain ⟨entries, hentries⟩ := exists_integralLog hfirst i
      obtain ⟨more, hmore⟩ := ih (i + 1)
      rw [integralsLog_cons, hentries, hmore]
      exact ⟨_, rfl⟩

/-! ## Places -/

theorem exists_transformAll {monomials : List RawMonomial}
    (h : ∀ monomial ∈ monomials, ∃ m, monomial.transform provider = .ok m) :
    ∃ results, TransformAll provider monomials results := by
  obtain ⟨results, hresults⟩ := exists_mapM_eq_ok.2 h
  exact ⟨results, mapM_eq_ok.1 hresults⟩

theorem exists_completes {integrals : List MonomialIntegral}
    (h : ∀ integral ∈ integrals, ∀ monomial ∈ integral.monomials,
      ∃ m, monomial.transform provider = .ok m) :
    ∃ done, List.Forall₂ (Completes provider) integrals done := by
  induction integrals with
  | nil => exact ⟨[], .nil⟩
  | cons integral integrals ih =>
      rw [List.forall_mem_cons] at h
      obtain ⟨results, hresults⟩ := exists_transformAll h.1
      obtain ⟨done, hdone⟩ := ih h.2
      exact ⟨⟨integral.measure, results⟩ :: done, .cons ⟨rfl, hresults⟩ hdone⟩

theorem exists_first {α : Type} {p : α → Prop} {xs : List α} (h : ¬∀ x ∈ xs, p x) :
    ∃ front x rest, xs = front ++ x :: rest ∧ (∀ y ∈ front, p y) ∧ ¬p x := by
  classical
  push Not at h
  obtain ⟨x, hx, hp⟩ := h
  obtain ⟨first, hfirst⟩ := Option.isSome_iff_exists.1
    (List.find?_isSome (p := fun x => ¬p x) |>.2 ⟨x, hx, by simpa using hp⟩)
  obtain ⟨hfails, front, rest, hsplit, hfront⟩ := List.find?_eq_some_iff_append.1 hfirst
  exact ⟨front, first, rest, hsplit, by simpa using hfront, by simpa using hfails⟩

theorem transform_of_completes {form : MonomialForm} {done : List TransformedIntegral}
    (h : List.Forall₂ (Completes provider) form.integrals done) {log : List String}
    (hlog : integralsLog 0 done = .ok log) : form.transform provider = .ok ⟨log, .ok ⟨done⟩⟩ := by
  have hintegrals := transformIntegrals_append h hlog []
  rw [List.append_nil] at hintegrals
  rw [transform, hintegrals]
  simp [transformIntegrals, Logged.after]

theorem transform_of_failure {form : MonomialForm} {before after : List MonomialIntegral}
    {integral : MonomialIntegral} (hform : form.integrals = before ++ integral :: after)
    {done : List TransformedIntegral} (hdone : List.Forall₂ (Completes provider) before done)
    {front rest : List RawMonomial} {monomial : RawMonomial}
    (hintegral : integral.monomials = front ++ monomial :: rest)
    {results : List TransformedMonomial} (hresults : TransformAll provider front results)
    {failure : Failure TransformError} (hfailure : monomial.transform provider = .error failure)
    {log entries : List String} (hlog : integralsLog 0 done = .ok log)
    (hentries : results.mapM monomialLog = .ok entries) :
    form.transform provider =
      stopAt before.length front.length integral.measure (log ++ entries) failure := by
  have hstop : transformMonomials provider before.length integral.measure 0
      (front ++ monomial :: rest) =
        stopAt before.length front.length integral.measure entries failure :=
    transformMonomials_stop hresults hentries hfailure _ _
  rw [transform, hform, transformIntegrals_append hdone hlog, Nat.zero_add, transformIntegrals,
    hintegral, hstop]
  cases failure <;> rfl

theorem firstFailure_of_split {form : MonomialForm} {before after : List MonomialIntegral}
    {integral : MonomialIntegral} (hform : form.integrals = before ++ integral :: after)
    (hbefore : ∀ earlier ∈ before, ∀ monomial ∈ earlier.monomials,
      ∃ m, monomial.transform provider = .ok m)
    {front rest : List RawMonomial} {monomial : RawMonomial}
    (hintegral : integral.monomials = front ++ monomial :: rest)
    (hfront : ∀ earlier ∈ front, ∃ m, earlier.transform provider = .ok m)
    {failure : Failure TransformError} (hfailure : monomial.transform provider = .error failure) :
    form.FirstFailure provider before.length front.length integral failure where
  found := by simp [hform]
  fails := ⟨monomial, by simp [hintegral], hfailure⟩
  first := by
    intro i' j' earlier other hlex hearlier hother
    rw [hform] at hearlier
    cases hlex with
    | left _ _ hlt =>
        rw [List.getElem?_append_left hlt] at hearlier
        exact hbefore earlier (List.mem_of_getElem? hearlier) other (List.mem_of_getElem? hother)
    | right _ hlt =>
        rw [List.getElem?_append_right le_rfl, Nat.sub_self, List.getElem?_cons_zero] at hearlier
        obtain rfl := Option.some.inj hearlier
        rw [hintegral, List.getElem?_append_left hlt] at hother
        exact hfront other (List.mem_of_getElem? hother)

/-! ## The whole form -/

theorem Succeeds.exists_transform {form : MonomialForm} (h : form.Succeeds provider) :
    ∃ done log, List.Forall₂ (Completes provider) form.integrals done ∧
      integralsLog 0 done = .ok log ∧ form.transform provider = .ok ⟨log, .ok ⟨done⟩⟩ := by
  obtain ⟨done, hdone⟩ := exists_completes h
  obtain ⟨log, hlog⟩ := exists_integralsLog hdone 0
  exact ⟨done, log, hdone, hlog, transform_of_completes hdone hlog⟩

/-- A form that does not succeed has a first monomial that fails, and it stops there. -/
theorem exists_firstFailure {form : MonomialForm} (h : ¬form.Succeeds provider) :
    ∃ i j integral failure done results log,
      form.FirstFailure provider i j integral failure ∧
      List.Forall₂ (Completes provider) (form.integrals.take i) done ∧
      TransformAll provider (integral.monomials.take j) results ∧
      (do return (← integralsLog 0 done) ++ (← results.mapM monomialLog)) = .ok log ∧
      form.transform provider = stopAt i j integral.measure log failure := by
  obtain ⟨before, integral, after, hform, hbefore, hintegral⟩ := exists_first h
  obtain ⟨front, monomial, rest, hsplit, hfront, hmonomial⟩ := exists_first hintegral
  obtain ⟨failure, hfailure⟩ : ∃ failure, monomial.transform provider = .error failure := by
    cases houtcome : monomial.transform provider with
    | error failure => exact ⟨failure, rfl⟩
    | ok m => exact absurd ⟨m, houtcome⟩ hmonomial
  obtain ⟨done, hdone⟩ := exists_completes hbefore
  obtain ⟨results, hresults⟩ := exists_transformAll hfront
  obtain ⟨log, hlog⟩ := exists_integralsLog hdone 0
  obtain ⟨entries, hentries⟩ := exists_monomialLog hresults
  refine ⟨before.length, front.length, integral, failure, done, results, log ++ entries,
    firstFailure_of_split hform hbefore hsplit hfront hfailure, ?_, ?_, ?_, ?_⟩
  · rwa [hform, List.take_left]
  · rwa [hsplit, List.take_left]
  · rw [hlog, hentries]
    rfl
  · exact transform_of_failure hform hdone hsplit hresults hfailure hlog hentries

theorem succeeds_of_transform {form : MonomialForm} {log : List String} {result : TransformedForm}
    (h : form.transform provider = .ok ⟨log, .ok result⟩) : form.Succeeds provider := by
  by_contra hfails
  obtain ⟨_, _, _, failure, _, _, _, -, -, -, -, hstop⟩ := exists_firstFailure hfails
  rw [hstop] at h
  cases failure <;> cases h

/-- A form is transformed exactly if all its monomials are, to their results under the same measures
and with the log of these.  Otherwise it stops at the first monomial that is not: with the fault of
this monomial, or else with its error, its place and the measure, and the log ends there. -/
theorem transform_firstFailure (form : MonomialForm) (provider : ElementProvider) :
    ((∃ log result, form.transform provider = .ok ⟨log, .ok result⟩) ↔ form.Succeeds provider) ∧
    (∀ log result, form.transform provider = .ok ⟨log, .ok result⟩ →
      List.Forall₂ (Completes provider) form.integrals result.integrals ∧
        integralsLog 0 result.integrals = .ok log) ∧
    (¬form.Succeeds provider → ∃ i j integral failure done results log,
      form.FirstFailure provider i j integral failure ∧
      List.Forall₂ (Completes provider) (form.integrals.take i) done ∧
      TransformAll provider (integral.monomials.take j) results ∧
      (do return (← integralsLog 0 done) ++ (← results.mapM monomialLog)) = .ok log ∧
      form.transform provider = stopAt i j integral.measure log failure) ∧
    ∀ e : FormError, ∃ details, e.chain =
      s!"failed to transform monomial {e.monomial} of integral {e.integral} ({e.measure.text})" ::
        e.cause.message :: details := by
  refine ⟨⟨?_, fun h => ?_⟩, fun log result h => ?_, exists_firstFailure, fun e => ?_⟩
  · rintro ⟨log, result, h⟩
    exact succeeds_of_transform h
  · obtain ⟨done, log, -, -, hform⟩ := h.exists_transform
    exact ⟨log, ⟨done⟩, hform⟩
  · obtain ⟨done, log', hdone, hlog, hform⟩ := (succeeds_of_transform h).exists_transform
    cases h.symm.trans hform
    exact ⟨hdone, hlog⟩
  · obtain ⟨i, j, measure, cause⟩ := e
    cases cause <;> exact ⟨_, rfl⟩

/-- The second monomial of the second integral uses a key once only. -/
theorem transform_firstFailure_second :
    let scalar := ElementDescriptor.lagrange .triangle 1
    let mass : RawMonomial :=
      ⟨1, [⟨scalar, .argument 0, [], [], none⟩, ⟨scalar, .argument 1, [], [], none⟩]⟩
    let single : RawMonomial := ⟨1, [⟨.vector scalar none, .argument 0, [.free 0], [], none⟩]⟩
    let facet : Measure := ⟨.exteriorFacet, some 1⟩
    let form : MonomialForm := ⟨[⟨⟨.cell, none⟩, [mass]⟩, ⟨facet, [mass, single]⟩]⟩
    ¬form.Succeeds ElementDescriptor.reference ∧ ∃ integral cause done results log,
      form.FirstFailure ElementDescriptor.reference 1 1 integral (.error cause) ∧
      List.Forall₂ (Completes ElementDescriptor.reference) (form.integrals.take 1) done ∧
      TransformAll ElementDescriptor.reference (integral.monomials.take 1) results ∧
      (do return (← integralsLog 0 done) ++ (← results.mapM monomialLog)) = .ok log ∧
      form.transform ElementDescriptor.reference = .ok ⟨log, .error ⟨1, 1, facet, cause⟩⟩ := by
  intro scalar mass single facet form
  have hsingle : single.transform ElementDescriptor.reference =
      .error (.error (.contraction [0, 1] 1 0)) := rfl
  have hfails : ¬form.Succeeds ElementDescriptor.reference := by
    intro h
    obtain ⟨m, hm⟩ := h ⟨facet, [mass, single]⟩ (by simp [form]) single (by simp)
    rw [hsingle] at hm
    cases hm
  obtain ⟨known, hknown, hplace⟩ := exists_eq_ok_of_any
    (x := form.transform ElementDescriptor.reference) (p := fun known =>
      match known.result with
      | .ok _ => false
      | .error e => e.integral = 1 ∧ e.monomial = 1 ∧ e.measure = facet)
    (by decide +kernel)
  obtain ⟨i, j, integral, failure, done, results, log, hfirst, hdone, hresults, hlog, hform⟩ :=
    (transform_firstFailure form ElementDescriptor.reference).2.2.1 hfails
  cases failure with
  | fault fault => cases hknown.symm.trans hform
  | error cause =>
      cases hknown.symm.trans hform
      obtain ⟨rfl, rfl, hmeasure⟩ := of_decide_eq_true hplace
      refine ⟨hfails, integral, cause, done, results, log, hfirst, hdone, hresults, hlog, ?_⟩
      rw [hform, ← hmeasure]
      rfl

end MonomialForm

end ElementKernel
