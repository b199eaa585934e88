import ElementKernel.Word
import Mathlib.Algebra.Group.Nat.Defs
import Mathlib.Data.List.Forall2

/-!
# Outcomes of checked computations

A checked computation either returns, overflows, or reports an error of its input.  `Decides` says
which of the three happens in terms of two propositions: the input is valid, and its sizes fit the
machine word.  The rules below follow the shape of a computation, so that the outcome of a whole
program is read off from the outcomes of its steps.
-/

namespace ElementKernel

theorem bind_eq_ok {ε α β : Type} {x : Except ε α} {k : α → Except ε β} {b : β} :
    x >>= k = .ok b ↔ ∃ a, x = .ok a ∧ k a = .ok b := by
  cases x <;> simp [Bind.bind, Except.bind]

theorem bind_eq_error {ε α β : Type} {x : Except ε α} {k : α → Except ε β} {e : ε} :
    x >>= k = .error e ↔ x = .error e ∨ ∃ a, x = .ok a ∧ k a = .error e := by
  cases x <;> simp [Bind.bind, Except.bind]

theorem eq_ok_get {ε α : Type} {x : Except ε α} (h : x.toOption.isSome) :
    x = .ok (x.toOption.get h) := by
  cases x with
  | error e => cases h
  | ok a => rfl

theorem exists_eq_ok_of_any {ε α : Type} {x : Except ε α} {p : α → Bool}
    (h : x.toOption.any p = true) : ∃ a, x = .ok a ∧ p a = true := by
  cases x with
  | error e => cases h
  | ok a => exact ⟨a, rfl, h⟩

theorem mapM_eq_ok {ε α β : Type} {f : α → Except ε β} {xs : List α} {ys : List β} :
    xs.mapM f = .ok ys ↔ List.Forall₂ (fun x y => f x = .ok y) xs ys := by
  induction xs generalizing ys with
  | nil => cases ys <;> simp [pure, Except.pure]
  | cons x xs ih =>
      rw [List.mapM_cons, bind_eq_ok]
      constructor
      · rintro ⟨y, hy, h⟩
        obtain ⟨zs, hzs, h⟩ := bind_eq_ok.1 h
        cases h
        exact .cons hy (ih.1 hzs)
      · rintro (_ | ⟨hy, hys⟩)
        exact ⟨_, hy, bind_eq_ok.2 ⟨_, ih.2 hys, rfl⟩⟩

theorem exists_of_forall₂_left {α β : Type} {R : α → β → Prop} {xs : List α} {ys : List β}
    (h : List.Forall₂ R xs ys) {x : α} (hx : x ∈ xs) : ∃ y ∈ ys, R x y := by
  induction h with
  | nil => cases hx
  | cons hfirst _ ih =>
      obtain _ | ⟨_, hx⟩ := hx
      · exact ⟨_, List.mem_cons_self, hfirst⟩
      · obtain ⟨y, hmem, hy⟩ := ih hx
        exact ⟨y, List.mem_cons_of_mem _ hmem, hy⟩

theorem exists_of_forall₂_right {α β : Type} {R : α → β → Prop} {xs : List α} {ys : List β}
    (h : List.Forall₂ R xs ys) {y : β} (hy : y ∈ ys) : ∃ x ∈ xs, R x y :=
  exists_of_forall₂_left h.flip hy

theorem exists_mem_of_mapM_left {ε α β : Type} {f : α → Except ε β} {xs : List α} {ys : List β}
    (h : xs.mapM f = .ok ys) {x : α} (hx : x ∈ xs) : ∃ y ∈ ys, f x = .ok y :=
  exists_of_forall₂_left (mapM_eq_ok.1 h) hx

theorem exists_mem_of_mapM_right {ε α β : Type} {f : α → Except ε β} {xs : List α} {ys : List β}
    (h : xs.mapM f = .ok ys) {y : β} (hy : y ∈ ys) : ∃ x ∈ xs, f x = .ok y :=
  exists_of_forall₂_right (mapM_eq_ok.1 h) hy

theorem eq_map_of_mapM {ε α β : Type} {f : α → Except ε β} {g : α → β}
    (hf : ∀ x y, f x = .ok y → y = g x) {xs : List α} {ys : List β} (h : xs.mapM f = .ok ys) :
    ys = xs.map g := by
  induction mapM_eq_ok.1 h with
  | nil => rfl
  | cons hy hys ih => rw [hf _ _ hy, ih (mapM_eq_ok.2 hys), List.map_cons]

theorem exists_mapM_eq_ok {ε α β : Type} {f : α → Except ε β} {xs : List α} :
    (∃ ys, xs.mapM f = .ok ys) ↔ ∀ x ∈ xs, ∃ y, f x = .ok y := by
  induction xs with
  | nil => simp [pure, Except.pure]
  | cons x xs ih =>
      rw [List.forall_mem_cons, ← ih]
      constructor
      · rintro ⟨_, h⟩
        rw [List.mapM_cons] at h
        obtain ⟨y, hy, h⟩ := bind_eq_ok.1 h
        obtain ⟨ys, hys, -⟩ := bind_eq_ok.1 h
        exact ⟨⟨y, hy⟩, ys, hys⟩
      · rintro ⟨⟨y, hy⟩, ys, hys⟩
        exact ⟨y :: ys, mapM_eq_ok.2 (.cons hy (mapM_eq_ok.1 hys))⟩

theorem mapM_eq_of_map_eq {ε α β γ : Type} {f : α → Except ε γ} {g : β → Except ε γ} {xs : List α}
    {ys : List β} (h : xs.map f = ys.map g) : xs.mapM f = ys.mapM g := by
  have hxs : (xs.map f).mapM id = xs.mapM f := List.mapM_map
  have hys : (ys.map g).mapM id = ys.mapM g := List.mapM_map
  rw [← hxs, h, hys]

theorem forM_eq_of_map_eq {ε α β : Type} {f : α → Except ε Unit} {g : β → Except ε Unit}
    {xs : List α} {ys : List β} (h : xs.map f = ys.map g) : xs.forM f = ys.forM g := by
  have hxs : (xs.map f).forM id = xs.forM f := List.forM_map
  have hys : (ys.map g).forM id = ys.forM g := List.forM_map
  rw [← hxs, h, hys]

theorem forM_eq_ok {ε α : Type} {f : α → Except ε Unit} {xs : List α} :
    xs.forM f = .ok () ↔ ∀ x ∈ xs, f x = .ok () := by
  induction xs with
  | nil => exact iff_of_true rfl (List.forall_mem_nil _)
  | cons x xs ih =>
      rw [List.forall_mem_cons, ← ih]
      exact bind_eq_ok.trans ⟨fun ⟨_, hx, hxs⟩ => ⟨hx, hxs⟩, fun ⟨hx, hxs⟩ => ⟨(), hx, hxs⟩⟩

/-- What the steps of a fold preserve, from nothing done to everything done. -/
theorem foldlM_eq_ok_induction {ε α β : Type} {f : β → α → Except ε β} {P : List α → β → Prop}
    {xs : List α} {b r : β} (h : xs.foldlM f b = .ok r) (hstart : P [] b)
    (hstep : ∀ done x rest b next, xs = done ++ x :: rest → P done b → f b x = .ok next →
      P (done ++ [x]) next) : P xs r := by
  suffices hrest : ∀ rest done b, xs = done ++ rest → P done b → rest.foldlM f b = .ok r → P xs r by
    exact hrest xs [] b rfl hstart h
  intro rest
  induction rest with
  | nil =>
      intro done b hsplit hdone hfold
      cases hfold
      rwa [hsplit, List.append_nil]
  | cons x rest ih =>
      intro done b hsplit hdone hfold
      rw [List.foldlM_cons] at hfold
      obtain ⟨next, hnext, hfold⟩ := bind_eq_ok.1 hfold
      exact ih _ next (by simpa using hsplit) (hstep done x rest b next hsplit hdone hnext) hfold

@[simp] theorem liftM_eq_ok {ε α : Type} {x : Checked α} {a : α} :
    (liftM x : Attempt ε α) = .ok a ↔ x = .ok a := by
  cases x <;> simp [liftM, monadLift, MonadLift.monadLift, Checked.toAttempt]

theorem mapError_eq_ok {ε δ α : Type} {x : Attempt ε α} {g : ε → δ} {a : α} :
    x.mapError g = .ok a ↔ x = .ok a := by
  rcases x with (_ | _) | _ <;> simp [Attempt.mapError]

@[simp] theorem liftM_eq_error {ε α : Type} {x : Checked α} {e : Failure ε} :
    (liftM x : Attempt ε α) = .error e ↔ ∃ f, x = .error f ∧ e = .fault f := by
  cases x <;> simp [liftM, monadLift, MonadLift.monadLift, Checked.toAttempt, eq_comm]

namespace Checked

variable {α β : Type} {fits fits' : Prop}

/-- The computation returns exactly when its sizes fit, and otherwise overflows. -/
structure Decides (x : Checked α) (fits : Prop) : Prop where
  ok : ∀ a, x = .ok a → fits
  fault : ∀ f, x = .error f → f = .overflow ∧ ¬fits

theorem Decides.exists_ok {x : Checked α} (hx : x.Decides fits) (h : fits) : ∃ a, x = .ok a := by
  cases hcase : x with
  | ok a => exact ⟨a, rfl⟩
  | error f => exact absurd h (hx.fault f hcase).2

theorem Decides.pure (a : α) : Decides (.ok a) True where
  ok _ _ := trivial
  fault _ h := nomatch h

theorem Decides.bind {x : Checked α} {k : α → Checked β} (hx : x.Decides fits)
    (hk : ∀ a, x = .ok a → (k a).Decides fits') : (x >>= k).Decides (fits ∧ fits') where
  ok b h := by
    obtain ⟨a, ha, hb⟩ := bind_eq_ok.1 h
    exact ⟨hx.ok a ha, (hk a ha).ok b hb⟩
  fault f h := by
    rcases bind_eq_error.1 h with hf | ⟨a, ha, hf⟩
    · exact ⟨(hx.fault f hf).1, fun hfits => (hx.fault f hf).2 hfits.1⟩
    · exact ⟨((hk a ha).fault f hf).1, fun hfits => ((hk a ha).fault f hf).2 hfits.2⟩

theorem Decides.congr {x : Checked α} (hx : x.Decides fits) (h : fits ↔ fits') :
    x.Decides fits' := by
  rwa [← propext h]

/-- Steps that cannot fail decide nothing more. -/
theorem Decides.bindFree {x : Checked α} {k : α → Checked β} (hx : x.Decides fits)
    (hk : ∀ a, (k a).Decides True) : (x >>= k).Decides fits :=
  (hx.bind fun a _ => hk a).congr (and_iff_left trivial)

end Checked

namespace Attempt

variable {ε α β : Type} {valid valid' fits fits' : Prop}

/-- The attempt returns exactly when its input is valid and its sizes fit.  It faults only by
overflow of sizes that do not fit, and reports an error only of input that is not valid. -/
structure Decides (x : Attempt ε α) (valid fits : Prop) : Prop where
  ok : ∀ a, x = .ok a → valid ∧ fits
  fault : ∀ f, x = .error (.fault f) → f = .overflow ∧ ¬fits
  error : ∀ e, x = .error (.error e) → ¬valid

namespace Decides

theorem exists_ok_iff {x : Attempt ε α} (hx : x.Decides valid fits) :
    (∃ a, x = .ok a) ↔ valid ∧ fits := by
  constructor
  · rintro ⟨a, ha⟩
    exact hx.ok a ha
  · rintro ⟨hvalid, hfits⟩
    rcases hcase : x with failure | a
    · cases failure with
      | fault f => exact absurd hfits (hx.fault f hcase).2
      | error e => exact absurd hvalid (hx.error e hcase)
    · exact ⟨a, rfl⟩

theorem congr {x : Attempt ε α} (hx : x.Decides valid fits) (hvalid : valid ↔ valid')
    (hfits : fits ↔ fits') : x.Decides valid' fits' := by
  rwa [← propext hvalid, ← propext hfits]

theorem pure (a : α) : Attempt.Decides (.ok a : Attempt ε α) True True where
  ok _ _ := ⟨trivial, trivial⟩
  fault _ h := nomatch h
  error _ h := nomatch h

theorem reject (e : ε) (h : ¬valid) : (Attempt.reject e : Attempt ε α).Decides valid fits where
  ok _ h' := nomatch h'
  fault _ h' := nomatch h'
  error _ _ := h

theorem lift {x : Checked α} (hx : x.Decides fits) :
    (liftM x : Attempt ε α).Decides True fits where
  ok a h := ⟨trivial, hx.ok a (liftM_eq_ok.1 h)⟩
  fault f h := by
    obtain ⟨g, hg, hf⟩ := liftM_eq_error.1 h
    cases hf
    exact hx.fault f hg
  error e h := by
    obtain ⟨g, -, he⟩ := liftM_eq_error.1 h
    cases he

theorem bind {x : Attempt ε α} {k : α → Attempt ε β} (hx : x.Decides valid fits)
    (hk : ∀ a, x = .ok a → (k a).Decides valid' fits') :
    (x >>= k).Decides (valid ∧ valid') (fits ∧ fits') where
  ok b h := by
    obtain ⟨a, ha, hb⟩ := bind_eq_ok.1 h
    obtain ⟨hvalid, hfits⟩ := hx.ok a ha
    obtain ⟨hvalid', hfits'⟩ := (hk a ha).ok b hb
    exact ⟨⟨hvalid, hvalid'⟩, hfits, hfits'⟩
  fault f h := by
    rcases bind_eq_error.1 h with hf | ⟨a, ha, hf⟩
    · exact ⟨(hx.fault f hf).1, fun hfits => (hx.fault f hf).2 hfits.1⟩
    · exact ⟨((hk a ha).fault f hf).1, fun hfits => ((hk a ha).fault f hf).2 hfits.2⟩
  error e h := by
    rcases bind_eq_error.1 h with he | ⟨a, ha, he⟩
    · exact fun hvalid => hx.error e he hvalid.1
    · exact fun hvalid => (hk a ha).error e he hvalid.2

theorem bindFree {x : Attempt ε α} {k : α → Attempt ε β} (hx : x.Decides valid fits)
    (hk : ∀ a, (k a).Decides True True) : (x >>= k).Decides valid fits :=
  (hx.bind fun a _ => hk a).congr (and_iff_left trivial) (and_iff_left trivial)

theorem mapError {δ : Type} {x : Attempt ε α} (hx : x.Decides valid fits) (g : ε → δ) :
    (x.mapError g).Decides valid fits where
  ok a h := by
    rcases hcase : x with (_ | _) | b <;> rw [hcase] at h <;> cases h
    exact hx.ok a hcase
  fault f h := by
    rcases hcase : x with (_ | _) | b <;> rw [hcase] at h <;> cases h
    exact hx.fault f hcase
  error e h := by
    rcases hcase : x with (_ | e') | b <;> rw [hcase] at h <;> cases h
    exact hx.error e' hcase

theorem mapM {f : α → Attempt ε β} {V F : α → Prop} {xs : List α}
    (h : ∀ x ∈ xs, (f x).Decides (V x) (F x)) :
    (xs.mapM f).Decides (∀ x ∈ xs, V x) (∀ x ∈ xs, F x) := by
  induction xs with
  | nil => exact (pure []).congr (by simp) (by simp)
  | cons x xs ih =>
      rw [List.mapM_cons]
      have hhead := h x List.mem_cons_self
      have htail := ih fun y hy => h y (List.mem_cons_of_mem x hy)
      exact (hhead.bind fun y _ => htail.bindFree fun ys => pure (y :: ys)).congr
        List.forall_mem_cons.symm List.forall_mem_cons.symm

theorem forM {f : α → Attempt ε Unit} {V F : α → Prop} {xs : List α}
    (h : ∀ x ∈ xs, (f x).Decides (V x) (F x)) :
    (xs.forM f).Decides (∀ x ∈ xs, V x) (∀ x ∈ xs, F x) := by
  induction xs with
  | nil => exact (pure ()).congr (by simp) (by simp)
  | cons x xs ih =>
      have hhead := h x List.mem_cons_self
      have htail := ih fun y hy => h y (List.mem_cons_of_mem x hy)
      exact (hhead.bind fun _ _ => htail).congr
        List.forall_mem_cons.symm List.forall_mem_cons.symm

end Decides

/-- The attempt comes to a result with `post` or to an error with `refused`, and it faults only when
its sizes do not fit. -/
structure Yields (x : Attempt ε α) (fits : Prop) (refused : ε → Prop) (post : α → Prop) : Prop where
  ok : ∀ a, x = .ok a → post a
  fault : ∀ f, x = .error (.fault f) → ¬fits
  error : ∀ e, x = .error (.error e) → refused e

namespace Yields

variable {refused : ε → Prop} {post : α → Prop} {post' : β → Prop}

theorem pure {a : α} (h : post a) : Attempt.Yields (.ok a : Attempt ε α) fits refused post where
  ok _ h' := Except.ok.inj h' ▸ h
  fault _ h' := nomatch h'
  error _ h' := nomatch h'

theorem reject {e : ε} (h : refused e) :
    (Attempt.reject e : Attempt ε α).Yields fits refused post where
  ok _ h' := nomatch h'
  fault _ h' := nomatch h'
  error e' h' := by
    cases h'
    exact h

theorem lift {x : Checked α} (hok : ∀ a, x = .ok a → post a)
    (hfault : ∀ f, x = .error f → ¬fits) :
    (liftM x : Attempt ε α).Yields fits refused post where
  ok a h := hok a (liftM_eq_ok.1 h)
  fault f h := by
    obtain ⟨g, hg, -⟩ := liftM_eq_error.1 h
    exact hfault g hg
  error e h := by
    obtain ⟨g, -, he⟩ := liftM_eq_error.1 h
    cases he

theorem bind {x : Attempt ε α} {k : α → Attempt ε β} (hx : x.Yields fits refused post)
    (hk : ∀ a, x = .ok a → post a → (k a).Yields fits refused post') :
    (x >>= k).Yields fits refused post' where
  ok b h := by
    obtain ⟨a, ha, hb⟩ := bind_eq_ok.1 h
    exact (hk a ha (hx.ok a ha)).ok b hb
  fault f h := by
    rcases bind_eq_error.1 h with hf | ⟨a, ha, hf⟩
    · exact hx.fault f hf
    · exact (hk a ha (hx.ok a ha)).fault f hf
  error e h := by
    rcases bind_eq_error.1 h with he | ⟨a, ha, he⟩
    · exact hx.error e he
    · exact (hk a ha (hx.ok a ha)).error e he

theorem mono {x : Attempt ε α} {more : α → Prop} (hx : x.Yields fits refused post)
    (h : ∀ a, post a → more a) : x.Yields fits refused more where
  ok a ha := h a (hx.ok a ha)
  fault := hx.fault
  error := hx.error

theorem mapError {δ : Type} {x : Attempt ε α} (hx : x.Yields fits refused post) {g : ε → δ}
    {refused' : δ → Prop} (h : ∀ e, refused e → refused' (g e)) :
    (x.mapError g).Yields fits refused' post := by
  rcases x with (f | e) | a
  · exact ⟨fun _ h => (nomatch h), fun _ _ => hx.fault f rfl, fun _ h => (nomatch h)⟩
  · exact reject (h e (hx.error e rfl))
  · exact pure (hx.ok a rfl)

theorem mapM {f : α → Attempt ε β} {related : α → β → Prop} {xs : List α}
    (h : ∀ x ∈ xs, (f x).Yields fits refused (related x)) :
    (xs.mapM f).Yields fits refused (List.Forall₂ related xs) := by
  induction xs with
  | nil => exact pure .nil
  | cons x xs ih =>
      rw [List.mapM_cons]
      refine (h x List.mem_cons_self).bind fun y _ hy => ?_
      exact (ih fun z hz => h z (List.mem_cons_of_mem x hz)).bind fun ys _ hys =>
        pure (.cons hy hys)

theorem foldlM {f : β → α → Attempt ε β} (invariant : List α → β → Prop) (done : List α)
    {xs : List α} (h : ∀ done b x, x ∈ xs → invariant done b →
      (f b x).Yields fits refused (invariant (done ++ [x]))) {b : β} (hb : invariant done b) :
    (xs.foldlM f b).Yields fits refused (invariant (done ++ xs)) := by
  induction xs generalizing done b with
  | nil => exact pure (by simpa using hb)
  | cons x xs ih =>
      rw [List.foldlM_cons]
      refine (h done b x List.mem_cons_self hb).bind fun next _ hnext => ?_
      rw [List.append_cons]
      exact ih _ (fun done b y hy => h done b y (List.mem_cons_of_mem x hy)) hnext

end Yields

end Attempt

namespace Word

/-- Every partial product from the left fits the word, when `a` is multiplied in first. -/
def ProductFits : Nat → List Nat → Prop
  | _, [] => True
  | a, x :: xs => a * x < limit ∧ ProductFits (a * x) xs

theorem fit_decides (n : Nat) : (fit n).Decides (n < limit) where
  ok m h := (fit_eq_ok_iff.1 h).2
  fault f h := by
    unfold fit at h
    split at h
    · cases h
    · cases h
      exact ⟨rfl, ‹_›⟩

theorem mul_decides (a b : Nat) : (mul a b).Decides (a * b < limit) := fit_decides _

theorem sub_decides (a b : Nat) : (sub a b).Decides (b ≤ a) where
  ok m h := by
    unfold sub at h
    split at h
    · assumption
    · cases h
  fault f h := by
    unfold sub at h
    split at h
    · cases h
    · cases h
      exact ⟨rfl, ‹_›⟩

theorem mul_eq_ok {a b n : Nat} (h : mul a b = .ok n) : n = a * b :=
  (fit_eq_ok_iff.1 h).1.symm

theorem foldlM_mul_decides (xs : List Nat) (a : Nat) :
    (xs.foldlM mul a).Decides (ProductFits a xs) := by
  induction xs generalizing a with
  | nil => exact .pure a
  | cons x xs ih =>
      rw [List.foldlM_cons]
      refine (mul_decides a x).bind fun b hb => ?_
      rw [mul_eq_ok hb]
      exact ih (a * x)

theorem product_decides (xs : List Nat) : (product xs).Decides (ProductFits 1 xs) :=
  foldlM_mul_decides xs 1

theorem productFits_of_prefixes {a : Nat} {xs : List Nat}
    (h : ∀ part : List Nat, part <+: xs → a * part.prod < limit) : ProductFits a xs := by
  induction xs generalizing a with
  | nil => trivial
  | cons x rest ih =>
      constructor
      · simpa using h [x] (by simp)
      · refine ih fun part hpart => ?_
        simpa [Nat.mul_assoc] using h (x :: part) (List.cons_prefix_cons.2 ⟨rfl, hpart⟩)

end Word

end ElementKernel
