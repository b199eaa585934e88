import ElementKernel.Proofs.Arrays.Brackets
import ElementKernel.Proofs.Outcome
import ElementKernel.Proofs.RustSource.Numerals

/-!
# Initial values of arrays

The values of an array are written in brackets, nested as the declared sizes say, from left to right
in row-major order.  They are cut into slices as long as the product of the inner sizes, so the
brackets are right as long as no inner size is zero: an array of two empty rows is written as an
array of no rows at all.
-/

namespace ElementKernel

/-! ## Slices -/

section

variable {α : Type} {n : Nat} {xs : List α}

theorem flatten_chunks (hn : n ≠ 0) : (chunks n xs).flatten = xs := by
  fun_induction chunks n xs with
  | case1 xs hempty => rw [hempty.resolve_left hn, List.flatten_nil]
  | case2 xs hxs ih => rw [List.flatten_cons, ih, List.take_append_drop]

theorem length_chunks (hn : n ≠ 0) {m : Nat} (h : xs.length = m * n) :
    (chunks n xs).length = m ∧ ∀ slice ∈ chunks n xs, slice.length = n := by
  induction m generalizing xs with
  | zero =>
      have hempty : xs = [] := List.length_eq_zero_iff.1 (by rw [h, Nat.zero_mul])
      rw [chunks, dif_pos (.inr hempty)]
      exact ⟨rfl, List.forall_mem_nil _⟩
  | succ m ih =>
      rw [Nat.succ_mul] at h
      have hne : xs ≠ [] := List.ne_nil_of_length_pos (by omega)
      have hrest : (xs.drop n).length = m * n := by rw [List.length_drop]; omega
      obtain ⟨hlength, hslices⟩ := ih hrest
      rw [chunks, dif_neg (by simp [hn, hne])]
      refine ⟨by rw [List.length_cons, hlength], List.forall_mem_cons.2 ⟨?_, hslices⟩⟩
      rw [List.length_take]
      omega

end

/-! ## Trees of values -/

namespace Nest

variable (r : Renderer)

/-- The values of an array as a tree. -/
def ofValues : List Nat → List Float → Nest
  | [], values => .element ((values.head?.map r.float).getD "")
  | [_], values => .list (values.map fun x => .element (r.float x))
  | _ :: second :: inner, values =>
      .list ((chunks (second :: inner).prod values).map (ofValues (second :: inner)))

theorem text_ofValues (sizes : List Nat) (values : List Float) :
    (ofValues r sizes values).text r = r.initializer sizes values := by
  induction sizes generalizing values with
  | nil => rfl
  | cons size sizes ih =>
      cases sizes with
      | nil =>
          rw [ofValues, text, texts_eq_map, List.map_map]
          rfl
      | cons second inner =>
          have hslices : r.initializer (size :: second :: inner) values =
              r.brackets (", ".intercalate
                ((chunks (second :: inner).prod values).map (r.initializer (second :: inner)))) := rfl
          rw [ofValues, text, texts_eq_map, List.map_map, hslices]
          congr 2
          exact List.map_congr_left fun slice _ => ih slice

variable {r} {sizes : List Nat} {values : List Float}

/-- Without empty slices, every slice becomes an item and keeps its values. -/
theorem ofValues_matches (hsizes : sizes ≠ []) (hslices : 0 ∉ sizes.tail)
    (hvalues : values.length = sizes.prod) :
    (ofValues r sizes values).HasShape sizes ∧
      (ofValues r sizes values).elements = values.map r.float := by
  induction sizes generalizing values with
  | nil => exact absurd rfl hsizes
  | cons size sizes ih =>
      cases sizes with
      | nil =>
          refine ⟨⟨?_, List.forall_mem_map.2 fun _ _ => trivial⟩, ?_⟩
          · rw [List.length_map, hvalues, List.prod_singleton]
          · rw [ofValues, elements, elementsOf_eq_flatMap, List.flatMap_map, List.map_eq_flatMap]
            rfl
      | cons second inner =>
          have hn : (second :: inner).prod ≠ 0 := List.prod_ne_zero hslices
          obtain ⟨hcount, hlengths⟩ := length_chunks hn (hvalues.trans List.prod_cons)
          have hitems := fun slice hslice => ih (List.cons_ne_nil _ _)
            (fun hmem => hslices (List.mem_cons_of_mem _ hmem)) (hlengths slice hslice)
          refine ⟨⟨?_, List.forall_mem_map.2 fun slice hslice => (hitems slice hslice).1⟩, ?_⟩
          · rw [List.length_map, hcount]
          · rw [ofValues, elements, elementsOf_eq_flatMap, List.flatMap_map,
              List.flatMap_congr fun slice hslice => (hitems slice hslice).2, List.flatMap_def,
              ← List.map_flatten, flatten_chunks hn]

/-- Without values, an outermost size of zero leaves nothing to write. -/
theorem ofValues_empty (inner : List Nat) :
    (ofValues r (0 :: inner) []) = .list [] := by
  cases inner with
  | nil => rfl
  | cons second inner =>
      rw [ofValues, chunks, dif_pos (.inr rfl)]
      rfl

end Nest

/-! ## Declarations -/

namespace Renderer

theorem isWord_float (r : Renderer) (x : Float) : Nest.IsWord (r.float x) := by
  have hword : ∀ text ∈ ["NAN", "f64::NAN", "INFINITY", "f64::INFINITY", "-INFINITY",
      "-f64::INFINITY"], Nest.IsWord text := by
    refine fun text htext => ⟨?_, fun c hc => ?_⟩
    · rintro rfl
      exact absurd htext (by decide)
    · have hall : (["NAN", "f64::NAN", "INFINITY", "f64::INFINITY", "-INFINITY",
          "-f64::INFINITY"].all fun text => text.toList.all (!Nest.isMark ·)) = true := by
        decide +kernel
      simpa using List.all_eq_true.1 (List.all_eq_true.1 hall text htext) c hc
  unfold float
  split
  next => exact hword _ (by cases r.dialect <;> decide)
  next =>
    split
    next => exact hword _ (by cases r.dialect <;> split <;> decide)
    next =>
      -- A number is made of digits, points, signs and exponents, which are no marks.
      have hmarks : (Nest.marks.all fun c => !(c.isDigit || c ∈ ['.', 'e', '-'])) = true := by
        decide
      refine ⟨RustSource.float_ne_empty x r.digits, fun c hc hmark => ?_⟩
      have hother := List.all_eq_true.1 hmarks c (of_decide_eq_true hmark)
      obtain hdigit | hmem := RustSource.mem_float hc
      · simp [hdigit] at hother
      · simp [hmem] at hother

/-- What stands in front of the sizes of an array. -/
def declarator (r : Renderer) (decl : ArrayDecl) : String :=
  match r.dialect with
  | .c =>
      (decl.alignment.map fun n => s!"alignas({n}) ").getD "" ++
        (if decl.constant then "static const double" else "double") ++ " " ++ decl.name
  | .rust => (if decl.constant then "static " else "let mut ") ++ decl.name ++ ": "

/-- The declared sizes, the outermost first in C, as in `[m][n]`, and last in Rust, as in
`[[f64; n]; m]`. -/
def sizesText (r : Renderer) (sizes : List Nat) : String :=
  match r.dialect with
  | .c => String.join (sizes.map fun size => s!"[{size}]")
  | .rust => nested "f64" sizes

theorem arrayDecl_eq (r : Renderer) {decl : ArrayDecl} {values : List Float}
    (h : decl.values = some values) :
    r.arrayDecl decl = r.declarator decl ++ r.sizesText decl.sizes ++ " = " ++
      r.initializer decl.sizes values ++ ";" := by
  unfold arrayDecl declarator sizesText
  cases r.dialect with
  | c => simp [h, String.append_assoc]
  | rust => simp [h, String.append_assoc]

end Renderer

namespace ArrayDecl

/-- No size is zero, or the outermost one is and the entries of a slice can be counted. -/
def SlicesMatch (sizes : List Nat) : Prop :=
  0 ∉ sizes ∨ sizes.head? = some 0 ∧ Word.ProductFits 1 sizes.tail

theorem checkValues_eq_ok {decl : ArrayDecl} (h : Word.ProductFits 1 decl.sizes.tail) :
    decl.checkValues = .ok () := by
  unfold checkValues
  split
  next size second inner hvalues hsizes =>
    rw [hsizes] at h
    obtain ⟨n, hn⟩ := (Word.product_decides (second :: inner)).exists_ok h
    exact bind_eq_ok.2 ⟨n, hn, rfl⟩
  next => rfl

theorem SlicesMatch.productFits {sizes : List Nat} (h : SlicesMatch sizes)
    (hword : sizes.prod < Word.limit) : Word.ProductFits 1 sizes.tail := by
  obtain hpositive | ⟨-, hfits⟩ := h
  -- A product of some of the sizes divides the number of values.
  · refine Word.productFits_of_prefixes fun part hpart => ?_
    have hsublist : part.Sublist sizes := hpart.sublist.trans (List.tail_sublist sizes)
    have hpos : 0 < sizes.prod := Nat.pos_of_ne_zero (List.prod_ne_zero hpositive)
    rw [Nat.one_mul]
    exact (Nat.le_of_dvd hpos hsublist.prod_dvd_prod).trans_lt hword
  · exact hfits

theorem SlicesMatch.ofValues_matches {sizes : List Nat} (h : SlicesMatch sizes) (r : Renderer)
    {values : List Float} (hsizes : sizes ≠ []) (hvalues : values.length = sizes.prod) :
    (Nest.ofValues r sizes values).HasShape sizes ∧
      (Nest.ofValues r sizes values).elements = values.map r.float := by
  obtain hpositive | ⟨hhead, -⟩ := h
  · exact Nest.ofValues_matches hsizes (fun hmem => hpositive (List.mem_of_mem_tail hmem)) hvalues
  · obtain ⟨inner, rfl⟩ := List.head?_eq_some_iff.1 hhead
    obtain rfl : values = [] := List.length_eq_zero_iff.1 (by rw [hvalues, List.prod_cons, zero_mul])
    rw [Nest.ofValues_empty]
    exact ⟨⟨rfl, List.forall_mem_nil _⟩, rfl⟩

/-- The declaration of an array with values says its sizes and its values: the values stand in
brackets that are read in one way only, with as many items at every level as the size of that level,
as deep as there are sizes, and from left to right in row-major order. -/
theorem initializer_matches (r : Renderer) {decl : ArrayDecl} {values : List Float}
    (hdecl : decl.values = some values) (hsizes : decl.sizes ≠ [])
    (hvalues : values.length = decl.sizes.prod) (hword : values.length < Word.limit)
    (hslices : SlicesMatch decl.sizes) :
    ∃ t : Nest,
      r.stmt (.array decl) = .ok (r.declarator decl ++ r.sizesText decl.sizes ++ " = " ++
        t.text r ++ ";") ∧
      t.HasShape decl.sizes ∧
      (0 ∉ decl.sizes.dropLast → t.depth = decl.sizes.length) ∧
      t.elements = values.map r.float ∧
      t.IsReadable ∧ ∀ other : Nest, other.IsReadable → other.text r = t.text r → other = t := by
  obtain ⟨hshape, helements⟩ := hslices.ofValues_matches r hsizes hvalues
  have hreadable : (Nest.ofValues r decl.sizes values).IsReadable := by
    intro text htext
    rw [helements] at htext
    obtain ⟨x, -, rfl⟩ := List.mem_map.1 htext
    exact r.isWord_float x
  refine ⟨Nest.ofValues r decl.sizes values, ?_, hshape, hshape.depth_eq, helements, hreadable,
    fun other hother => Nest.eq_of_text_eq hother hreadable⟩
  have hcheck := checkValues_eq_ok (hslices.productFits (hvalues ▸ hword))
  refine bind_eq_ok.2 ⟨(), hcheck, congrArg Except.ok ?_⟩
  rw [Nest.text_ofValues, ← r.arrayDecl_eq hdecl]
  show "\n".intercalate [Renderer.line 0 (r.arrayDecl decl)] = r.arrayDecl decl
  simp [Renderer.line, String.intercalate_singleton]

/-- Two entities with one point and three degrees of freedom. -/
theorem initializer_matches_entities : ∃ t : Nest,
    (⟨.rust, 16⟩ : Renderer).stmt (.array (ArrayDecl.table "FE0" [2, 1, 3] [1, 2, 3, 4, 5, 6])) =
      .ok ("static FE0: [[[f64; 3]; 1]; 2] = " ++ t.text ⟨.rust, 16⟩ ++ ";") ∧
    t.HasShape [2, 1, 3] ∧ t.depth = 3 ∧
    t.elements = [1, 2, 3, 4, 5, 6].map (⟨.rust, 16⟩ : Renderer).float := by
  obtain ⟨t, htext, hshape, hdepth, helements, -⟩ := @initializer_matches ⟨.rust, 16⟩
    (.table "FE0" [2, 1, 3] [1, 2, 3, 4, 5, 6]) _ rfl (List.cons_ne_nil _ _) rfl (by decide)
    (.inl (by decide))
  exact ⟨t, htext, hshape, hdepth (by decide), helements⟩

/-- Two rows without entries are written like no rows. -/
theorem not_initializer_matches : ¬∀ (r : Renderer) (sizes : List Nat) (values : List Float),
    sizes ≠ [] → values.length = sizes.prod →
      ∃ t : Nest, t.IsReadable ∧ t.text r = r.initializer sizes values ∧ t.HasShape sizes := by
  intro hmatches
  obtain ⟨t, hreadable, htext, hshape⟩ :=
    hmatches ⟨.rust, 16⟩ [2, 0] [] (List.cons_ne_nil _ _) rfl
  have hempty : Nest.ofValues ⟨.rust, 16⟩ [2, 0] [] = .list [] := by
    rw [Nest.ofValues, chunks, dif_pos (.inr rfl)]
    rfl
  have hread : (Nest.list []).IsReadable := fun text hmem => absurd hmem List.not_mem_nil
  rw [← Nest.text_ofValues, hempty] at htext
  obtain rfl := Nest.eq_of_text_eq hreadable hread htext
  exact absurd hshape.1 (by decide)

end ArrayDecl

end ElementKernel
