import ElementKernel.Code.Lines
import ElementKernel.Proofs.Scoping.Names

/-!
# Nested brackets

The values of an array as a tree: an element, or a list of trees in brackets.  Its text is readable:
no two trees have the same one, as long as no element contains a bracket, a comma or a blank.
-/

namespace ElementKernel

inductive Nest where
  | element (text : String)
  | list (items : List Nest)

namespace Nest

mutual

/-- The tree as text, a comma and a blank between the items of a list. -/
def text (r : Renderer) : Nest → String
  | .element text => text
  | .list items => r.brackets (", ".intercalate (texts r items))

def texts (r : Renderer) : List Nest → List String
  | [] => []
  | t :: rest => t.text r :: texts r rest

end

mutual

/-- The elements from left to right. -/
def elements : Nest → List String
  | .element text => [text]
  | .list items => elementsOf items

def elementsOf : List Nest → List String
  | [] => []
  | t :: rest => t.elements ++ elementsOf rest

end

mutual

/-- The greatest number of brackets that are open at one place. -/
def depth : Nest → Nat
  | .element _ => 0
  | .list items => depthOf items + 1

def depthOf : List Nest → Nat
  | [] => 0
  | t :: rest => max t.depth (depthOf rest)

end

/-- At every level there are as many items as the size of that level says, and elements stand below
the last level. -/
def HasShape : List Nat → Nest → Prop
  | [], .element _ => True
  | size :: sizes, .list items => items.length = size ∧ ∀ t ∈ items, HasShape sizes t
  | _, _ => False

theorem texts_eq_map (r : Renderer) (items : List Nest) : texts r items = items.map (text r) := by
  induction items with
  | nil => rfl
  | cons t rest ih => rw [texts, ih, List.map_cons]

theorem elementsOf_eq_flatMap (items : List Nest) : elementsOf items = items.flatMap elements := by
  induction items with
  | nil => rfl
  | cons t rest ih => rw [elementsOf, ih, List.flatMap_cons]

theorem depthOf_eq {items : List Nest} {n : Nat} (h : ∀ t ∈ items, t.depth = n)
    (hne : n = 0 ∨ items ≠ []) : depthOf items = n := by
  induction items with
  | nil => exact (hne.resolve_right fun h => h rfl).symm
  | cons t rest ih =>
      obtain ⟨ht, hrest⟩ := List.forall_mem_cons.1 h
      rw [depthOf, ht]
      cases rest with
      | nil => exact Nat.max_zero n
      | cons => rw [ih hrest (.inr (List.cons_ne_nil _ _)), Nat.max_self]

/-- Where no list but the innermost may be empty, the brackets are as deep as there are sizes. -/
theorem HasShape.depth_eq {sizes : List Nat} {t : Nest} (h : HasShape sizes t)
    (hsizes : 0 ∉ sizes.dropLast) : t.depth = sizes.length := by
  induction sizes generalizing t with
  | nil =>
      cases t with
      | element => rfl
      | list => exact h.elim
  | cons size sizes ih =>
      cases t with
      | element => exact h.elim
      | list items =>
          obtain ⟨rfl, hitems⟩ := h
          rw [depth, List.length_cons]
          cases sizes with
          | nil => rw [depthOf_eq (fun t ht => ih (hitems t ht) List.not_mem_nil) (.inl rfl)]
          | cons second inner =>
              rw [List.dropLast_cons_cons, List.mem_cons, not_or] at hsizes
              rw [depthOf_eq (fun t ht => ih (hitems t ht) hsizes.2)
                (.inr (List.ne_nil_of_length_pos (Nat.pos_of_ne_zero (Ne.symm hsizes.1))))]

/-! ## Readability -/

/-- What stands around elements: brackets, commas and blanks. -/
def marks : List Char := [',', ' ', '[', ']', '\x7b', '\x7d']

def isMark (c : Char) : Bool := c ∈ marks

/-- An element that is told apart from the marks around it. -/
def IsWord (text : String) : Prop := text ≠ "" ∧ ∀ c ∈ text.toList, ¬isMark c

/-- All elements are words. -/
def IsReadable (t : Nest) : Prop := ∀ text ∈ t.elements, IsWord text

end Nest

namespace Renderer

variable (r : Renderer)

def opening : Char :=
  match r.dialect with
  | .c => '\x7b'
  | .rust => '['

def closing : Char :=
  match r.dialect with
  | .c => '\x7d'
  | .rust => ']'

theorem toList_brackets (inside : String) :
    (r.brackets inside).toList = r.opening :: (inside.toList ++ [r.closing]) := by
  unfold brackets opening closing
  cases r.dialect <;> simp [String.toList_append]

theorem isMark_opening : Nest.isMark r.opening := by
  unfold opening
  cases r.dialect <;> rfl

theorem isMark_closing : Nest.isMark r.closing := by
  unfold closing
  cases r.dialect <;> rfl

theorem closing_ne_opening : r.closing ≠ r.opening := by
  unfold closing opening
  cases r.dialect <;> decide

theorem closing_ne_comma : r.closing ≠ ',' := by
  unfold closing
  cases r.dialect <;> decide

end Renderer

namespace Nest

variable {r : Renderer}

/-- The text of the items that follow another one in a list. -/
def behind (r : Renderer) : List Nest → List Char
  | [] => []
  | t :: rest => ',' :: ' ' :: ((t.text r).toList ++ behind r rest)

theorem behind_cons_append (t : Nest) (items : List Nest) (rest : List Char) :
    behind r (t :: items) ++ rest =
      ',' :: ' ' :: ((t.text r).toList ++ (behind r items ++ rest)) := by
  rw [behind, List.cons_append, List.cons_append, List.append_assoc]

theorem list_nil_append (rest : List Char) :
    ((list []).text r).toList ++ rest = r.opening :: r.closing :: rest := by
  rw [text, r.toList_brackets, texts, String.intercalate_nil]
  rfl

theorem list_cons_append (t : Nest) (items : List Nest) (rest : List Char) :
    ((list (t :: items)).text r).toList ++ rest =
      r.opening :: ((t.text r).toList ++ (behind r items ++ r.closing :: rest)) := by
  have hbehind : ∀ (t : Nest) (items : List Nest),
      (", ".intercalate (texts r (t :: items))).toList = (t.text r).toList ++ behind r items := by
    intro t items
    induction items generalizing t with
    | nil => simp [texts, behind]
    | cons next items ih =>
        rw [texts, behind, ← ih next, String.toList_intercalate, String.toList_intercalate]
        simp [texts, List.intercalate_cons_cons]
  rw [text, r.toList_brackets, hbehind, List.cons_append, List.append_assoc, List.append_assoc,
    List.singleton_append]

theorem head_text_list (items : List Nest) (rest : List Char) :
    (((list items).text r).toList ++ rest).head? = some r.opening := by
  cases items with
  | nil => rw [list_nil_append, List.head?_cons]
  | cons t items => rw [list_cons_append, List.head?_cons]

theorem head_of_isWord {word : String} (h : IsWord word) (rest : List Char) :
    ∃ c, (word.toList ++ rest).head? = some c ∧ ¬isMark c := by
  obtain ⟨hne, hchars⟩ := h
  cases hword : word.toList with
  | nil => exact absurd (String.toList_eq_nil_iff.1 hword) hne
  | cons c chars => exact ⟨c, rfl, hchars c (hword ▸ List.mem_cons_self)⟩

theorem element_append_ne_list {word : String} (h : IsWord word) {items : List Nest}
    {rest rest' : List Char} :
    ((element word).text r).toList ++ rest ≠ ((list items).text r).toList ++ rest' := by
  intro heq
  obtain ⟨c, hc, hmark⟩ := head_of_isWord h rest
  have hhead := congrArg List.head? heq
  rw [head_text_list, text, hc] at hhead
  exact hmark (Option.some.inj hhead ▸ r.isMark_opening)

theorem head_text_ne_closing {t : Nest} (h : t.IsReadable) (rest : List Char) :
    ((t.text r).toList ++ rest).head? ≠ some r.closing := by
  cases t with
  | element word =>
      obtain ⟨c, hc, hmark⟩ := head_of_isWord (h word List.mem_cons_self) rest
      rw [text, hc]
      exact fun heq => hmark (Option.some.inj heq ▸ r.isMark_closing)
  | list items =>
      rw [head_text_list]
      exact fun heq => r.closing_ne_opening (Option.some.inj heq).symm

theorem isMark_head_behind (items : List Nest) (rest : List Char) :
    ∀ c ∈ (behind r items ++ r.closing :: rest).head?, isMark c := by
  cases items with
  | nil =>
      rintro c ⟨⟩
      exact r.isMark_closing
  | cons t items =>
      rintro c ⟨⟩
      rfl

theorem IsReadable.items {items : List Nest} (h : (list items).IsReadable) :
    ∀ t ∈ items, t.IsReadable := by
  intro t ht word hword
  refine h word ?_
  rw [elements, elementsOf_eq_flatMap]
  exact List.mem_flatMap.2 ⟨t, ht, hword⟩

mutual

/-- A tree is read back from the beginning of a text that goes on with a mark. -/
theorem text_append_inj : ∀ {t t' : Nest} {rest rest' : List Char},
    t.IsReadable → t'.IsReadable → (∀ c ∈ rest.head?, isMark c) → (∀ c ∈ rest'.head?, isMark c) →
    (t.text r).toList ++ rest = (t'.text r).toList ++ rest' → t = t' ∧ rest = rest'
  | .element word, .element word', rest, rest', h, h', hrest, hrest', heq => by
      -- Both words end at the first mark.
      have hplain : ∀ {word : String}, (element word).IsReadable →
          ∀ c ∈ word.toList, (!isMark c) = true := fun h c hc => by
        simpa using (h _ List.mem_cons_self).2 c hc
      have hmark : ∀ {rest : List Char}, (∀ c ∈ rest.head?, isMark c) →
          ∀ c ∈ rest.head?, (!isMark c) = false := fun hrest c hc => by simp [hrest c hc]
      obtain ⟨hword, hrest⟩ := append_inj_of_heads (p := fun c => !isMark c) (hplain h) (hplain h')
        (hmark hrest) (hmark hrest') heq
      exact ⟨congrArg element (String.toList_inj.1 hword), hrest⟩
  | .element word, .list items, rest, rest', h, _, _, _, heq =>
      absurd heq (element_append_ne_list (h word List.mem_cons_self))
  | .list items, .element word, rest, rest', _, h, _, _, heq =>
      absurd heq.symm (element_append_ne_list (h word List.mem_cons_self))
  | .list [], .list [], rest, rest', _, _, _, _, heq => ⟨rfl, List.append_cancel_left heq⟩
  | .list [], .list (t' :: items'), rest, rest', _, h', _, _, heq => by
      -- One list closes where the other one has an item.
      rw [list_nil_append, list_cons_append] at heq
      have hhead := congrArg List.head? (List.cons.inj heq).2
      exact absurd hhead.symm (head_text_ne_closing (h'.items t' List.mem_cons_self) _)
  | .list (t :: items), .list [], rest, rest', h, _, _, _, heq => by
      rw [list_nil_append, list_cons_append] at heq
      have hhead := congrArg List.head? (List.cons.inj heq).2
      exact absurd hhead (head_text_ne_closing (h.items t List.mem_cons_self) _)
  | .list (t :: items), .list (t' :: items'), rest, rest', h, h', _, _, heq => by
      rw [list_cons_append, list_cons_append] at heq
      obtain ⟨ht, hitems⟩ := List.forall_mem_cons.1 h.items
      obtain ⟨ht', hitems'⟩ := List.forall_mem_cons.1 h'.items
      -- The first item ends at a comma or at the closing bracket, which both are marks.
      obtain ⟨rfl, hbehind⟩ := text_append_inj ht ht' (isMark_head_behind items rest)
        (isMark_head_behind items' rest') (List.cons.inj heq).2
      obtain ⟨rfl, hrest⟩ := behind_append_inj hitems hitems' hbehind
      exact ⟨rfl, hrest⟩

theorem behind_append_inj : ∀ {items items' : List Nest} {rest rest' : List Char},
    (∀ t ∈ items, t.IsReadable) → (∀ t ∈ items', t.IsReadable) →
    behind r items ++ r.closing :: rest = behind r items' ++ r.closing :: rest' →
    items = items' ∧ rest = rest'
  | [], [], rest, rest', _, _, heq => ⟨rfl, (List.cons.inj heq).2⟩
  | [], t :: items, rest, rest', _, _, heq => absurd (List.cons.inj heq).1 r.closing_ne_comma
  | t :: items, [], rest, rest', _, _, heq => absurd (List.cons.inj heq).1.symm r.closing_ne_comma
  | t :: items, t' :: items', rest, rest', h, h', heq => by
      obtain ⟨ht, hitems⟩ := List.forall_mem_cons.1 h
      obtain ⟨ht', hitems'⟩ := List.forall_mem_cons.1 h'
      rw [behind_cons_append, behind_cons_append] at heq
      obtain ⟨rfl, hbehind⟩ := text_append_inj ht ht' (isMark_head_behind items rest)
        (isMark_head_behind items' rest') (List.cons.inj (List.cons.inj heq).2).2
      obtain ⟨rfl, hrest⟩ := behind_append_inj hitems hitems' hbehind
      exact ⟨rfl, hrest⟩

end

theorem eq_of_text_eq {t t' : Nest} (h : t.IsReadable) (h' : t'.IsReadable)
    (heq : t.text r = t'.text r) : t = t' := by
  have hchars : (t.text r).toList ++ [] = (t'.text r).toList ++ [] := by rw [heq]
  have hend : ∀ c ∈ ([] : List Char).head?, isMark c := by simp
  exact (text_append_inj h h' hend hend hchars).1

end Nest

end ElementKernel
