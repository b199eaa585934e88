import ElementKernel.Kernel.OperatorCall
import ElementKernel.Proofs.CSource.Tokens

/-!
# Words of generated text

A text falls into words at all characters other than letters, digits and underscores.  Which words a
text has can be seen in its parts, wherever they meet at such a character.
-/

namespace ElementKernel

open CSource (isWordChar)

def isSeparator (c : Char) : Bool := !isWordChar c

/-- The longest parts of a text that consist of letters, digits and underscores. -/
def words (text : String) : List String :=
  ((text.toList.splitOnP isSeparator).filter (· ≠ [])).map String.ofList

/-- The names in generated code that are not its own, each with what brings it in. -/
def Dialect.providers : Dialect → List (String × String)
  | .c => [("std", "#include <cmath>"), ("NAN", "#include <cmath>"),
      ("INFINITY", "#include <cmath>"), ("boost", "#include <boost/math/special_functions.hpp>"),
      ("memset", "#include <cstring>")]
  | .rust => [("libm", "libm")]

/-- The names that are brought in for the operators of a kernel only. -/
def foreignNames : List String := ["std", "NAN", "INFINITY", "boost", "libm"]

/-! ## Words of parts -/

/-- No word goes on in front of the text. -/
def startsOpen (text : String) : Bool := text.toList.head?.all isSeparator

/-- No word goes on behind the text. -/
def endsOpen (text : String) : Bool := text.toList.getLast?.all isSeparator

/-- Parts that meet at a separator have their own pieces. -/
theorem filter_splitOnP_append {α : Type} {p : α → Bool} {xs ys : List α}
    (h : xs.getLast?.all p ∨ ys.head?.all p) :
    ((xs ++ ys).splitOnP p).filter (· ≠ []) =
      (xs.splitOnP p).filter (· ≠ []) ++ (ys.splitOnP p).filter (· ≠ []) := by
  obtain h | h := h
  · cases xs using List.reverseRecOn with
    | nil => simp
    | append_singleton xs c =>
        have hc : p c := by simpa using h
        rw [List.append_assoc, List.singleton_append, List.splitOnP_append_cons _ _ hc,
          List.splitOnP_append_cons xs [] hc]
        simp
  · cases ys with
    | nil => simp
    | cons c ys =>
        have hc : p c := by simpa using h
        rw [List.splitOnP_append_cons _ _ hc, List.splitOnP_cons_eq_if_modifyHead, if_pos hc]
        simp

theorem words_append {a b : String} (h : endsOpen a ∨ startsOpen b) :
    words (a ++ b) = words a ++ words b := by
  rw [words, String.toList_append, filter_splitOnP_append h, List.map_append]
  rfl

theorem mem_of_mem_splitOnP {α : Type} {p : α → Bool} {xs piece : List α}
    (h : piece ∈ xs.splitOnP p) : ∀ x ∈ piece, x ∈ xs := by
  induction xs generalizing piece with
  | nil =>
      rw [List.splitOnP_nil, List.mem_singleton] at h
      subst h
      nofun
  | cons y ys ih =>
      rw [List.splitOnP_cons_eq_if_modifyHead] at h
      split at h
      · obtain rfl | h := List.mem_cons.1 h
        · nofun
        · exact fun x hx => List.mem_cons_of_mem y (ih h x hx)
      · obtain ⟨first, rest, hsplit⟩ := List.exists_cons_of_ne_nil (List.splitOnP_ne_nil p ys)
        rw [hsplit] at h ih
        obtain rfl | h := List.mem_cons.1 h
        · intro x hx
          obtain rfl | hx := List.mem_cons.1 hx
          · exact List.mem_cons_self
          · exact List.mem_cons_of_mem y (ih List.mem_cons_self x hx)
        · exact fun x hx => List.mem_cons_of_mem y (ih (List.mem_cons_of_mem _ h) x hx)

theorem mem_of_mem_words {text word : String} (h : word ∈ words text) :
    ∀ c ∈ word.toList, c ∈ text.toList := by
  obtain ⟨piece, hpiece, rfl⟩ := List.mem_map.1 h
  rw [String.toList_ofList]
  exact mem_of_mem_splitOnP (List.mem_filter.1 hpiece).1

theorem endsOpen_append {a s : String} (hs : s ≠ "") (h : endsOpen s) : endsOpen (a ++ s) := by
  have hlist : s.toList ≠ [] := fun hnil => hs (String.toList_eq_nil_iff.1 hnil)
  rw [endsOpen, String.toList_append, List.getLast?_append_of_ne_nil _ hlist]
  exact h

theorem startsOpen_append {a b : String} (ha : startsOpen a) (hb : a = "" → startsOpen b) :
    startsOpen (a ++ b) := by
  unfold startsOpen at ha hb ⊢
  rw [String.toList_append, List.head?_append]
  cases hhead : a.toList.head? with
  | none => simpa using hb (String.toList_eq_nil_iff.1 (List.head?_eq_none_iff.1 hhead))
  | some c => simpa [hhead] using ha

/-! ## Missing names -/

/-- A name is no word of a text. -/
def Lacks (name text : String) : Prop := name ∉ words text

instance (name text : String) : Decidable (Lacks name text) :=
  inferInstanceAs (Decidable (name ∉ words text))

theorem lacks_append {name a b : String} (h : endsOpen a ∨ startsOpen b) :
    Lacks name (a ++ b) ↔ Lacks name a ∧ Lacks name b := by
  rw [Lacks, words_append h, List.mem_append, not_or]
  rfl

/-- A text without foreign names. -/
def IsPlain (text : String) : Prop := ∀ name ∈ foreignNames, Lacks name text

instance (text : String) : Decidable (IsPlain text) :=
  inferInstanceAs (Decidable (∀ name ∈ foreignNames, Lacks name text))

/-- A plain text that keeps the words around it apart. -/
def Separates (text : String) : Prop :=
  text ≠ "" ∧ startsOpen text ∧ endsOpen text ∧ IsPlain text

instance (text : String) : Decidable (Separates text) :=
  inferInstanceAs (Decidable (text ≠ "" ∧ startsOpen text ∧ endsOpen text ∧ IsPlain text))

section

variable {name a b s : String} (hname : name ∈ foreignNames)

include hname

theorem lacks_between (hs : Separates s) :
    Lacks name (a ++ s ++ b) ↔ Lacks name a ∧ Lacks name b := by
  obtain ⟨hne, hstarts, hends, hplain⟩ := hs
  rw [lacks_append (.inl (endsOpen_append hne hends)), lacks_append (.inr hstarts)]
  simp [hplain name hname]

theorem lacks_after (hs : endsOpen s ∧ IsPlain s) : Lacks name (s ++ a) ↔ Lacks name a := by
  rw [lacks_append (.inl hs.1)]
  simp [hs.2 name hname]

theorem lacks_before (hs : startsOpen s ∧ IsPlain s) : Lacks name (a ++ s) ↔ Lacks name a := by
  rw [lacks_append (.inr hs.1)]
  simp [hs.2 name hname]

theorem lacks_intercalate (hs : Separates s) {texts : List String}
    (h : ∀ text ∈ texts, Lacks name text) : Lacks name (s.intercalate texts) := by
  induction texts with
  | nil =>
      rw [String.intercalate_nil]
      exact List.not_mem_nil
  | cons text texts ih =>
      obtain ⟨htext, hrest⟩ := List.forall_mem_cons.1 h
      cases texts with
      | nil => rwa [String.intercalate_singleton]
      | cons second texts =>
          rw [String.intercalate_cons_cons, lacks_between hname hs]
          exact ⟨htext, ih hrest⟩

theorem lacks_of_chars (allowed : Char → Bool) {text : String}
    (hallowed : foreignNames.all (fun foreign => !foreign.toList.all allowed) = true)
    (h : ∀ c ∈ text.toList, allowed c) : Lacks name text := by
  intro hmem
  have hno := List.all_eq_true.1 hallowed name hname
  have hall : name.toList.all allowed = true :=
    List.all_eq_true.2 fun c hc => h c (mem_of_mem_words hmem c hc)
  rw [hall] at hno
  cases hno

end

theorem lacks_join {name : String} {texts : List String}
    (h : ∀ text ∈ texts, Lacks name text ∧ startsOpen text) :
    Lacks name (String.join texts) ∧ startsOpen (String.join texts) := by
  induction texts with
  | nil => exact ⟨List.not_mem_nil, rfl⟩
  | cons text texts ih =>
      obtain ⟨⟨htext, hstarts⟩, hrest⟩ := List.forall_mem_cons.1 h
      obtain ⟨hlacks, hopen⟩ := ih hrest
      rw [String.join_cons, lacks_append (.inr hopen)]
      exact ⟨⟨htext, hlacks⟩, startsOpen_append hstarts fun _ => hopen⟩

end ElementKernel
