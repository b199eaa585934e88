import ElementKernel.Proofs.BlockStructure.Reader
import ElementKernel.Proofs.RustSource.Rendering

/-!
# Texts of expressions

The text of an expression stands on one line, and it starts unlike a comment, a brace, the head of a
loop or a declaration.  Both follow from its names alone.
-/

namespace ElementKernel

open RustSource (isWordChar isWordStart Every EveryOf)

/-- The words that statements other than assignments start with. -/
def Dialect.statementWords (d : Dialect) : List (List Char) := "for".toList :: d.declarators

/-- The text has neither line feeds nor semicolons. -/
def IsInline (text : List Char) : Prop := ∀ c ∈ text, c ≠ '\n' ∧ c ≠ ';'

instance : DecidablePred IsInline := fun _ => List.decidableBAll _ _

/-- The text starts unlike a comment, a brace, the head of a loop or a declaration. -/
structure StartsPlain (d : Dialect) (text : List Char) : Prop where
  mark : (text.head?.any fun c => c ∉ [' ', '/', '\x7b', '\x7d']) = true
  word : firstWord text ∉ d.statementWords

structure IsPhrase (d : Dialect) (text : List Char) : Prop extends StartsPlain d text where
  inline : IsInline text

/-- An identifier or a path of identifiers, none of which is a keyword. -/
structure Dialect.IsName (d : Dialect) (name : String) : Prop where
  start : (name.toList.head?.any isWordStart) = true
  chars : (name.toList.all fun c => isWordChar c || c = ':') = true
  word : firstWord name.toList ∉ d.statementWords

/-- The names of an expression are names, and its types stand on one line. -/
def Dialect.NamesHere (d : Dialect) : Expr → Prop
  | .symbol name | .call name _ | .method _ name _ => d.IsName name
  | .cast _ type => IsInline type.toList
  | _ => True

/-! ## Starts of texts -/

variable {d : Dialect} {a b text : List Char}

theorem isInline_append : IsInline (a ++ b) ↔ IsInline a ∧ IsInline b := List.forall_mem_append

/-- A word in front of the text does not go on in it. -/
abbrev EndsWord (text : List Char) : Prop := (text.head?.all fun c => !isWordChar c) = true

theorem firstWord_append (h : EndsWord b) : firstWord (a ++ b) = firstWord a := by
  unfold firstWord
  have hb : b.takeWhile isWordChar = [] := by
    cases b with
    | nil => rfl
    | cons c b => exact List.takeWhile_cons_of_neg (by simpa [EndsWord] using h)
  rw [List.takeWhile_append, hb, List.append_nil]
  split
  next hall => exact ((List.takeWhile_prefix isWordChar).eq_of_length hall).symm
  next => rfl

theorem nil_notMem_statementWords (d : Dialect) : [] ∉ d.statementWords := by
  cases d <;> decide

namespace StartsPlain

theorem append (h : StartsPlain d a) (hb : EndsWord b) : StartsPlain d (a ++ b) where
  mark := by
    have hmark := h.mark
    cases a with
    | nil => cases hmark
    | cons c a => exact hmark
  word := by
    rw [firstWord_append hb]
    exact h.word

theorem of_mark {c : Char} (hword : isWordChar c = false) (h : c ∉ [' ', '/', '\x7b', '\x7d'])
    (rest : List Char) : StartsPlain d (c :: rest) where
  mark := by simpa using h
  word := by
    rw [firstWord, List.takeWhile_cons_of_neg (by simp [hword])]
    exact nil_notMem_statementWords d

end StartsPlain

namespace IsPhrase

theorem append (h : IsPhrase d a) (hword : EndsWord b) (hb : IsInline b) : IsPhrase d (a ++ b) :=
  ⟨h.toStartsPlain.append hword, isInline_append.2 ⟨h.inline, hb⟩⟩

theorem parenthesized (h : IsInline text) : IsPhrase d ('(' :: (text ++ [')'])) := by
  refine ⟨.of_mark (by decide) (by decide) _, List.forall_mem_cons.2 ⟨by decide, ?_⟩⟩
  exact isInline_append.2 ⟨h, by decide⟩

theorem of_chars {allowed : Char → Bool} (hne : text ≠ []) (h : ∀ c ∈ text, allowed c)
    (hmarks : ∀ c, allowed c → c ∉ [' ', '/', '\x7b', '\x7d', '\n', ';'])
    (hwords : ∀ word ∈ d.statementWords, word.any fun c => !allowed c) : IsPhrase d text := by
  refine ⟨⟨?_, fun hword => ?_⟩, fun c hc => ?_⟩
  · obtain ⟨c, rest, rfl⟩ := List.exists_cons_of_ne_nil hne
    have hc := hmarks c (h c List.mem_cons_self)
    simp only [List.mem_cons, not_or] at hc
    simp [hc]
  · obtain ⟨c, hc, hnot⟩ := List.any_eq_true.1 (hwords _ hword)
    have hmem : c ∈ text := (List.takeWhile_prefix isWordChar).subset hc
    rw [h c hmem] at hnot
    cases hnot
  · have hc := hmarks c (h c hc)
    simp only [List.mem_cons, not_or] at hc
    exact ⟨hc.2.2.2.2.1, hc.2.2.2.2.2.1⟩

theorem intercalate {separator : List Char} (hword : EndsWord separator)
    (hne : separator ≠ []) (hinline : IsInline separator) {texts : List (List Char)}
    (h : ∀ text ∈ texts, IsPhrase d text) (htexts : texts ≠ []) :
    IsPhrase d (separator.intercalate texts) := by
  induction texts with
  | nil => exact absurd rfl htexts
  | cons text texts ih =>
      obtain ⟨htext, hrest⟩ := List.forall_mem_cons.1 h
      cases texts with
      | nil => simpa using htext
      | cons second rest =>
          rw [List.intercalate_cons_cons, List.append_assoc]
          refine htext.append ?_ (isInline_append.2 ⟨hinline, (ih hrest (by simp)).inline⟩)
          obtain ⟨c, tail, rfl⟩ := List.exists_cons_of_ne_nil hne
          exact hword

end IsPhrase

theorem isInline_intercalate (separator : List Char) (hinline : IsInline separator)
    {texts : List (List Char)} (h : ∀ text ∈ texts, IsInline text) :
    IsInline (separator.intercalate texts) := by
  induction texts with
  | nil => exact List.forall_mem_nil _
  | cons text texts ih =>
      obtain ⟨htext, hrest⟩ := List.forall_mem_cons.1 h
      cases texts with
      | nil => simpa using htext
      | cons second rest =>
          rw [List.intercalate_cons_cons, List.append_assoc]
          exact isInline_append.2 ⟨htext, isInline_append.2 ⟨hinline, ih hrest⟩⟩

theorem Dialect.IsName.isPhrase {name : String} (h : d.IsName name) : IsPhrase d name.toList := by
  refine ⟨⟨?_, h.word⟩, fun c hc => ?_⟩
  · have hstart := h.start
    cases hname : name.toList.head? with
    | none =>
        rw [hname] at hstart
        cases hstart
    | some c =>
        rw [hname] at hstart
        change isWordStart c = true at hstart
        have hmark : c ∉ [' ', '/', '\x7b', '\x7d'] := by
          intro hmem
          simp only [List.mem_cons, List.not_mem_nil, or_false] at hmem
          obtain rfl | rfl | rfl | rfl := hmem <;> exact absurd hstart (by decide)
        simpa using hmark
  · have hchar := List.all_eq_true.1 h.chars c hc
    constructor
    all_goals
      rintro rfl
      exact absurd hchar (by decide)

/-! ## Literals -/

namespace Renderer

variable {r : Renderer}

/-- Numbers have digits, points, signs and exponents, and as receivers of methods a suffix. -/
def isNumberMark (c : Char) : Bool := c.isDigit || c ∈ ['.', 'e', '-', '_', 'f']

theorem isPhrase_of_number (hne : text ≠ []) (h : ∀ c ∈ text, isNumberMark c) :
    IsPhrase d text := by
  refine .of_chars hne h (fun c hc hmem => ?_) (by cases d <;> decide)
  simp only [List.mem_cons, List.not_mem_nil, or_false] at hmem
  obtain rfl | rfl | rfl | rfl | rfl | rfl := hmem <;> exact absurd hc (by decide)

theorem isNumberMark_of_isDigit {c : Char} (h : c.isDigit) : isNumberMark c := by
  simp [isNumberMark, h]

theorem isPhrase_int (n : Int) : IsPhrase d (toString n).toList := by
  have hdigits : ∀ m, ∀ c ∈ Decimal.digits m, isNumberMark c := fun m c hc =>
    isNumberMark_of_isDigit (Decimal.digits_isDigit m c hc)
  cases n with
  | ofNat m =>
      rw [Decimal.toList_ofNat]
      exact isPhrase_of_number (Decimal.digits_ne_nil m) (hdigits m)
  | negSucc m =>
      rw [Decimal.toList_negSucc]
      exact isPhrase_of_number (List.cons_ne_nil _ _)
        (List.forall_mem_cons.2 ⟨by decide, hdigits (m + 1)⟩)

theorem isPhrase_literal (x : Float) (digits : Nat) {suffix : List Char}
    (hsuffix : suffix.all isNumberMark) :
    IsPhrase d ((FloatLiteral.text x digits).toList ++ suffix) := by
  refine isPhrase_of_number (fun hnil => ?_)
    (List.forall_mem_append.2 ⟨fun c hc => ?_, List.all_eq_true.1 hsuffix⟩)
  · exact RustSource.float_ne_empty x digits
      (String.toList_eq_nil_iff.1 (List.append_eq_nil_iff.1 hnil).1)
  · obtain hdigit | hother := RustSource.mem_float hc
    · exact isNumberMark_of_isDigit hdigit
    · obtain rfl | rfl | rfl : c = '.' ∨ c = 'e' ∨ c = '-' := by simpa using hother
      all_goals rfl

theorem isPhrase_bool (b : Bool) : IsPhrase d (r.expr (.bool b)).toList := by
  rw [expr]
  cases b <;> cases d <;> exact ⟨⟨by decide, by decide⟩, by decide⟩

theorem isPhrase_special {special : String}
    (h : special ∈ ["NAN", "f64::NAN", "INFINITY", "f64::INFINITY", "-INFINITY", "-f64::INFINITY"])
    {suffix : String} (hsuffix : suffix ∈ ["", "_f64"]) :
    IsPhrase d (special ++ suffix).toList := by
  have hall : ∀ special ∈ ["NAN", "f64::NAN", "INFINITY", "f64::INFINITY", "-INFINITY",
      "-f64::INFINITY"], ∀ suffix ∈ ["", "_f64"],
        ((special ++ suffix).toList.head?.any fun c => c ∉ [' ', '/', '\x7b', '\x7d']) = true ∧
          firstWord (special ++ suffix).toList ∉ d.statementWords ∧
          IsInline (special ++ suffix).toList := by
    cases d <;> decide +kernel
  obtain ⟨hmark, hword, hinline⟩ := hall special h suffix hsuffix
  exact ⟨⟨hmark, hword⟩, hinline⟩

theorem isPhrase_float (x : Float) (suffix : String) (hsuffix : suffix ∈ ["", "_f64"]) :
    IsPhrase d (r.float x ++ suffix).toList := by
  unfold float
  split
  · refine isPhrase_special ?_ hsuffix
    cases r.dialect <;> decide
  · split
    · refine isPhrase_special ?_ hsuffix
      have hsign : (if x < 0 then "-" else "") ∈ ["-", ""] := by
        split <;> decide
      obtain hsign | hsign := List.mem_pair.1 hsign
      all_goals
        rw [hsign]
        cases r.dialect <;> decide
    · rw [String.toList_append]
      refine isPhrase_literal x r.digits ?_
      obtain rfl | rfl := List.mem_pair.1 hsuffix <;> decide

theorem isPhrase_expr_float (x : Float) : IsPhrase d (r.expr (.float x)).toList := by
  have h := isPhrase_float (d := d) (r := r) x "" (by decide)
  rwa [String.append_empty] at h

/-! ## Operands -/

theorem isPhrase_group {required : Nat} {e : Expr} {text : String}
    (h : IsPhrase d text.toList) : IsPhrase d (r.group required e text).toList := by
  unfold group
  split
  · rw [String.toList_append, String.toList_append]
    exact .parenthesized h.inline
  · exact h

theorem isPhrase_operands {required : Nat} {es : List Expr}
    (h : ∀ e ∈ es, IsPhrase d (r.expr e).toList) :
    ∀ text ∈ (r.operands required es).map String.toList, IsPhrase d text := by
  rw [List.forall_mem_map]
  induction es with
  | nil =>
      rw [operands]
      exact List.forall_mem_nil _
  | cons e es ih =>
      obtain ⟨he, hrest⟩ := List.forall_mem_cons.1 h
      rw [operands]
      exact List.forall_mem_cons.2 ⟨isPhrase_group he, ih hrest⟩

theorem isInline_operands {required : Nat} {es : List Expr}
    (h : ∀ e ∈ es, IsPhrase d (r.expr e).toList) :
    IsInline (", ".intercalate (r.operands required es)).toList := by
  rw [String.toList_intercalate]
  exact isInline_intercalate ", ".toList (by decide) fun text htext =>
    (isPhrase_operands h text htext).inline

theorem isPhrase_between {left right operator : String} (hleft : IsPhrase d left.toList)
    (hword : EndsWord operator.toList) (hinline : IsInline operator.toList)
    (hne : operator.toList ≠ []) (hright : IsInline right.toList) :
    IsPhrase d (left ++ operator ++ right).toList := by
  obtain ⟨c, rest, hoperator⟩ := List.exists_cons_of_ne_nil hne
  rw [String.append_assoc, String.toList_append, String.toList_append]
  refine hleft.append ?_ (isInline_append.2 ⟨hinline, hright⟩)
  rw [hoperator] at hword ⊢
  exact hword

theorem isPhrase_access {array : Expr} {indices : List Expr}
    (harray : IsPhrase d (r.expr array).toList)
    (hindices : ∀ e ∈ indices, IsPhrase d (r.expr e).toList) :
    IsPhrase d (r.expr (.access array indices)).toList := by
  have hbracket : ∀ text ∈ (r.operands 0 indices).map fun index => "[" ++ index ++ "]",
      IsInline text.toList ∧ ∃ rest, text.toList = '[' :: rest := by
    refine List.forall_mem_map.2 fun index hindex => ?_
    have hinline := (isPhrase_operands hindices _ (List.mem_map_of_mem hindex)).inline
    rw [String.toList_append, String.toList_append]
    exact ⟨isInline_append.2 ⟨isInline_append.2 ⟨by decide, hinline⟩, by decide⟩, _, rfl⟩
  rw [expr, String.toList_append, String.toList_join]
  generalize (r.operands 0 indices).map (fun index => "[" ++ index ++ "]") = texts at hbracket ⊢
  refine (isPhrase_group harray).append ?_ fun c hc => ?_
  · cases texts with
    | nil => rfl
    | cons text texts =>
        obtain ⟨-, rest, htext⟩ := hbracket text List.mem_cons_self
        rw [List.flatMap_cons, htext]
        rfl
  · obtain ⟨text, htext, hc⟩ := List.mem_flatMap.1 hc
    exact (hbracket text htext).1 c hc

theorem isPhrase_joined {separator : String} (hword : EndsWord separator.toList)
    (hne : separator.toList ≠ []) (hinline : IsInline separator.toList) (required : Nat)
    {es : List Expr} (hes : es ≠ []) (h : ∀ e ∈ es, IsPhrase d (r.expr e).toList) :
    IsPhrase d (separator.intercalate (r.operands required es)).toList := by
  rw [String.toList_intercalate]
  refine .intercalate hword hne hinline (isPhrase_operands h) ?_
  obtain ⟨e, rest, rfl⟩ := List.exists_cons_of_ne_nil hes
  rw [operands]
  exact List.cons_ne_nil _ _

theorem isPhrase_sum {es : List Expr} (h : ∀ e ∈ es, IsPhrase d (r.expr e).toList) :
    IsPhrase d (r.expr (.sum es)).toList := by
  by_cases hes : es = []
  · rw [hes]
    exact isPhrase_int 0
  · rw [expr]
    · exact isPhrase_joined (by decide) (by decide) (by decide) _ hes h
    · exact hes

theorem isPhrase_product {es : List Expr} (h : ∀ e ∈ es, IsPhrase d (r.expr e).toList) :
    IsPhrase d (r.expr (.product es)).toList := by
  by_cases hes : es = []
  · rw [hes]
    exact isPhrase_int 1
  · rw [expr]
    · exact isPhrase_joined (by decide) (by decide) (by decide) _ hes h
    · exact hes

theorem isPhrase_difference {a b : Expr} (ha : IsPhrase d (r.expr a).toList)
    (hb : IsPhrase d (r.expr b).toList) : IsPhrase d (r.expr (.difference a b)).toList := by
  rw [expr]
  exact isPhrase_between (isPhrase_group ha) (by decide) (by decide) (by decide)
    (isPhrase_group hb).inline

theorem isPhrase_quotient {a b : Expr} (ha : IsPhrase d (r.expr a).toList)
    (hb : IsPhrase d (r.expr b).toList) : IsPhrase d (r.expr (.quotient a b)).toList := by
  rw [expr]
  exact isPhrase_between (isPhrase_group ha) (by decide) (by decide) (by decide)
    (isPhrase_group hb).inline

theorem isPhrase_logic {op : LogicOp} {a b : Expr} (ha : IsPhrase d (r.expr a).toList)
    (hb : IsPhrase d (r.expr b).toList) : IsPhrase d (r.expr (.logic op a b)).toList := by
  have hassoc : ∀ x y : String, x ++ " " ++ op.symbol ++ " " ++ y =
      x ++ (" " ++ op.symbol ++ " ") ++ y := by
    intro x y
    simp [String.append_assoc]
  rw [expr, hassoc]
  refine isPhrase_between (isPhrase_group ha) ?_ ?_ ?_ (isPhrase_group hb).inline
  all_goals cases op <;> decide

theorem isPhrase_not {a : Expr} (ha : IsPhrase d (r.expr a).toList) :
    IsPhrase d (r.expr (.not a)).toList := by
  rw [expr, String.toList_append]
  exact ⟨.of_mark (by decide) (by decide) _,
    isInline_append.2 ⟨by decide, (isPhrase_group ha).inline⟩⟩

theorem isPhrase_conditional {c t f : Expr} (hc : IsPhrase r.dialect (r.expr c).toList)
    (ht : IsPhrase r.dialect (r.expr t).toList) (hf : IsPhrase r.dialect (r.expr f).toList) :
    IsPhrase r.dialect (r.expr (.conditional c t f)).toList := by
  rw [expr]
  split
  next =>
    exact isPhrase_between
      (isPhrase_between (isPhrase_group hc) (by decide) (by decide) (by decide)
        (isPhrase_group ht).inline)
      (by decide) (by decide) (by decide) (isPhrase_group hf).inline
  next hdialect =>
    rw [hdialect] at hc ht hf ⊢
    have hword : IsPhrase .rust "if".toList := ⟨⟨by decide, by decide⟩, by decide⟩
    have hassoc : "if " ++ r.expr c ++ " \x7b " ++ r.expr t ++ " \x7d else \x7b " ++ r.expr f ++
        " \x7d" = "if" ++ " " ++ (r.expr c ++ " \x7b " ++ r.expr t ++ " \x7d else \x7b " ++
          r.expr f ++ " \x7d") := by
      have hif : "if " = "if" ++ " " := rfl
      rw [hif]
      simp only [String.append_assoc]
    rw [hassoc]
    refine isPhrase_between hword (by decide) (by decide) (by decide) ?_
    simp only [String.toList_append, isInline_append]
    exact ⟨⟨⟨⟨⟨hc.inline, by decide⟩, ht.inline⟩, by decide⟩, hf.inline⟩, by decide⟩

theorem isPhrase_call {function : String} {es : List Expr} (hfunction : d.IsName function)
    (h : ∀ e ∈ es, IsPhrase d (r.expr e).toList) :
    IsPhrase d (r.expr (.call function es)).toList := by
  rw [expr, String.append_assoc]
  refine isPhrase_between hfunction.isPhrase (by decide) (by decide) (by decide) ?_
  rw [String.toList_append]
  exact isInline_append.2 ⟨isInline_operands h, by decide⟩

theorem isPhrase_receiver {e : Expr} (h : IsPhrase d (r.expr e).toList) :
    IsPhrase d (r.receiver e (r.expr e)).toList := by
  unfold receiver
  split
  next x _ =>
    split
    · exact isPhrase_float x _ (by decide)
    · rw [String.toList_append, String.toList_append]
      exact .parenthesized h.inline
  next => exact isPhrase_group h

theorem isPhrase_method {receiver : Expr} {name : String} {es : List Expr}
    (hreceiver : IsPhrase d (r.expr receiver).toList) (hname : d.IsName name)
    (h : ∀ e ∈ es, IsPhrase d (r.expr e).toList) :
    IsPhrase d (r.expr (.method receiver name es)).toList := by
  have hassoc : ∀ x y : String, x ++ "." ++ name ++ "(" ++ y ++ ")" =
      x ++ "." ++ (name ++ "(" ++ y ++ ")") := by
    intro x y
    simp only [String.append_assoc]
  rw [expr, hassoc]
  refine isPhrase_between (isPhrase_receiver hreceiver) (by decide) (by decide) (by decide) ?_
  simp only [String.toList_append, isInline_append]
  exact ⟨⟨⟨hname.isPhrase.inline, by decide⟩, isInline_operands h⟩, by decide⟩

theorem isPhrase_cast {a : Expr} {type : String} (ha : IsPhrase d (r.expr a).toList)
    (htype : IsInline type.toList) : IsPhrase d (r.expr (.cast a type)).toList := by
  rw [expr]
  split
  · rw [String.append_assoc, String.append_assoc, String.toList_append]
    refine ⟨.of_mark (by decide) (by decide) _, isInline_append.2 ⟨by decide, ?_⟩⟩
    rw [String.toList_append, String.toList_append]
    exact isInline_append.2 ⟨htype, isInline_append.2 ⟨by decide, (isPhrase_group ha).inline⟩⟩
  · exact isPhrase_between (isPhrase_group ha) (by decide) (by decide) (by decide) htype

/-! ## Expressions -/

mutual

theorem isPhrase_expr (r : Renderer) : (e : Expr) → Every r.dialect.NamesHere e →
    IsPhrase r.dialect (r.expr e).toList
  | .symbol name, h => by
      rw [Every] at h
      rw [expr]
      exact Dialect.IsName.isPhrase h
  | .float x, _ => isPhrase_expr_float x
  | .int n, _ => isPhrase_int n
  | .bool b, _ => isPhrase_bool b
  | .access array indices, h => by
      obtain ⟨-, harray, hindices⟩ := h
      exact isPhrase_access (isPhrase_expr r array harray) (isPhrase_exprs r indices hindices)
  | .sum terms, h => isPhrase_sum (isPhrase_exprs r terms h.2)
  | .product factors, h => isPhrase_product (isPhrase_exprs r factors h.2)
  | .difference left right, h =>
      isPhrase_difference (isPhrase_expr r left h.2.1) (isPhrase_expr r right h.2.2)
  | .quotient left right, h =>
      isPhrase_quotient (isPhrase_expr r left h.2.1) (isPhrase_expr r right h.2.2)
  | .logic op left right, h =>
      isPhrase_logic (isPhrase_expr r left h.2.1) (isPhrase_expr r right h.2.2)
  | .not operand, h => isPhrase_not (isPhrase_expr r operand h.2)
  | .conditional condition whenTrue whenFalse, h =>
      isPhrase_conditional (isPhrase_expr r condition h.2.1) (isPhrase_expr r whenTrue h.2.2.1)
        (isPhrase_expr r whenFalse h.2.2.2)
  | .call function arguments, h => isPhrase_call h.1 (isPhrase_exprs r arguments h.2)
  | .method receiver name arguments, h =>
      isPhrase_method (isPhrase_expr r receiver h.2.1) h.1 (isPhrase_exprs r arguments h.2.2)
  | .cast operand type, h => isPhrase_cast (isPhrase_expr r operand h.2) h.1

theorem isPhrase_exprs (r : Renderer) : (es : List Expr) → EveryOf r.dialect.NamesHere es →
    ∀ e ∈ es, IsPhrase r.dialect (r.expr e).toList
  | [], _ => List.forall_mem_nil _
  | e :: rest, h => List.forall_mem_cons.2 ⟨isPhrase_expr r e h.1, isPhrase_exprs r rest h.2⟩

end

end Renderer

end ElementKernel
