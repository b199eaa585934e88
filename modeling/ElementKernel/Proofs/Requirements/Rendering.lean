import ElementKernel.Code.Lines
import ElementKernel.Proofs.Requirements.Words
import ElementKernel.Proofs.RustSource.Numerals
import ElementKernel.Proofs.Scoping.Statements

/-!
# Words of rendered code

A foreign name stands in the text of an expression or of a statement only if it stands in the text
of one of its parts: in a name, in a called function or in a literal.
-/

namespace ElementKernel

/-- The macros for numbers that are not finite. -/
def floatMacros : List String := ["NAN", "INFINITY"]

theorem mem_of_mem_chunks {α : Type} {n : Nat} {xs chunk : List α} (h : chunk ∈ chunks n xs) :
    ∀ x ∈ chunk, x ∈ xs := by
  fun_induction chunks n xs with
  | case1 => cases h
  | case2 xs hxs ih =>
      obtain rfl | h := List.mem_cons.1 h
      · exact fun x hx => List.mem_of_mem_take hx
      · exact fun x hx => List.mem_of_mem_drop (ih h x hx)

namespace Renderer

/-- The texts that a statement writes on its own lines lack a name. -/
def LacksHere (r : Renderer) (name : String) : Stmt → Prop
  | .comment text => Lacks name text
  | .array decl => Lacks name (r.arrayDecl decl)
  | .declare variableName value => Lacks name variableName ∧ Lacks name (r.expr value)
  | .assign target value | .assignAdd target value =>
      Lacks name (r.expr target) ∧ Lacks name (r.expr value)
  | .zeroFill array _ => Lacks name (r.expr array)
  | .forRange index .. => Lacks name (r.expr index)
  | .scope _ | .list _ => True

/-- No statement of the tree writes the name. -/
def LacksIn (r : Renderer) (name : String) (s : Stmt) : Prop :=
  s.Everywhere fun _ t => r.LacksHere name t

variable {r : Renderer} {name : String}

theorem lacks_symbol {symbol : String} (h : Lacks name symbol) :
    Lacks name (r.expr (.symbol symbol)) := by
  rwa [expr_symbol]

section

variable (hname : name ∈ foreignNames)

include hname

/-! ## Literals -/

theorem lacks_nat (n : Nat) : Lacks name (toString n) := by
  refine lacks_of_chars hname Char.isDigit (by decide) fun c hc => ?_
  rw [Nat.toString_eq_repr, Nat.toList_repr] at hc
  exact Nat.isDigit_of_mem_toDigits (by decide) (by decide) hc

theorem lacks_int (n : Int) : Lacks name (toString n) := by
  cases n with
  | ofNat m => exact lacks_nat hname m
  | negSucc m =>
      show Lacks name ("-" ++ toString (m + 1))
      rw [lacks_after hname (by decide)]
      exact lacks_nat hname (m + 1)

/-- Numbers have digits, points, signs and exponents, and as receivers of methods a suffix. -/
theorem lacks_literal (x : Float) (digits : Nat) {suffix : String}
    (hsuffix : suffix ∈ ["", "_f64"]) : Lacks name (FloatLiteral.text x digits ++ suffix) := by
  refine lacks_of_chars hname (fun c => c.isDigit || c ∈ ['.', 'e', '-', '_', 'f']) (by decide) ?_
  rw [String.toList_append]
  refine List.forall_mem_append.2 ⟨fun c hc => ?_, ?_⟩
  · obtain hdigit | hother := RustSource.mem_float hc
    · simp [hdigit]
    · obtain rfl | rfl | rfl : c = '.' ∨ c = 'e' ∨ c = '-' := by simpa using hother
      all_goals rfl
  · obtain rfl | rfl := List.mem_pair.1 hsuffix
    · exact List.forall_mem_nil _
    · exact List.all_eq_true.1 (by decide)

/-- A number is written with a macro only if it is not finite. -/
theorem lacks_float {x : Float} (h : name ∈ floatMacros → ¬x.isNaN ∧ ¬x.isInf) (suffix : String)
    (hsuffix : suffix ∈ ["", "_f64"]) : Lacks name (r.float x ++ suffix) := by
  have hspecial : ∀ foreign ∈ foreignNames, foreign ∉ floatMacros → ∀ suffix ∈ ["", "_f64"],
      ∀ text ∈ ["NAN", "f64::NAN", "INFINITY", "f64::INFINITY", "-INFINITY", "-f64::INFINITY"],
        Lacks foreign (text ++ suffix) := by
    decide +kernel
  unfold float
  split
  next hnan =>
    refine hspecial name hname (fun hmacro => (h hmacro).1 hnan) suffix hsuffix _ ?_
    cases r.dialect <;> decide
  next =>
    split
    next hinf =>
      refine hspecial name hname (fun hmacro => (h hmacro).2 hinf) suffix hsuffix _ ?_
      have hsign : (if x < 0 then "-" else "") ∈ ["-", ""] := by
        split <;> decide
      obtain hsign | hsign := List.mem_pair.1 hsign
      · rw [hsign]
        cases r.dialect <;> decide
      · rw [hsign]
        cases r.dialect <;> decide
    next => exact lacks_literal hname x r.digits hsuffix

/-! ## Expressions -/

theorem lacks_group {required : Nat} {e : Expr} {text : String} (h : Lacks name text) :
    Lacks name (r.group required e text) := by
  unfold group
  split
  · rwa [lacks_before hname (by decide), lacks_after hname (by decide)]
  · exact h

theorem lacks_operands {required : Nat} {es : List Expr} (h : ∀ e ∈ es, Lacks name (r.expr e)) :
    ∀ text ∈ r.operands required es, Lacks name text := by
  induction es with
  | nil =>
      rw [operands]
      exact List.forall_mem_nil _
  | cons e es ih =>
      obtain ⟨he, hrest⟩ := List.forall_mem_cons.1 h
      rw [operands]
      exact List.forall_mem_cons.2 ⟨lacks_group hname he, ih hrest⟩

theorem lacks_expr_float {x : Float} (h : name ∈ floatMacros → ¬x.isNaN ∧ ¬x.isInf) :
    Lacks name (r.expr (.float x)) := by
  have hfloat := lacks_float (r := r) hname h "" (by decide)
  rwa [String.append_empty] at hfloat

theorem lacks_expr_int (n : Int) : Lacks name (r.expr (.int n)) := lacks_int hname n

theorem lacks_access {array : Expr} {indices : List Expr} (harray : Lacks name (r.expr array))
    (hindices : ∀ e ∈ indices, Lacks name (r.expr e)) :
    Lacks name (r.expr (.access array indices)) := by
  have hbrackets : ∀ text ∈ (r.operands 0 indices).map fun index => "[" ++ index ++ "]",
      Lacks name text ∧ startsOpen text := by
    refine List.forall_mem_map.2 fun index hindex => ⟨?_, ?_⟩
    · rw [lacks_before hname (by decide), lacks_after hname (by decide)]
      exact lacks_operands hname hindices index hindex
    · rw [String.append_assoc]
      exact startsOpen_append (by decide) (by simp)
  obtain ⟨hlacks, hopen⟩ := lacks_join hbrackets
  rw [expr, lacks_append (.inr hopen)]
  exact ⟨lacks_group hname harray, hlacks⟩

theorem lacks_sum {es : List Expr} (h : ∀ e ∈ es, Lacks name (r.expr e)) :
    Lacks name (r.expr (.sum es)) := by
  cases es with
  | nil =>
      have hplain : IsPlain "0" := by decide
      exact hplain name hname
  | cons e es =>
      rw [expr]
      · exact lacks_intercalate hname (by decide) (lacks_operands hname h)
      · exact List.cons_ne_nil e es

theorem lacks_product {es : List Expr} (h : ∀ e ∈ es, Lacks name (r.expr e)) :
    Lacks name (r.expr (.product es)) := by
  cases es with
  | nil =>
      have hplain : IsPlain "1" := by decide
      exact hplain name hname
  | cons e es =>
      rw [expr]
      · exact lacks_intercalate hname (by decide) (lacks_operands hname h)
      · exact List.cons_ne_nil e es

theorem lacks_difference {a b : Expr} (ha : Lacks name (r.expr a)) (hb : Lacks name (r.expr b)) :
    Lacks name (r.expr (.difference a b)) := by
  rw [expr, lacks_between hname (by decide)]
  exact ⟨lacks_group hname ha, lacks_group hname hb⟩

theorem lacks_quotient {a b : Expr} (ha : Lacks name (r.expr a)) (hb : Lacks name (r.expr b)) :
    Lacks name (r.expr (.quotient a b)) := by
  rw [expr, lacks_between hname (by decide)]
  exact ⟨lacks_group hname ha, lacks_group hname hb⟩

theorem lacks_logic {op : LogicOp} {a b : Expr} (ha : Lacks name (r.expr a))
    (hb : Lacks name (r.expr b)) : Lacks name (r.expr (.logic op a b)) := by
  have hseparates : Separates (" " ++ op.symbol ++ " ") := by cases op <;> decide
  rw [expr]
  have hassoc : ∀ x y : String, x ++ " " ++ op.symbol ++ " " ++ y =
      x ++ (" " ++ op.symbol ++ " ") ++ y := by
    intro x y
    simp [String.append_assoc]
  rw [hassoc, lacks_between hname hseparates]
  exact ⟨lacks_group hname ha, lacks_group hname hb⟩

theorem lacks_not {a : Expr} (ha : Lacks name (r.expr a)) : Lacks name (r.expr (.not a)) := by
  rw [expr, lacks_after hname (by decide)]
  exact lacks_group hname ha

theorem lacks_conditional {c t f : Expr} (hc : Lacks name (r.expr c)) (ht : Lacks name (r.expr t))
    (hf : Lacks name (r.expr f)) : Lacks name (r.expr (.conditional c t f)) := by
  rw [expr]
  split
  · rw [lacks_between hname (by decide), lacks_between hname (by decide)]
    exact ⟨⟨lacks_group hname hc, lacks_group hname ht⟩, lacks_group hname hf⟩
  · rw [lacks_before hname (by decide), lacks_between hname (by decide),
      lacks_between hname (by decide), lacks_after hname (by decide)]
    exact ⟨⟨hc, ht⟩, hf⟩

theorem lacks_call {function : String} {es : List Expr} (hfunction : Lacks name function)
    (h : ∀ e ∈ es, Lacks name (r.expr e)) : Lacks name (r.expr (.call function es)) := by
  rw [expr, lacks_before hname (by decide), lacks_between hname (by decide)]
  exact ⟨hfunction, lacks_intercalate hname (by decide) (lacks_operands hname h)⟩

theorem lacks_method {receiver : Expr} {function : String} {es : List Expr}
    (hreceiver : Lacks name (r.expr receiver))
    (hfloat : ∀ x, receiver = .float x → name ∈ floatMacros → ¬x.isNaN ∧ ¬x.isInf)
    (hfunction : Lacks name function) (h : ∀ e ∈ es, Lacks name (r.expr e)) :
    Lacks name (r.expr (.method receiver function es)) := by
  have htext : Lacks name (r.receiver receiver (r.expr receiver)) := by
    unfold Renderer.receiver
    split
    next x _ =>
      split
      · exact lacks_float hname (hfloat x rfl) "_f64" (by decide)
      · rwa [lacks_before hname (by decide), lacks_after hname (by decide)]
    next => exact lacks_group hname hreceiver
  rw [expr, lacks_before hname (by decide), lacks_between hname (by decide),
    lacks_between hname (by decide)]
  exact ⟨⟨htext, hfunction⟩, lacks_intercalate hname (by decide) (lacks_operands hname h)⟩

theorem lacks_cast {a : Expr} {type : String} (ha : Lacks name (r.expr a))
    (htype : Lacks name type) : Lacks name (r.expr (.cast a type)) := by
  rw [expr]
  split
  · rw [lacks_between hname (by decide), lacks_after hname (by decide)]
    exact ⟨htype, lacks_group hname ha⟩
  · rw [lacks_between hname (by decide)]
    exact ⟨lacks_group hname ha, htype⟩

theorem lacks_add {a b : Expr} (ha : Lacks name (r.expr a)) (hb : Lacks name (r.expr b)) :
    Lacks name (r.expr (.add a b)) := by
  unfold Expr.add
  split
  · exact hb
  · exact ha
  · exact lacks_sum hname (List.forall_mem_cons.2 ⟨ha, List.forall_mem_singleton.2 hb⟩)

theorem lacks_sub {a b : Expr} (ha : Lacks name (r.expr a)) (hb : Lacks name (r.expr b)) :
    Lacks name (r.expr (.sub a b)) := by
  unfold Expr.sub
  split
  · exact ha
  · exact lacks_difference hname ha hb

theorem lacks_mul {a b : Expr} (ha : Lacks name (r.expr a)) (hb : Lacks name (r.expr b)) :
    Lacks name (r.expr (.mul a b)) := by
  unfold Expr.mul
  split
  · exact hb
  · exact ha
  · exact lacks_product hname (List.forall_mem_cons.2 ⟨ha, List.forall_mem_singleton.2 hb⟩)

/-! ## Declarations of arrays -/

theorem lacks_brackets {inside : String} (h : Lacks name inside) :
    Lacks name (r.brackets inside) := by
  unfold brackets
  split
  · rwa [lacks_before hname (by decide), lacks_after hname (by decide)]
  · rwa [lacks_before hname (by decide), lacks_after hname (by decide)]

theorem lacks_initializer (sizes : List Nat) {values : List Float}
    (h : ∀ x ∈ values, Lacks name (r.float x)) : Lacks name (r.initializer sizes values) := by
  induction sizes generalizing values with
  | nil =>
      show Lacks name ((values.head?.map r.float).getD "")
      cases values with
      | nil => exact List.not_mem_nil
      | cons x values => exact h x List.mem_cons_self
  | cons size sizes ih =>
      cases sizes with
      | nil =>
          show Lacks name (r.brackets (", ".intercalate (values.map r.float)))
          exact lacks_brackets hname
            (lacks_intercalate hname (by decide) (List.forall_mem_map.2 h))
      | cons second inner =>
          show Lacks name (r.brackets (", ".intercalate
            ((chunks (second :: inner).prod values).map (r.initializer (second :: inner)))))
          refine lacks_brackets hname (lacks_intercalate hname (by decide) ?_)
          exact List.forall_mem_map.2 fun slice hslice =>
            ih fun x hx => h x (mem_of_mem_chunks hslice x hx)

theorem lacks_nested {element : String} (helement : Lacks name element) (sizes : List Nat) :
    Lacks name (nested element sizes) := by
  induction sizes with
  | nil => exact helement
  | cons size sizes ih =>
      show Lacks name ("[" ++ nested element sizes ++ "; " ++ toString size ++ "]")
      rw [lacks_before hname (by decide), lacks_between hname (by decide),
        lacks_after hname (by decide)]
      exact ⟨ih, lacks_nat hname size⟩

theorem lacks_arrayDecl {decl : ArrayDecl} (hdecl : Lacks name decl.name)
    (h : ∀ values ∈ decl.values, ∀ x ∈ values, Lacks name (r.float x)) :
    Lacks name (r.arrayDecl decl) := by
  unfold arrayDecl
  split
  · -- The alignment ends with a blank, and the sizes and values start with marks.
    have halignment : Lacks name ((decl.alignment.map fun n => s!"alignas({n}) ").getD "") ∧
        endsOpen ((decl.alignment.map fun n => s!"alignas({n}) ").getD "") := by
      cases decl.alignment with
      | none => exact ⟨List.not_mem_nil, rfl⟩
      | some n =>
          show Lacks name ("alignas(" ++ toString n ++ ") ") ∧
            endsOpen ("alignas(" ++ toString n ++ ") ")
          rw [lacks_before hname (by decide), lacks_after hname (by decide)]
          exact ⟨lacks_nat hname n, endsOpen_append (by decide) (by decide)⟩
    have hsizes : Lacks name (String.join (decl.sizes.map fun size => s!"[{size}]")) ∧
        startsOpen (String.join (decl.sizes.map fun size => s!"[{size}]")) := by
      refine lacks_join (List.forall_mem_map.2 fun size _ => ?_)
      show Lacks name ("[" ++ toString size ++ "]") ∧ startsOpen ("[" ++ toString size ++ "]")
      rw [lacks_before hname (by decide), lacks_after hname (by decide), String.append_assoc]
      exact ⟨lacks_nat hname size, startsOpen_append (by decide) (by simp)⟩
    have hvalue : Lacks name
          ((decl.values.map fun values => " = " ++ r.initializer decl.sizes values).getD "") ∧
        startsOpen
          ((decl.values.map fun values => " = " ++ r.initializer decl.sizes values).getD "") := by
      cases hvalues : decl.values with
      | none => exact ⟨List.not_mem_nil, rfl⟩
      | some values =>
          show Lacks name (" = " ++ r.initializer decl.sizes values) ∧
            startsOpen (" = " ++ r.initializer decl.sizes values)
          rw [lacks_after hname (by decide)]
          exact ⟨lacks_initializer hname decl.sizes (h values hvalues),
            startsOpen_append (by decide) (by simp)⟩
    have htype : Lacks name (if decl.constant then "static const double" else "double") := by
      have hplain : IsPlain "static const double" ∧ IsPlain "double" := by decide
      split
      · exact hplain.1 name hname
      · exact hplain.2 name hname
    dsimp only
    rw [lacks_before hname (by decide), lacks_append (.inr hvalue.2),
      lacks_append (.inr hsizes.2), lacks_between hname (by decide),
      lacks_append (.inl halignment.2)]
    exact ⟨⟨⟨⟨halignment.1, htype⟩, hdecl⟩, hsizes.1⟩, hvalue.1⟩
  · have hbinder : endsOpen (if decl.constant then "static " else "let mut ") ∧
        IsPlain (if decl.constant then "static " else "let mut ") := by
      split <;> decide
    have hplain : IsPlain "f64" ∧ IsPlain "0.0" := by decide
    dsimp only
    rw [lacks_before hname (by decide), lacks_between hname (by decide),
      lacks_between hname (by decide), lacks_after hname hbinder]
    refine ⟨⟨hdecl, lacks_nested hname (hplain.1 name hname) decl.sizes⟩, ?_⟩
    split
    next values hvalues => exact lacks_initializer hname decl.sizes (h values hvalues)
    next => exact lacks_nested hname (hplain.2 name hname) decl.sizes

/-! ## Lines -/

theorem lacks_line (depth : Nat) {text : String} (h : Lacks name text) :
    Lacks name (line depth text) := by
  have hblank : ∀ c ∈ (String.ofList (List.replicate (4 * depth) ' ')).toList, c = ' ' := by
    rw [String.toList_ofList]
    exact fun c hc => List.eq_of_mem_replicate hc
  have hopen : endsOpen (String.ofList (List.replicate (4 * depth) ' ')) := by
    unfold endsOpen
    cases hlast : (String.ofList (List.replicate (4 * depth) ' ')).toList.getLast? with
    | none => rfl
    | some c =>
        rw [hblank c (List.mem_of_getLast? hlast)]
        rfl
  rw [line, lacks_append (.inl hopen)]
  exact ⟨lacks_of_chars hname (· = ' ') (by decide) (by simp), h⟩

theorem lacks_singleton (depth : Nat) {text : String} (h : Lacks name text) :
    ∀ written ∈ [line depth text], Lacks name written :=
  List.forall_mem_singleton.2 (lacks_line hname depth h)

theorem lacks_zeroFill {array : Expr} (h : Lacks name (r.expr array)) (size depth : Nat) :
    ∀ written ∈ r.lines depth (.zeroFill array size), Lacks name written := by
  have harray : Lacks name (r.group Level.atom array (r.expr array)) := lacks_group hname h
  rw [lines]
  split
  · refine lacks_singleton hname depth ?_
    show Lacks name ("memset(" ++ r.group Level.atom array (r.expr array) ++ ", 0, " ++
      toString size ++ " * sizeof(*" ++ r.group Level.atom array (r.expr array) ++ "));")
    rw [lacks_before hname (by decide), lacks_between hname (by decide),
      lacks_between hname (by decide), lacks_after hname (by decide)]
    exact ⟨⟨harray, lacks_nat hname size⟩, harray⟩
  · refine lacks_singleton hname depth ?_
    show Lacks name (r.group Level.atom array (r.expr array) ++ "[.." ++ toString size ++
      "].fill(0.0);")
    rw [lacks_before hname (by decide), lacks_between hname (by decide)]
    exact ⟨harray, lacks_nat hname size⟩

theorem lacks_forRange {index : Expr} (h : Lacks name (r.expr index)) (first past : Nat)
    {body : List Stmt} (hbody : ∀ depth, ∀ written ∈ r.block depth body, Lacks name written)
    (depth : Nat) :
    ∀ written ∈ r.lines depth (.forRange index first past body), Lacks name written := by
  have hbraces : IsPlain "\x7b" ∧ IsPlain "\x7d" := by decide
  have hfirst := lacks_nat hname first
  have hpast := lacks_nat hname past
  rw [lines]
  split
  · have hheader : Lacks name ("for (int " ++ r.expr index ++ " = " ++ toString first ++ "; " ++
        r.expr index ++ " < " ++ toString past ++ "; ++" ++ r.expr index ++ ")") := by
      rw [lacks_before hname (by decide), lacks_between hname (by decide),
        lacks_between hname (by decide), lacks_between hname (by decide),
        lacks_between hname (by decide), lacks_after hname (by decide)]
      exact ⟨⟨⟨⟨h, hfirst⟩, h⟩, hpast⟩, h⟩
    split
    · exact List.forall_mem_cons.2 ⟨lacks_line hname depth hheader, hbody _⟩
    · refine List.forall_mem_cons.2 ⟨lacks_line hname depth hheader, ?_⟩
      refine List.forall_mem_cons.2 ⟨lacks_line hname depth (hbraces.1 name hname), ?_⟩
      exact List.forall_mem_append.2
        ⟨hbody _, lacks_singleton hname depth (hbraces.2 name hname)⟩
  · have hheader : Lacks name (("for " ++ r.expr index ++ " in " ++ toString first ++ ".." ++
        toString past ++ " ") ++ "\x7b") := by
      rw [lacks_before hname (by decide), lacks_before hname (by decide),
        lacks_between hname (by decide), lacks_between hname (by decide),
        lacks_after hname (by decide)]
      exact ⟨⟨h, hfirst⟩, hpast⟩
    refine List.forall_mem_cons.2 ⟨lacks_line hname depth hheader, ?_⟩
    exact List.forall_mem_append.2
      ⟨hbody _, lacks_singleton hname depth (hbraces.2 name hname)⟩

end

mutual

/-- A statement writes a foreign name only if one of the statements in it does. -/
theorem lacks_lines (hname : name ∈ foreignNames) : ∀ s : Stmt, r.LacksIn name s →
    ∀ depth, ∀ written ∈ r.lines depth s, Lacks name written
  | .comment text, h, depth => by
      have htext : Lacks name text := Stmt.everywhere_comment.1 h
      rw [lines]
      refine lacks_singleton hname depth ?_
      rwa [lacks_after hname (by decide)]
  | .array decl, h, depth => by
      rw [lines]
      exact lacks_singleton hname depth (Stmt.everywhere_array.1 h)
  | .declare _ value, h, depth => by
      have htexts := Stmt.everywhere_declare.1 h
      rw [lines]
      split
      · refine lacks_singleton hname depth ?_
        rwa [lacks_before hname (by decide), lacks_between hname (by decide),
          lacks_after hname (by decide)]
      · refine lacks_singleton hname depth ?_
        rwa [lacks_before hname (by decide), lacks_between hname (by decide),
          lacks_after hname (by decide)]
  | .assign target value, h, depth => by
      have htexts := Stmt.everywhere_assign.1 h
      rw [lines]
      refine lacks_singleton hname depth ?_
      rwa [lacks_before hname (by decide), lacks_between hname (by decide)]
  | .assignAdd target value, h, depth => by
      have htexts := Stmt.everywhere_assignAdd.1 h
      rw [lines]
      refine lacks_singleton hname depth ?_
      rwa [lacks_before hname (by decide), lacks_between hname (by decide)]
  | .zeroFill array size, h, depth =>
      lacks_zeroFill hname (Stmt.everywhere_zeroFill.1 h) size depth
  | .forRange index first past body, h, depth => by
      obtain ⟨hindex, hbody⟩ := Stmt.everywhere_forRange.1 h
      exact lacks_forRange hname hindex first past (lacks_block hname body hbody) depth
  | .scope body, h, depth => by
      have hbraces : IsPlain "\x7b" ∧ IsPlain "\x7d" := by decide
      rw [lines]
      refine List.forall_mem_cons.2 ⟨lacks_line hname depth (hbraces.1 name hname), ?_⟩
      refine List.forall_mem_append.2
        ⟨?_, lacks_singleton hname depth (hbraces.2 name hname)⟩
      exact lacks_block hname body (Stmt.everywhere_scope.1 h).2 _
  | .list body, h, depth => by
      rw [lines]
      exact lacks_block hname body (Stmt.everywhere_list.1 h).2 depth

theorem lacks_block (hname : name ∈ foreignNames) : ∀ xs : List Stmt,
    (∀ s ∈ xs, r.LacksIn name s) → ∀ depth, ∀ written ∈ r.block depth xs, Lacks name written
  | [], _, depth => by
      rw [block]
      exact List.forall_mem_nil _
  | s :: rest, h, depth => by
      obtain ⟨hs, hrest⟩ := List.forall_mem_cons.1 h
      rw [block]
      exact List.forall_mem_append.2
        ⟨lacks_lines hname s hs depth, lacks_block hname rest hrest depth⟩

end

end Renderer

end ElementKernel
