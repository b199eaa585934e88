import ElementKernel.Code.Lines
import ElementKernel.Proofs.BlockStructure.Phrases

/-!
# Statements of one line

Comments, declarations and assignments are rendered to one line each.  The reader takes it for what
it is, since a declaration starts with a word of its own and an assignment like an expression.
-/

namespace ElementKernel

/-! ## Kinds of lines -/

variable {d : Dialect} {text : List Char}

theorem firstWord_literal {a : List Char} (h : (a.any fun c => !RustSource.isWordChar c) = true)
    (b : List Char) : firstWord (a ++ b) = firstWord a := by
  unfold firstWord
  rw [List.takeWhile_append, if_neg]
  intro hlength
  obtain ⟨c, hc, hword⟩ := List.any_eq_true.1 h
  rw [← (List.takeWhile_prefix RustSource.isWordChar).eq_of_length hlength] at hc
  simp [List.mem_takeWhile_imp hc] at hword

theorem StartsPlain.of_literal {a : List Char}
    (hmark : (a.head?.any fun c => c ∉ [' ', '/', '\x7b', '\x7d']) = true)
    (h : (a.any fun c => !RustSource.isWordChar c) = true) (hword : firstWord a ∉ d.statementWords)
    (b : List Char) : StartsPlain d (a ++ b) where
  mark := by
    cases a with
    | nil => cases hmark
    | cons c a => exact hmark
  word := by rwa [firstWord_literal h]

theorem Line.ofText?_simple (hstart : StartsPlain d text) (hend : text.getLast? = some ';')
    (honly : ';' ∉ text.dropLast) : ofText? d text = some (.simple text) := by
  obtain ⟨hmark, hword⟩ := hstart
  cases text with
  | nil => cases hend
  | cons c rest =>
      simp only [List.head?_cons, Option.any_some, decide_eq_true_eq, List.mem_cons,
        List.not_mem_nil, or_false, not_or] at hmark
      obtain ⟨-, hslash, hopen, hclose⟩ := hmark
      obtain ⟨hfor, hdeclarator⟩ := not_or.1 (mt List.mem_cons.2 hword)
      have hcomment : "//".toList.isPrefixOf (c :: rest) = false := by
        show (('/' == c) && _) = false
        rw [beq_false_of_ne (Ne.symm hslash), Bool.false_and]
      unfold ofText?
      rw [if_neg (by rw [hcomment]; exact Bool.false_ne_true),
        if_neg (fun h => hopen (List.cons.inj h).1), if_neg (fun h => hclose (List.cons.inj h).1),
        if_neg hfor, if_pos hend, if_neg hdeclarator, if_neg honly]

theorem Line.ofText?_of_word (h : firstWord text ≠ []) :
    ofText? d text =
      if firstWord text = "for".toList then
        match d with
        | .c => (Header.ofC? text).map .header
        | .rust => (Header.ofRust? text).map .openLoop
      else if text.getLast? = some ';' then
        if firstWord text ∈ d.declarators then some (.declaration text)
        else if ';' ∈ text.dropLast then none
        else some (.simple text)
      else none := by
  cases text with
  | nil => exact absurd rfl h
  | cons c rest =>
      have hc : RustSource.isWordChar c = true := by
        by_contra hc
        exact h (List.takeWhile_cons_of_neg hc)
      have hmark : ∀ mark, RustSource.isWordChar mark = false → c ≠ mark := by
        rintro mark hmark rfl
        rw [hmark] at hc
        cases hc
      have hcomment : "//".toList.isPrefixOf (c :: rest) = false := by
        show (('/' == c) && _) = false
        rw [beq_false_of_ne (hmark '/' (by decide)).symm, Bool.false_and]
      unfold ofText?
      refine (if_neg ?_).trans ((if_neg ?_).trans ((if_neg ?_).trans ?_))
      · rw [hcomment]
        exact Bool.false_ne_true
      · exact fun h => hmark '\x7b' (by decide) (List.cons.inj h).1
      · exact fun h => hmark '\x7d' (by decide) (List.cons.inj h).1
      · cases d <;> rfl

theorem Line.ofText?_declaration (hword : firstWord text ∈ d.declarators)
    (hend : text.getLast? = some ';') : ofText? d text = some (.declaration text) := by
  have hwords : ∀ word ∈ d.declarators, word ≠ [] ∧ word ≠ "for".toList := by
    cases d <;> decide
  obtain ⟨hne, hfor⟩ := hwords _ hword
  rw [ofText?_of_word hne, if_neg hfor, if_pos hend, if_pos hword]

theorem Line.ofText?_comment (text : String) :
    ofText? d ("// " ++ text).toList = some .comment := by
  rw [String.toList_append]
  rfl

theorem Line.ofText?_header {index : String} (h : ';' ∉ index.toList) (first past : Nat) :
    ofText? .c (s!"for (int {index} = {first}; {index} < {past}; ++{index})").toList =
      some (.header ⟨index.toList, first, past⟩) := by
  have hword : firstWord (s!"for (int {index} = {first}; {index} < {past}; ++{index})").toList =
      "for".toList := by
    simp only [toString, String.append_assoc]
    rw [String.toList_append, firstWord_literal (by decide)]
    rfl
  rw [ofText?_of_word (by rw [hword]; decide), if_pos hword]
  dsimp only
  rw [Header.ofC?_text h]
  rfl

theorem Line.ofText?_openLoop (index : String) (first past : Nat) :
    ofText? .rust (s!"for {index} in {first}..{past} " ++ "\x7b").toList =
      some (.openLoop ⟨index.toList, first, past⟩) := by
  have hword : firstWord (s!"for {index} in {first}..{past} " ++ "\x7b").toList =
      "for".toList := by
    simp only [toString, String.append_assoc]
    rw [String.toList_append, firstWord_literal (by decide)]
    rfl
  rw [ofText?_of_word (by rw [hword]; decide), if_pos hword]
  dsimp only
  rw [Header.ofRust?_text]
  rfl

/-! ## Statements of one line -/

/-- The text of a statement that is rendered to one line. -/
def Renderer.leafText (r : Renderer) (s : Stmt) : List Char := (String.join (r.lines 0 s)).toList

/-- A statement is rendered to one line, which the reader takes for `line`. -/
structure Renderer.OneLine (r : Renderer) (s : Stmt) (text : String) (line : Line) : Prop where
  lines : ∀ depth, r.lines depth s = [Renderer.line depth text]
  start : (text.toList.head?.any fun c => !isBlank c) = true
  whole : '\n' ∉ text.toList
  read : Line.ofText? r.dialect text.toList = some line

theorem notMem_of_isInline (h : IsInline text) : '\n' ∉ text := fun hmem => (h _ hmem).1 rfl

theorem newline_notMem_digits (n : Nat) : '\n' ∉ Nat.toDigits 10 n := fun hmem =>
  absurd (Decimal.digits_isDigit n _ hmem) (by decide)

theorem getLast?_semicolon (text : String) : (text ++ ";").toList.getLast? = some ';' := by
  rw [String.toList_append, List.getLast?_append]
  rfl

namespace Renderer

variable {r : Renderer} {s : Stmt}

theorem OneLine.leafText_eq {text : String} {line : Line} (h : r.OneLine s text line) :
    r.leafText s = text.toList := by
  rw [leafText, h.lines 0, String.toList_join, List.flatMap_singleton, Renderer.line,
    String.toList_append, String.toList_ofList]
  rfl

theorem oneLine_simple {text : String}
    (hlines : ∀ depth, r.lines depth s = [Renderer.line depth (text ++ ";")])
    (hstart : StartsPlain r.dialect (text ++ ";").toList) (hinline : IsInline text.toList) :
    r.OneLine s (text ++ ";") (.simple (text ++ ";").toList) where
  lines := hlines
  start := by
    have hmark := hstart.mark
    cases hhead : (text ++ ";").toList.head? with
    | none =>
        rw [hhead] at hmark
        cases hmark
    | some c =>
        rw [hhead] at hmark
        simp only [Option.any_some, decide_eq_true_eq, List.mem_cons, not_or] at hmark
        simp [isBlank, hmark.1]
  whole := by
    rw [String.toList_append, List.mem_append, not_or]
    exact ⟨notMem_of_isInline hinline, by decide⟩
  read := by
    refine Line.ofText?_simple hstart (getLast?_semicolon text) ?_
    have hsemicolon : ";".toList = [';'] := rfl
    rw [String.toList_append, hsemicolon, List.dropLast_concat]
    exact fun hmem => (hinline _ hmem).2 rfl

theorem oneLine_declaration {text : String}
    (hlines : ∀ depth, r.lines depth s = [Renderer.line depth (text ++ ";")])
    (hword : firstWord (text ++ ";").toList ∈ r.dialect.declarators) (hwhole : '\n' ∉ text.toList) :
    r.OneLine s (text ++ ";") (.declaration (text ++ ";").toList) where
  lines := hlines
  start := by
    have hne : ∀ word ∈ r.dialect.declarators, word ≠ [] := by
      cases r.dialect <;> decide
    have hfirst := hne _ hword
    cases htext : (text ++ ";").toList with
    | nil =>
        rw [htext] at hfirst
        exact absurd rfl hfirst
    | cons c rest =>
        rw [htext] at hfirst
        have hblank : c ≠ ' ' := by
          rintro rfl
          exact hfirst (List.takeWhile_cons_of_neg (by decide))
        simpa [isBlank] using hblank
  whole := by
    rw [String.toList_append, List.mem_append, not_or]
    exact ⟨hwhole, by decide⟩
  read := Line.ofText?_declaration hword (getLast?_semicolon text)

theorem oneLine_comment {text : String} (h : '\n' ∉ text.toList) :
    r.OneLine (.comment text) ("// " ++ text) .comment where
  lines depth := by rw [lines]
  start := by
    rw [String.toList_append]
    rfl
  whole := by
    rw [String.toList_append, List.mem_append, not_or]
    exact ⟨by decide, h⟩
  read := Line.ofText?_comment text

theorem oneLine_update {target value : Expr} (operator : String)
    (hlines : ∀ depth, r.lines depth s =
      [Renderer.line depth (r.expr target ++ operator ++ r.expr value ++ ";")])
    (hword : EndsWord operator.toList) (hinline : IsInline operator.toList)
    (hne : operator.toList ≠ []) (htarget : IsPhrase r.dialect (r.expr target).toList)
    (hvalue : IsPhrase r.dialect (r.expr value).toList) :
    ∃ text, r.OneLine s text (.simple text.toList) := by
  have hphrase := isPhrase_between htarget hword hinline hne hvalue.inline
  refine ⟨_, oneLine_simple hlines ?_ hphrase.inline⟩
  rw [String.toList_append]
  exact hphrase.toStartsPlain.append (by decide)

theorem isInline_nat (n : Nat) : IsInline (toString n).toList := by
  rw [toList_toString_nat]
  exact (isPhrase_of_number (d := .c) (Decimal.digits_ne_nil n) fun c hc =>
    isNumberMark_of_isDigit (Decimal.digits_isDigit n c hc)).inline

theorem oneLine_zeroFill {array : Expr} (size : Nat)
    (harray : IsPhrase r.dialect (r.expr array).toList) :
    ∃ text, r.OneLine (.zeroFill array size) text (.simple text.toList) := by
  have hgroup : IsPhrase r.dialect (r.group Level.atom array (r.expr array)).toList :=
    isPhrase_group harray
  have hlines : ∀ depth, r.lines depth (.zeroFill array size) = _ := fun depth => by rw [lines]
  generalize r.group Level.atom array (r.expr array) = text at hgroup hlines
  have hinline := hgroup.inline
  have hnat := isInline_nat size
  split at hlines
  next hdialect =>
    have htext : s!"memset({text}, 0, {size} * sizeof(*{text}));" = "memset(" ++
        (text ++ ", 0, " ++ toString size ++ " * sizeof(*" ++ text ++ "))") ++ ";" := by
      have hend : "));" = "))" ++ ";" := rfl
      rw [hend]
      simp only [toString, String.append_assoc]
    rw [htext] at hlines
    refine ⟨_, oneLine_simple hlines ?_ ?_⟩
    · rw [hdialect, String.append_assoc, String.toList_append]
      exact .of_literal (by decide) (by decide) (by decide) _
    · simp only [String.toList_append, isInline_append]
      exact ⟨by decide, ⟨⟨⟨⟨hinline, by decide⟩, hnat⟩, by decide⟩, hinline⟩, by decide⟩
  next hdialect =>
    have htext : s!"{text}[..{size}].fill(0.0);" =
        text ++ ("[.." ++ toString size ++ "].fill(0.0)") ++ ";" := by
      have hend : "].fill(0.0);" = "].fill(0.0)" ++ ";" := rfl
      rw [hend]
      simp only [toString, String.append_assoc]
    rw [htext] at hlines
    refine ⟨_, oneLine_simple hlines ?_ ?_⟩
    · rw [String.append_assoc, String.append_assoc, String.append_assoc, String.toList_append]
      exact hgroup.toStartsPlain.append (by rw [String.toList_append]; rfl)
    · simp only [String.toList_append, isInline_append]
      exact ⟨hinline, ⟨by decide, hnat⟩, by decide⟩

theorem newline_notMem_append {a b : String} :
    '\n' ∉ (a ++ b).toList ↔ '\n' ∉ a.toList ∧ '\n' ∉ b.toList := by
  rw [String.toList_append, List.mem_append, not_or]

/-- The words in front of the name that is declared, with the blank behind them. -/
structure IsBinder (d : Dialect) (binder : String) : Prop where
  closed : (binder.toList.any fun c => !RustSource.isWordChar c) = true
  word : firstWord binder.toList ∈ d.declarators
  whole : '\n' ∉ binder.toList

theorem oneLine_binder {binder : String} (hbinder : IsBinder r.dialect binder) (rest : String)
    (hlines : ∀ depth, r.lines depth s = [Renderer.line depth (binder ++ rest ++ ";")])
    (hrest : '\n' ∉ rest.toList) : ∃ text, r.OneLine s text (.declaration text.toList) := by
  refine ⟨_, oneLine_declaration hlines ?_ (newline_notMem_append.2 ⟨hbinder.whole, hrest⟩)⟩
  rw [String.append_assoc, String.toList_append, firstWord_literal hbinder.closed]
  exact hbinder.word

theorem oneLine_declare {name : String} {value : Expr} (hname : r.dialect.IsName name)
    (hvalue : IsPhrase r.dialect (r.expr value).toList) :
    ∃ text, r.OneLine (.declare name value) text (.declaration text.toList) := by
  have hlines : ∀ depth, r.lines depth (.declare name value) = _ := fun depth => by rw [lines]
  have hname := notMem_of_isInline hname.isPhrase.inline
  have hvalue := notMem_of_isInline hvalue.inline
  split at hlines
  next hdialect =>
    have hbinder : IsBinder r.dialect "double " := by
      rw [hdialect]
      exact ⟨by decide, by decide, by decide⟩
    refine oneLine_binder hbinder (name ++ " = " ++ r.expr value)
      (by simpa only [String.append_assoc] using hlines) ?_
    simp only [newline_notMem_append]
    exact ⟨⟨hname, by decide⟩, hvalue⟩
  next hdialect =>
    have hbinder : IsBinder r.dialect "let mut " := by
      rw [hdialect]
      exact ⟨by decide, by decide, by decide⟩
    refine oneLine_binder hbinder (name ++ ": f64 = " ++ r.expr value)
      (by simpa only [String.append_assoc] using hlines) ?_
    simp only [newline_notMem_append]
    exact ⟨⟨hname, by decide⟩, hvalue⟩

/-! ## Declarations of arrays -/

theorem isInline_brackets {inside : String} (h : IsInline inside.toList) :
    IsInline (r.brackets inside).toList := by
  unfold brackets
  split
  all_goals
    simp only [String.toList_append, isInline_append]
    exact ⟨⟨by decide, h⟩, by decide⟩

theorem isInline_float (x : Float) : IsInline (r.float x).toList := by
  have h := isPhrase_float (d := .c) (r := r) x "" (by decide)
  rw [String.append_empty] at h
  exact h.inline

theorem isInline_listing {α : Type} {f : α → String} (h : ∀ x, IsInline (f x).toList)
    (xs : List α) : IsInline (", ".intercalate (xs.map f)).toList := by
  rw [String.toList_intercalate, List.map_map]
  exact isInline_intercalate ", ".toList (by decide)
    (List.forall_mem_map.2 fun x _ => h x)

theorem isInline_initializer (r : Renderer) : (sizes : List Nat) → (values : List Float) →
    IsInline (r.initializer sizes values).toList
  | [], values => by
      cases values with
      | nil => exact List.forall_mem_nil _
      | cons x rest => exact isInline_float x
  | [_], values => isInline_brackets (isInline_listing isInline_float values)
  | _ :: second :: inner, values =>
      let slices := chunks (second :: inner).prod values
      isInline_brackets (isInline_listing (isInline_initializer r (second :: inner)) slices)

/-- The brackets of an array type or value hold a semicolon each. -/
theorem newline_notMem_nested {element : String} (h : '\n' ∉ element.toList) (sizes : List Nat) :
    '\n' ∉ (nested element sizes).toList := by
  induction sizes with
  | nil => exact h
  | cons size sizes ih =>
      show '\n' ∉ (s!"[{nested element sizes}; {size}]").toList
      simp [toString, ih, newline_notMem_digits]

theorem isBinder_c (alignment : Option Nat) (constant : Bool) :
    IsBinder .c ((alignment.map fun n => s!"alignas({n}) ").getD "" ++
      (if constant then "static const double" else "double") ++ " ") := by
  cases alignment with
  | none => cases constant <;> exact ⟨by decide, by decide, by decide⟩
  | some n =>
      have htype : '\n' ∉
          ((if constant then "static const double" else "double") ++ " ").toList := by
        cases constant <;> decide
      generalize (if constant then "static const double" else "double") = type at htype ⊢
      have htext : s!"alignas({n}) " ++ type ++ " " =
          "alignas(" ++ (toString n ++ ") " ++ (type ++ " ")) := by
        simp only [toString, String.append_assoc]
      show IsBinder .c (s!"alignas({n}) " ++ type ++ " ")
      rw [htext]
      refine ⟨?_, ?_, ?_⟩
      · rw [String.toList_append, List.any_append]
        rfl
      · rw [String.toList_append, firstWord_literal (by decide)]
        decide
      · simpa [toString, newline_notMem_digits] using htype

theorem newline_notMem_sizes (sizes : List Nat) :
    '\n' ∉ (String.join (sizes.map fun size => s!"[{size}]")).toList := by
  rw [String.toList_join, List.flatMap_map]
  intro hmem
  obtain ⟨size, -, hmem⟩ := List.mem_flatMap.1 hmem
  refine absurd hmem ?_
  simp [toString, newline_notMem_digits]

theorem oneLine_array {decl : ArrayDecl} (hname : r.dialect.IsName decl.name) :
    ∃ text, r.OneLine (.array decl) text (.declaration text.toList) := by
  have hlines : ∀ depth, r.lines depth (.array decl) = _ := fun depth => by rw [lines]
  have hname := notMem_of_isInline hname.isPhrase.inline
  have hinitializer : ∀ values, '\n' ∉ (r.initializer decl.sizes values).toList := fun values =>
    notMem_of_isInline (isInline_initializer r decl.sizes values)
  unfold arrayDecl at hlines
  split at hlines
  next hdialect =>
    have hvalue : '\n' ∉ ((decl.values.map fun values =>
        " = " ++ r.initializer decl.sizes values).getD "").toList := by
      cases decl.values with
      | none =>
          show '\n' ∉ "".toList
          decide
      | some values =>
          show '\n' ∉ (" = " ++ r.initializer decl.sizes values).toList
          exact newline_notMem_append.2 ⟨by decide, hinitializer values⟩
    have hbinder : IsBinder r.dialect _ := hdialect ▸ isBinder_c decl.alignment decl.constant
    refine oneLine_binder hbinder (decl.name ++
      String.join (decl.sizes.map fun size => s!"[{size}]") ++
      (decl.values.map fun values => " = " ++ r.initializer decl.sizes values).getD "")
      (by simpa only [String.append_assoc] using hlines) ?_
    simp only [newline_notMem_append]
    exact ⟨⟨hname, newline_notMem_sizes decl.sizes⟩, hvalue⟩
  next hdialect =>
    obtain ⟨value, hvalue, hlines⟩ : ∃ value : String, '\n' ∉ value.toList ∧
        ∀ depth, r.lines depth (.array decl) = [line depth
          ((if decl.constant then "static " else "let mut ") ++ decl.name ++ ": " ++
            nested "f64" decl.sizes ++ " = " ++ value ++ ";")] := by
      refine ⟨_, ?_, hlines⟩
      cases decl.values with
      | none => exact newline_notMem_nested (by decide) decl.sizes
      | some values => exact hinitializer values
    have htype : '\n' ∉ (nested "f64" decl.sizes).toList :=
      newline_notMem_nested (by decide) decl.sizes
    have hbinder : IsBinder r.dialect (if decl.constant then "static " else "let mut ") := by
      rw [hdialect]
      cases decl.constant <;> exact ⟨by decide, by decide, by decide⟩
    refine oneLine_binder hbinder
      (decl.name ++ ": " ++ nested "f64" decl.sizes ++ " = " ++ value)
      (by simpa only [String.append_assoc] using hlines) ?_
    simp only [newline_notMem_append]
    exact ⟨⟨⟨⟨hname, by decide⟩, htype⟩, by decide⟩, hvalue⟩

end Renderer

end ElementKernel
