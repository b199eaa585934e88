import ElementKernel.Proofs.BlockStructure.Leaves
import ElementKernel.Proofs.Outcome
import ElementKernel.Proofs.Scoping.Statements

/-!
# Block structure of statements

The lines that a tree of statements is rendered to are read back as the same tree, up to its
comments and the nesting of its lists, and every line is indented by the loops and scopes around it
(`Renderer.stmt_readProgram`).  In C the body of a loop may stand without braces.  That is right
because a body without braces is one line, or another loop, which the head in front of it governs.
-/

namespace ElementKernel

/-- The names of a statement are names, and a comment stands on one line. -/
def Dialect.NamesIn (d : Dialect) : Stmt → Prop
  | .comment text => '\n' ∉ text.toList
  | .array decl => d.IsName decl.name
  | .declare name value => d.IsName name ∧ RustSource.Every d.NamesHere value
  | .assign target value | .assignAdd target value =>
      RustSource.Every d.NamesHere target ∧ RustSource.Every d.NamesHere value
  | .zeroFill target _ => RustSource.Every d.NamesHere target
  | .forRange index .. => RustSource.Every d.NamesHere index
  | .scope _ | .list _ => True

namespace Stmt

mutual

/-- The statements of a tree in their blocks, without comments and with nested lists flattened. -/
def outline (r : Renderer) : Stmt → List Outline
  | .comment _ => []
  | .array decl => [.declaration (r.leafText (.array decl))]
  | .declare name value => [.declaration (r.leafText (.declare name value))]
  | .assign target value => [.simple (r.leafText (.assign target value))]
  | .assignAdd target value => [.simple (r.leafText (.assignAdd target value))]
  | .zeroFill target size => [.simple (r.leafText (.zeroFill target size))]
  | .forRange index first past body =>
      [.loop ⟨(r.expr index).toList, first, past⟩ (outlines r body)]
  | .scope body => [.scope (outlines r body)]
  | .list body => outlines r body

def outlines (r : Renderer) : List Stmt → List Outline
  | [] => []
  | s :: rest => s.outline r ++ outlines r rest

end

end Stmt

/-! ## Reading lines -/

namespace ReaderState

/-- What is read behind statements. -/
def take (state : ReaderState) (items : List Outline) : ReaderState :=
  { state with items := state.items ++ items.map (govern state.headers), headers := [] }

variable {state : ReaderState}

theorem take_nil (h : state.headers = []) : state.take [] = state := by
  obtain ⟨items, headers, blocks⟩ := state
  obtain rfl : headers = [] := h
  simp [take]

theorem map_govern_nil (items : List Outline) : items.map (govern []) = items := List.map_id items

theorem take_singleton (state : ReaderState) (item : Outline) :
    state.take [item] = state.give item := rfl

/-- Heads of loops govern the first statement behind them only. -/
theorem take_append {a b : List Outline} (h : state.headers = [] ∨ b = []) :
    (state.take a).take b = state.take (a ++ b) := by
  obtain ⟨items, headers, blocks⟩ := state
  obtain rfl | rfl := h
  · simp [take]
  · simp [take]

theorem depth_take (items : List Outline) (h : state.headers = []) :
    (state.take items).depth = state.depth := by
  rw [depth, depth, h]
  rfl

theorem depth_enter (state : ReaderState) (opener : Option Header) :
    (state.enter opener).depth = state.depth + 1 := by
  simp only [depth, enter, List.length_nil, List.map_cons, List.sum_cons]
  omega

theorem depth_await (state : ReaderState) (header : Header) :
    (state.await header).depth = state.depth + 1 := by
  simp only [depth, await, List.length_cons]
  omega

end ReaderState

/-- The lines are read from one state to another, and each is indented by the loops and scopes
around it. -/
structure Lays (d : Dialect) (state : ReaderState) (lines : List (List Char))
    (next : ReaderState) : Prop where
  whole : ∀ line ∈ lines, line ≠ [] ∧ '\n' ∉ line
  reads : ∃ levels, readLines d state lines = some (levels, next) ∧
    lines.map indentation = levels.map (4 * ·)

namespace Lays

variable {d : Dialect} {state mid next : ReaderState} {a b : List (List Char)}

theorem nil (d : Dialect) (state : ReaderState) : Lays d state [] state where
  whole := List.forall_mem_nil _
  reads := ⟨[], rfl, rfl⟩

theorem append (ha : Lays d state a mid) (hb : Lays d mid b next) : Lays d state (a ++ b) next where
  whole := List.forall_mem_append.2 ⟨ha.whole, hb.whole⟩
  reads := by
    obtain ⟨first, hfirst, hindented⟩ := ha.reads
    obtain ⟨second, hsecond, hindented'⟩ := hb.reads
    exact ⟨first ++ second, readLines_append hfirst hsecond, by
      rw [List.map_append, List.map_append, hindented, hindented']⟩

theorem line (line : Line) {text : String} {depth : Nat}
    (hstart : (text.toList.head?.any fun c => !isBlank c) = true) (hwhole : '\n' ∉ text.toList)
    (hline : Line.ofText? d text.toList = some line) (hdepth : state.level line = depth)
    (hstep : state.step line = some next) :
    Lays d state [(Renderer.line depth text).toList] next := by
  have htext : (Renderer.line depth text).toList =
      List.replicate (4 * depth) ' ' ++ text.toList := by
    rw [Renderer.line, String.toList_append, String.toList_ofList]
  obtain ⟨c, rest, hcons⟩ : ∃ c rest, text.toList = c :: rest := by
    cases hcase : text.toList with
    | nil =>
        rw [hcase] at hstart
        cases hstart
    | cons c rest => exact ⟨c, rest, rfl⟩
  rw [hcons] at hstart
  have hblanks : ∀ c ∈ List.replicate (4 * depth) ' ', isBlank c := fun c hc =>
    (List.eq_of_mem_replicate hc) ▸ rfl
  have hhead : ∀ c ∈ text.toList.head?, isBlank c = false := by simpa [hcons] using hstart
  obtain ⟨htake, hdrop⟩ := CSource.takeWhile_dropWhile_append hblanks hhead
  have hindentation : indentation (List.replicate (4 * depth) ' ' ++ text.toList) = 4 * depth := by
    rw [indentation, htake, List.length_replicate]
  rw [htext]
  refine ⟨List.forall_mem_singleton.2 ⟨?_, ?_⟩, [depth], ?_, ?_⟩
  · simp [hcons]
  · rw [List.mem_append, not_or]
    exact ⟨fun hmem => absurd (List.eq_of_mem_replicate hmem) (by decide), hwhole⟩
  · rw [readLines, hdrop, hline, Option.bind_eq_bind, Option.bind_some, hstep, Option.bind_eq_bind,
      Option.bind_some, readLines, Option.bind_eq_bind, Option.bind_some, hdepth]
    rfl
  · rw [List.map_singleton, hindentation]
    rfl

theorem oneLine {r : Renderer} {s : Stmt} {text : String} {line : Line}
    (h : r.OneLine s text line) (hlevel : state.level line = state.depth)
    (hstep : state.step line = some next) :
    Lays r.dialect state ((r.lines state.depth s).map String.toList) next := by
  rw [h.lines]
  exact .line line h.start h.whole h.read hlevel hstep

theorem openBrace (h : state.headers = []) :
    Lays d state [(Renderer.line state.depth "\x7b").toList] (state.enter none) := by
  obtain ⟨items, headers, blocks⟩ := state
  obtain rfl : headers = [] := h
  exact .line .openBrace (by decide) (by decide) (by cases d <;> decide) rfl rfl

theorem closeBrace (state : ReaderState) (opener : Option Header) (items : List Outline) :
    Lays d ((state.enter opener).take items) [(Renderer.line state.depth "\x7d").toList]
      (state.give (.ofBlock items opener)) := by
  have hdepth : ((state.enter opener).take items).depth - 1 = state.depth := by
    rw [ReaderState.depth_take _ rfl, ReaderState.depth_enter, Nat.add_sub_cancel]
  have hitems : ((state.enter opener).take items).items = items :=
    (List.nil_append _).trans (ReaderState.map_govern_nil items)
  refine .line .closeBrace (by decide) (by decide) (by cases d <;> decide) hdepth ?_
  show some (state.give (.ofBlock ((state.enter opener).take items).items opener)) = _
  rw [hitems]

theorem braces {opener : Option Header} {items : List Outline} {inner : List String}
    (h : Lays d (state.enter opener) (inner.map String.toList) ((state.enter opener).take items)) :
    Lays d (state.enter opener)
      ((inner ++ [Renderer.line state.depth "\x7d"]).map String.toList)
      (state.give (.ofBlock items opener)) := by
  rw [List.map_append]
  exact h.append (closeBrace state opener items)

end Lays

/-! ## Trees of statements -/

namespace Renderer

variable {r : Renderer} {state : ReaderState}

/-- A statement of one line that is no declaration stands anywhere. -/
theorem lays_simple {s : Stmt} (houtline : s.outline r = [.simple (r.leafText s)])
    (h : ∃ text, r.OneLine s text (.simple text.toList)) (state : ReaderState) :
    Lays r.dialect state ((r.lines state.depth s).map String.toList)
      (state.take (s.outline r)) := by
  obtain ⟨text, hline⟩ := h
  rw [houtline, hline.leafText_eq]
  exact .oneLine hline rfl rfl

/-- A declaration stands in a block. -/
theorem lays_declaration {s : Stmt} (houtline : s.outline r = [.declaration (r.leafText s)])
    (h : ∃ text, r.OneLine s text (.declaration text.toList)) (hstate : state.headers = []) :
    Lays r.dialect state ((r.lines state.depth s).map String.toList)
      (state.take (s.outline r)) := by
  obtain ⟨text, hline⟩ := h
  rw [houtline, hline.leafText_eq]
  exact .oneLine hline rfl (if_pos hstate)

/-- A body without braces is one statement. -/
theorem outlines_of_isBare {body : List Stmt} (h : isBare body) :
    ∃ item, Stmt.outlines r body = [item] := by
  unfold isBare at h
  split at h
  all_goals first | exact ⟨_, rfl⟩ | cases h

theorem lays_header (hdialect : r.dialect = .c) {index : String} (hindex : IsInline index.toList)
    (first past : Nat) (state : ReaderState) :
    Lays r.dialect state
      [(line state.depth s!"for (int {index} = {first}; {index} < {past}; ++{index})").toList]
      (state.await ⟨index.toList, first, past⟩) := by
  have hsemicolon : ';' ∉ index.toList := fun hmem => (hindex _ hmem).2 rfl
  rw [hdialect]
  refine .line _ ?_ ?_ (Line.ofText?_header hsemicolon first past) rfl rfl
  · simp only [toString, String.append_assoc]
    rw [String.toList_append]
    rfl
  · simp [toString, notMem_of_isInline hindex, newline_notMem_digits]

theorem lays_openLoop (hdialect : r.dialect = .rust) {index : String}
    (hindex : IsInline index.toList) (first past : Nat) (state : ReaderState) :
    Lays r.dialect state
      [(line state.depth (s!"for {index} in {first}..{past} " ++ "\x7b")).toList]
      (state.enter (some ⟨index.toList, first, past⟩)) := by
  rw [hdialect]
  refine .line _ ?_ ?_ (Line.ofText?_openLoop index first past) rfl rfl
  · simp only [toString, String.append_assoc]
    rw [String.toList_append]
    rfl
  · simp [toString, notMem_of_isInline hindex, newline_notMem_digits]

section

variable {index : Expr} {body : List Stmt}

/-- The lines of a block are read as its outline.  Behind the head of a loop it needs no braces. -/
def LaysBlock (r : Renderer) (body : List Stmt) : Prop :=
  ∀ state : ReaderState, state.headers = [] ∨ isBare body →
    Lays r.dialect state ((r.block state.depth body).map String.toList)
      (state.take (Stmt.outlines r body))

/-- In C the head of a loop governs the block or the statement behind it. -/
theorem lays_loop_c (hdialect : r.dialect = .c) (hindex : IsInline (r.expr index).toList)
    (hbody : r.LaysBlock body) (first past : Nat) (state : ReaderState) :
    Lays r.dialect state ((r.lines state.depth (.forRange index first past body)).map String.toList)
      (state.take ((Stmt.forRange index first past body).outline r)) := by
  have hheader := lays_header hdialect hindex first past state
  rw [lines, Stmt.outline, ReaderState.take_singleton]
  simp only [LaysBlock, hdialect] at hheader hbody ⊢
  generalize (⟨(r.expr index).toList, first, past⟩ : Header) = header at hheader ⊢
  split
  next hbare =>
    obtain ⟨item, hitem⟩ := outlines_of_isBare (r := r) hbare
    have hinner := hbody (state.await header) (Or.inr hbare)
    rw [ReaderState.depth_await, hitem] at hinner
    rw [hitem]
    exact hheader.append hinner
  next =>
    have hinner := hbody (state.enter (some header)) (Or.inl rfl)
    rw [ReaderState.depth_enter] at hinner
    have hbrace : Lays .c (state.await header) [(line state.depth "\x7b").toList]
        (state.enter (some header)) :=
      .line .openBrace (by decide) (by decide) (by decide) rfl rfl
    exact hheader.append (hbrace.append hinner.braces)

theorem lays_loop_rust (hdialect : r.dialect = .rust) (hindex : IsInline (r.expr index).toList)
    (hbody : r.LaysBlock body) (first past : Nat) (state : ReaderState) :
    Lays r.dialect state ((r.lines state.depth (.forRange index first past body)).map String.toList)
      (state.take ((Stmt.forRange index first past body).outline r)) := by
  have hopen := lays_openLoop hdialect hindex first past state
  have hinner := hbody (state.enter (some ⟨(r.expr index).toList, first, past⟩)) (Or.inl rfl)
  rw [ReaderState.depth_enter] at hinner
  rw [lines, Stmt.outline, ReaderState.take_singleton]
  simp only [hdialect] at hopen hinner ⊢
  exact hopen.append hinner.braces

end

theorem lays_scope {body : List Stmt} (hbody : r.LaysBlock body) (hstate : state.headers = []) :
    Lays r.dialect state ((r.lines state.depth (.scope body)).map String.toList)
      (state.take ((Stmt.scope body).outline r)) := by
  have hinner := hbody (state.enter none) (Or.inl rfl)
  rw [ReaderState.depth_enter] at hinner
  rw [lines, Stmt.outline, ReaderState.take_singleton]
  exact (Lays.openBrace hstate).append hinner.braces

/-- Where a statement may stand: behind the head of a loop only if it needs no braces there. -/
theorem stands_of_cons {s : Stmt} {rest : List Stmt}
    (h : state.headers = [] ∨ isBare (s :: rest)) :
    (state.headers = [] ∨ isBare [s]) ∧ (state.headers = [] ∨ rest = []) := by
  obtain h | h := h
  · exact ⟨Or.inl h, Or.inl h⟩
  · cases rest with
    | nil => exact ⟨Or.inr h, Or.inr rfl⟩
    | cons t rest => cases s <;> cases h

mutual

theorem lays_lines (r : Renderer) : (s : Stmt) →
    (s.Everywhere fun _ t => r.dialect.NamesIn t) → (state : ReaderState) →
    state.headers = [] ∨ isBare [s] →
      Lays r.dialect state ((r.lines state.depth s).map String.toList) (state.take (s.outline r))
  | .comment text, hnames, state, hstate => by
      have hheaders : state.headers = [] := hstate.resolve_right Bool.false_ne_true
      rw [Stmt.outline, ReaderState.take_nil hheaders]
      exact .oneLine (oneLine_comment (Stmt.everywhere_comment.1 hnames)) rfl rfl
  | .array decl, hnames, state, hstate =>
      lays_declaration rfl (oneLine_array (Stmt.everywhere_array.1 hnames))
        (hstate.resolve_right Bool.false_ne_true)
  | .declare name value, hnames, state, hstate => by
      obtain ⟨hname, hvalue⟩ := Stmt.everywhere_declare.1 hnames
      exact lays_declaration rfl (oneLine_declare hname (isPhrase_expr r value hvalue))
        (hstate.resolve_right Bool.false_ne_true)
  | .assign target value, hnames, state, _ => by
      obtain ⟨htarget, hvalue⟩ := Stmt.everywhere_assign.1 hnames
      exact lays_simple rfl (oneLine_update " = " (fun depth => by rw [lines])
        (by decide) (by decide) (by decide) (isPhrase_expr r target htarget)
        (isPhrase_expr r value hvalue)) state
  | .assignAdd target value, hnames, state, _ => by
      obtain ⟨htarget, hvalue⟩ := Stmt.everywhere_assignAdd.1 hnames
      exact lays_simple rfl (oneLine_update " += " (fun depth => by rw [lines])
        (by decide) (by decide) (by decide) (isPhrase_expr r target htarget)
        (isPhrase_expr r value hvalue)) state
  | .zeroFill target size, hnames, state, _ =>
      lays_simple rfl (oneLine_zeroFill size
        (isPhrase_expr r target (Stmt.everywhere_zeroFill.1 hnames))) state
  | .forRange index first past body, hnames, state, _ => by
      obtain ⟨hindex, hbody⟩ := Stmt.everywhere_forRange.1 hnames
      have hinline := (isPhrase_expr r index hindex).inline
      have hinner := lays_block r body hbody
      cases hdialect : r.dialect with
      | c =>
          rw [← hdialect]
          exact lays_loop_c hdialect hinline hinner first past state
      | rust =>
          rw [← hdialect]
          exact lays_loop_rust hdialect hinline hinner first past state
  | .scope body, hnames, state, hstate => by
      have hheaders : state.headers = [] := hstate.resolve_right Bool.false_ne_true
      exact lays_scope (lays_block r body (Stmt.everywhere_scope.1 hnames).2) hheaders
  | .list body, hnames, state, hstate => by
      have hheaders : state.headers = [] := hstate.resolve_right Bool.false_ne_true
      rw [lines, Stmt.outline]
      exact lays_block r body (Stmt.everywhere_list.1 hnames).2 state (Or.inl hheaders)

theorem lays_block (r : Renderer) : (body : List Stmt) →
    (∀ s ∈ body, s.Everywhere fun _ t => r.dialect.NamesIn t) → r.LaysBlock body
  | [], _ => by
      intro state hstate
      have hheaders : state.headers = [] := hstate.resolve_right Bool.false_ne_true
      rw [block, Stmt.outlines, ReaderState.take_nil hheaders]
      exact .nil r.dialect state
  | s :: rest, hnames => by
      intro state hstate
      obtain ⟨hs, hrest⟩ := List.forall_mem_cons.1 hnames
      obtain ⟨hfirst, hsecond⟩ := stands_of_cons hstate
      have hhead := lays_lines r s hs state hfirst
      rw [block, Stmt.outlines, List.map_append]
      obtain hheaders | rfl := hsecond
      · have htail := lays_block r rest hrest (state.take (s.outline r)) (Or.inl rfl)
        rw [ReaderState.depth_take _ hheaders, ReaderState.take_append (Or.inl hheaders)] at htail
        exact hhead.append htail
      · rw [block, Stmt.outlines, List.map_nil, List.append_nil, List.append_nil]
        exact hhead

end

theorem textLines_intercalate {lines : List String}
    (h : ∀ line ∈ lines.map String.toList, line ≠ [] ∧ '\n' ∉ line) :
    textLines ("\n".intercalate lines) = lines.map String.toList := by
  rw [textLines, String.toList_intercalate]
  generalize lines.map String.toList = texts at h ⊢
  cases texts with
  | nil => rfl
  | cons text rest =>
      have hsplit := List.splitOn_intercalate '\n' (fun l hl => (h l hl).2)
        (List.cons_ne_nil text rest)
      show (List.splitOn '\n' (['\n'].intercalate (text :: rest))).filter _ = text :: rest
      rw [hsplit, List.filter_eq_self]
      exact fun l hl => decide_eq_true (h l hl).1

/-- A tree of statements is rendered unless the entries of an array cannot be counted.  Its text is
read back as its outline, and every line of it is indented by four blanks for each loop or scope
around it. -/
theorem stmt_readProgram (r : Renderer) (s : Stmt)
    (hnames : s.Everywhere fun _ t => r.dialect.NamesIn t) :
    ((∃ text, r.stmt s = .ok text) ↔ s.checkValues = .ok ()) ∧
      ∀ text, r.stmt s = .ok text → ∃ levels,
        readProgram r.dialect text = some (levels, s.outline r) ∧
        (textLines text).map indentation = levels.map (4 * ·) := by
  have hlays := lays_lines r s hnames {} (Or.inl rfl)
  obtain ⟨levels, hreads, hindented⟩ := hlays.reads
  have hlines : textLines ("\n".intercalate (r.lines 0 s)) = (r.lines 0 s).map String.toList :=
    textLines_intercalate hlays.whole
  refine ⟨⟨?_, fun hvalues => ?_⟩, fun text htext => ?_⟩
  · rintro ⟨text, htext⟩
    exact (bind_eq_ok.1 htext).choose_spec.1
  · rw [stmt, hvalues]
    exact ⟨_, rfl⟩
  · obtain ⟨-, -, htext⟩ := bind_eq_ok.1 htext
    obtain rfl := Except.ok.inj htext
    refine ⟨levels, ?_, ?_⟩
    · have hitems : (({} : ReaderState).take (s.outline r)).items = s.outline r :=
        (List.nil_append _).trans (ReaderState.map_govern_nil _)
      rw [readProgram, hlines]
      change readLines r.dialect {} ((r.lines 0 s).map String.toList) = _ at hreads
      rw [hreads, Option.bind_eq_bind, Option.bind_some]
      show some (levels, (({} : ReaderState).take (s.outline r)).items) = some (levels, s.outline r)
      rw [hitems]
    · rw [hlines]
      exact hindented

/-- The inner loop stands without braces, and the comment behind it keeps those of the outer one. -/
theorem stmt_readProgram_nested :
    let r : Renderer := ⟨.c, 6⟩
    let s : Stmt := .list [
      .forRange (.symbol "i") 0 3 [
        .forRange (.symbol "j") 0 2 [.assignAdd (.symbol "t") (.symbol "x")],
        .comment "done"],
      .scope [.declare "t" (.int 0)]]
    (s.Everywhere fun _ t => r.dialect.NamesIn t) ∧ s.checkValues = .ok () ∧
      ((∃ text, r.stmt s = .ok text) ↔ s.checkValues = .ok ()) ∧
        ∀ text, r.stmt s = .ok text → ∃ levels,
          readProgram r.dialect text = some (levels, s.outline r) ∧
          (textLines text).map indentation = levels.map (4 * ·) := by
  intro r s
  have hname : ∀ name ∈ ["i", "j", "t", "x"], Dialect.c.IsName name := by
    intro name hname
    simp only [List.mem_cons, List.not_mem_nil, or_false] at hname
    obtain rfl | rfl | rfl | rfl := hname <;> exact ⟨by decide, by decide, by decide⟩
  have hnames : s.Everywhere fun _ t => r.dialect.NamesIn t := by
    simp [s, r, Stmt.everywhere_list, Stmt.everywhere_forRange, Stmt.everywhere_scope,
      Dialect.NamesIn, RustSource.Every, Dialect.NamesHere, hname]
  exact ⟨hnames, rfl, stmt_readProgram r s hnames⟩

end Renderer

end ElementKernel
