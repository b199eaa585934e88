import ElementKernel.Code.Stmt
import Mathlib.Data.List.Basic

/-!
# Statements in their places

What a tree of statements looks like from the inside: the loops around each statement, the
expressions that stand in it and the parts they read, and the blocks that names are declared in.
-/

namespace ElementKernel

namespace Expr

/-- The expressions that an expression is made of.  The name of an array is not a value of its
own, so of an entry of an array these are the indices only. -/
def operands : Expr → List Expr
  | .access (.symbol _) indices => indices
  | .access array indices => array :: indices
  | .sum es | .product es | .call _ es => es
  | .difference a b | .quotient a b | .logic _ a b => [a, b]
  | .not a | .cast a _ => [a]
  | .conditional c t f => [c, t, f]
  | .method receiver _ es => receiver :: es
  | .symbol _ | .float _ | .int _ | .bool _ => []

/-- The expression `p` is `e` or stands somewhere inside of it. -/
inductive Part (p : Expr) : Expr → Prop
  | self : Part p p
  | operand {e o : Expr} : o ∈ e.operands → Part p o → Part p e

/-- An expression that reads something by its name: a variable, a counter or an array. -/
def IsReading : Expr → Prop
  | .symbol _ | .access .. => True
  | _ => False

/-- Everything that is read in `e` satisfies `P`. -/
def Reads (P : Expr → Prop) (e : Expr) : Prop := ∀ p, Part p e → p.IsReading → P p

variable {P Q : Expr → Prop} {e : Expr}

theorem Reads.mono (h : e.Reads P) (hPQ : ∀ p, P p → Q p) : e.Reads Q :=
  fun p hp hreading => hPQ p (h p hp hreading)

theorem reads_iff : e.Reads P ↔ (e.IsReading → P e) ∧ ∀ o ∈ e.operands, o.Reads P := by
  constructor
  · exact fun h => ⟨h e .self, fun o ho p hp => h p (.operand ho hp)⟩
  · rintro ⟨hself, hoperands⟩ p (_ | ⟨ho, hp⟩)
    · exact hself
    · exact hoperands _ ho p hp

theorem reads_iff_self (es : List Expr) (hself : e.IsReading) (hoperands : e.operands = es) :
    e.Reads P ↔ P e ∧ ∀ o ∈ es, o.Reads P := by
  rw [reads_iff, hoperands]
  exact and_congr_left fun _ => forall_prop_of_true hself

theorem reads_iff_forall (es : List Expr) (hself : ¬e.IsReading) (hoperands : e.operands = es) :
    e.Reads P ↔ ∀ o ∈ es, o.Reads P := by
  rw [reads_iff, hoperands]
  exact and_iff_right fun h => absurd h hself

@[simp] theorem reads_symbol {name : String} : (symbol name).Reads P ↔ P (.symbol name) :=
  (reads_iff_self (e := symbol name) [] trivial rfl).trans (and_iff_left (List.forall_mem_nil _))

@[simp] theorem reads_int {k : Int} : (int k).Reads P :=
  (reads_iff_forall [] id rfl).2 (List.forall_mem_nil _)

@[simp] theorem reads_float {x : Float} : (float x).Reads P :=
  (reads_iff_forall [] id rfl).2 (List.forall_mem_nil _)

@[simp] theorem reads_sum {es : List Expr} : (sum es).Reads P ↔ ∀ e ∈ es, e.Reads P :=
  reads_iff_forall es id rfl

@[simp] theorem reads_product {es : List Expr} : (product es).Reads P ↔ ∀ e ∈ es, e.Reads P :=
  reads_iff_forall es id rfl

@[simp] theorem reads_difference {a b : Expr} :
    (difference a b).Reads P ↔ a.Reads P ∧ b.Reads P :=
  (reads_iff_forall [a, b] id rfl).trans (by simp)

@[simp] theorem reads_quotient {a b : Expr} :
    (quotient a b).Reads P ↔ a.Reads P ∧ b.Reads P :=
  (reads_iff_forall [a, b] id rfl).trans (by simp)

@[simp] theorem reads_logic {op : LogicOp} {a b : Expr} :
    (logic op a b).Reads P ↔ a.Reads P ∧ b.Reads P :=
  (reads_iff_forall [a, b] id rfl).trans (by simp)

@[simp] theorem reads_not {a : Expr} : (not a).Reads P ↔ a.Reads P :=
  (reads_iff_forall [a] id rfl).trans (by simp)

@[simp] theorem reads_cast {a : Expr} {type : String} : (cast a type).Reads P ↔ a.Reads P :=
  (reads_iff_forall [a] id rfl).trans (by simp)

@[simp] theorem reads_conditional {c t f : Expr} :
    (conditional c t f).Reads P ↔ c.Reads P ∧ t.Reads P ∧ f.Reads P :=
  (reads_iff_forall [c, t, f] id rfl).trans (by simp)

@[simp] theorem reads_call {function : String} {es : List Expr} :
    (call function es).Reads P ↔ ∀ e ∈ es, e.Reads P :=
  reads_iff_forall es id rfl

@[simp] theorem reads_method {receiver : Expr} {name : String} {es : List Expr} :
    (method receiver name es).Reads P ↔ receiver.Reads P ∧ ∀ e ∈ es, e.Reads P :=
  (reads_iff_forall (receiver :: es) id rfl).trans List.forall_mem_cons

@[simp] theorem reads_access {name : String} {indices : List Expr} :
    (access (.symbol name) indices).Reads P ↔
      P (.access (.symbol name) indices) ∧ ∀ i ∈ indices, i.Reads P :=
  reads_iff_self indices trivial rfl

@[simp] theorem reads_access_access {array : Expr} {outer inner : List Expr} :
    (access (.access array outer) inner).Reads P ↔
      P (.access (.access array outer) inner) ∧ (access array outer).Reads P ∧
        ∀ i ∈ inner, i.Reads P :=
  (reads_iff_self (e := access _ inner) (.access array outer :: inner) trivial rfl).trans
    (and_congr_right fun _ => List.forall_mem_cons)

theorem Reads.add {a b : Expr} (ha : a.Reads P) (hb : b.Reads P) : (add a b).Reads P := by
  unfold Expr.add
  split
  · exact hb
  · exact ha
  · simp [ha, hb]

theorem Reads.sub {a b : Expr} (ha : a.Reads P) (hb : b.Reads P) : (sub a b).Reads P := by
  unfold Expr.sub
  split
  · exact ha
  · simp [ha, hb]

theorem Reads.mul {a b : Expr} (ha : a.Reads P) (hb : b.Reads P) : (mul a b).Reads P := by
  unfold Expr.mul
  split
  · exact hb
  · exact ha
  · simp [ha, hb]

end Expr

/-- The head of a loop. -/
structure Loop where
  index : Expr
  first : Nat
  past : Nat

namespace Stmt

/-- The expressions that stand in a statement itself.  The index of a loop is not used there but
made. -/
def expressions : Stmt → List Expr
  | .declare _ value => [value]
  | .assign target value | .assignAdd target value => [target, value]
  | .zeroFill target _ => [target]
  | _ => []

/-- The expressions whose values a statement needs.  An entry that is assigned to is not read, but
its indices are. -/
def needs : Stmt → List Expr
  | .declare _ value => [value]
  | .assign target value => target.operands ++ [value]
  | .assignAdd target value => [target, value]
  | _ => []

mutual

/-- The statements of a tree in the order of the text, each with the loops around it from the
outermost one inwards. -/
def placed : Stmt → List (List Loop × Stmt)
  | .forRange index first past body =>
      ([], .forRange index first past body) ::
        (placedAll body).map fun (loops, s) => (⟨index, first, past⟩ :: loops, s)
  | .scope body => ([], .scope body) :: placedAll body
  | .list body => ([], .list body) :: placedAll body
  | s => [([], s)]

def placedAll : List Stmt → List (List Loop × Stmt)
  | [] => []
  | s :: rest => s.placed ++ placedAll rest

end

mutual

/-- The statements that stand directly in a block, where a nested list belongs to the block around
it. -/
def direct : Stmt → List Stmt
  | .list body => directAll body
  | s => [s]

def directAll : List Stmt → List Stmt
  | [] => []
  | s :: rest => s.direct ++ directAll rest

end

/-- The name that a statement declares. -/
def declaredName? : Stmt → Option String
  | .array decl => some decl.name
  | .declare name _ => some name
  | _ => none

/-- The names that are declared directly in a block. -/
def declaredNames (block : List Stmt) : List String := (directAll block).filterMap declaredName?

/-- Every statement of the tree satisfies `P` together with the loops around it. -/
def Everywhere (P : List Loop → Stmt → Prop) (s : Stmt) : Prop :=
  ∀ entry ∈ s.placed, P entry.1 entry.2

/-- The block that a loop or a scope opens. -/
def block? : Stmt → Option (List Stmt)
  | .forRange _ _ _ body | .scope body => some body
  | _ => none

/-- The statements directly in a block of a tree: in the tree itself, in a scope or in the body of a
loop. -/
def HasBlock (outer : Stmt) (block : List Stmt) : Prop :=
  block = outer.direct ∨
    ∃ loops s body, (loops, s) ∈ outer.placed ∧ s.block? = some body ∧ block = directAll body

theorem placedAll_eq (xs : List Stmt) : placedAll xs = xs.flatMap placed := by
  induction xs with
  | nil => rfl
  | cons s rest ih => rw [placedAll, ih, List.flatMap_cons]

theorem directAll_eq (xs : List Stmt) : directAll xs = xs.flatMap direct := by
  induction xs with
  | nil => rfl
  | cons s rest ih => rw [directAll, ih, List.flatMap_cons]

@[simp] theorem placedAll_append (xs ys : List Stmt) :
    placedAll (xs ++ ys) = placedAll xs ++ placedAll ys := by
  simp [placedAll_eq]

@[simp] theorem directAll_append (xs ys : List Stmt) :
    directAll (xs ++ ys) = directAll xs ++ directAll ys := by
  simp [directAll_eq]

theorem directAll_eq_self {xs : List Stmt} (h : ∀ s ∈ xs, s.direct = [s]) : directAll xs = xs := by
  rw [directAll_eq, List.flatMap_congr h, List.flatMap_singleton']

theorem directAll_suffix_commented (comments : List String) (xs : List Stmt) :
    directAll xs <:+ directAll (commented comments xs) := by
  unfold commented
  split
  next hempty =>
    obtain rfl := List.isEmpty_iff.1 hempty
    exact List.suffix_rfl
  next =>
    rw [directAll_append]
    exact List.suffix_append _ _

theorem directAll_flatten (xss : List (List Stmt)) :
    directAll xss.flatten = xss.flatMap directAll := by
  induction xss with
  | nil => rfl
  | cons xs rest ih => simp [ih]

@[simp] theorem declaredNames_append (xs ys : List Stmt) :
    declaredNames (xs ++ ys) = declaredNames xs ++ declaredNames ys := by
  simp [declaredNames]

theorem declaredNames_cons (s : Stmt) (rest : List Stmt) :
    declaredNames (s :: rest) = s.direct.filterMap declaredName? ++ declaredNames rest := by
  simp [declaredNames, directAll]

theorem declaredNames_flatten (xss : List (List Stmt)) :
    declaredNames xss.flatten = xss.flatMap declaredNames := by
  rw [declaredNames, directAll_flatten, List.filterMap_flatMap]
  rfl

theorem mem_declaredNames_of_array {decl : ArrayDecl} {xs : List Stmt} (h : array decl ∈ xs) :
    decl.name ∈ declaredNames xs := by
  rw [declaredNames, directAll_eq]
  exact List.mem_filterMap.2 ⟨_, List.mem_flatMap.2 ⟨_, h, List.mem_singleton_self _⟩, rfl⟩

theorem declaredNames_map_array {α : Type} (f : α → ArrayDecl) (xs : List α) :
    declaredNames (xs.map fun x => array (f x)) = xs.map fun x => (f x).name := by
  induction xs with
  | nil => rfl
  | cons x rest ih =>
      rw [List.map_cons, declaredNames_cons, ih]
      rfl

theorem declaredNames_commented (comments : List String) (xs : List Stmt) :
    declaredNames (commented comments xs) = declaredNames xs := by
  have hcomments : declaredNames (comments.map comment) = [] := by
    induction comments with
    | nil => rfl
    | cons text rest ih =>
        rw [List.map_cons, declaredNames_cons, ih]
        rfl
  unfold commented
  split
  next hempty => rw [List.isEmpty_iff.1 hempty]
  next => rw [declaredNames_append, hcomments, List.nil_append]

theorem mem_placedAll {xs : List Stmt} {entry : List Loop × Stmt} :
    entry ∈ placedAll xs ↔ ∃ s ∈ xs, entry ∈ s.placed := by
  rw [placedAll_eq, List.mem_flatMap]

theorem mem_placed_self (s : Stmt) : ([], s) ∈ s.placed := by
  cases s <;> exact List.mem_cons_self

mutual

/-- What stands in a statement of a tree stands in the tree, inside of the loops around both. -/
theorem placed_trans : ∀ (outer : Stmt) {loops inner : List Loop} {s t : Stmt},
    (loops, s) ∈ outer.placed → (inner, t) ∈ s.placed → (loops ++ inner, t) ∈ outer.placed
  | .forRange index first past body, loops, inner, s, t, hs, ht => by
      rw [placed] at hs
      obtain heq | hs := List.mem_cons.1 hs
      · cases heq
        exact ht
      · obtain ⟨place, hplace, heq⟩ := List.mem_map.1 hs
        cases heq
        rw [placed]
        exact List.mem_cons_of_mem _ (List.mem_map.2 ⟨_, placedAll_trans body hplace ht, rfl⟩)
  | .scope body, loops, inner, s, t, hs, ht | .list body, loops, inner, s, t, hs, ht => by
      rw [placed] at hs
      obtain heq | hs := List.mem_cons.1 hs
      · cases heq
        exact ht
      · rw [placed]
        exact List.mem_cons_of_mem _ (placedAll_trans body hs ht)
  | .comment _, loops, inner, s, t, hs, ht | .array _, loops, inner, s, t, hs, ht
  | .declare .., loops, inner, s, t, hs, ht | .assign .., loops, inner, s, t, hs, ht
  | .assignAdd .., loops, inner, s, t, hs, ht | .zeroFill .., loops, inner, s, t, hs, ht => by
      cases List.mem_singleton.1 hs
      exact ht

theorem placedAll_trans : ∀ (xs : List Stmt) {loops inner : List Loop} {s t : Stmt},
    (loops, s) ∈ placedAll xs → (inner, t) ∈ s.placed → (loops ++ inner, t) ∈ placedAll xs
  | [], _, _, _, _, hs, _ => nomatch hs
  | x :: rest, loops, inner, s, t, hs, ht => by
      rw [placedAll] at hs ⊢
      obtain hs | hs := List.mem_append.1 hs
      · exact List.mem_append_left _ (placed_trans x hs ht)
      · exact List.mem_append_right _ (placedAll_trans rest hs ht)

end

section

variable {P Q : List Loop → Stmt → Prop}

theorem Everywhere.mono {s : Stmt} (h : s.Everywhere P) (hPQ : ∀ loops t, P loops t → Q loops t) :
    s.Everywhere Q :=
  fun entry hentry => hPQ _ _ (h entry hentry)

theorem forall_placedAll {xs : List Stmt} :
    (∀ entry ∈ placedAll xs, P entry.1 entry.2) ↔ ∀ s ∈ xs, s.Everywhere P := by
  rw [placedAll_eq]
  exact List.forall_mem_flatMap

theorem everywhere_leaf {s : Stmt} (h : s.placed = [([], s)]) : s.Everywhere P ↔ P [] s := by
  rw [Everywhere, h, List.forall_mem_singleton]

@[simp] theorem everywhere_comment {text : String} :
    (comment text).Everywhere P ↔ P [] (.comment text) :=
  everywhere_leaf rfl

@[simp] theorem everywhere_array {decl : ArrayDecl} :
    (array decl).Everywhere P ↔ P [] (.array decl) :=
  everywhere_leaf rfl

@[simp] theorem everywhere_declare {name : String} {value : Expr} :
    (declare name value).Everywhere P ↔ P [] (.declare name value) :=
  everywhere_leaf rfl

@[simp] theorem everywhere_assign {target value : Expr} :
    (assign target value).Everywhere P ↔ P [] (.assign target value) :=
  everywhere_leaf rfl

@[simp] theorem everywhere_assignAdd {target value : Expr} :
    (assignAdd target value).Everywhere P ↔ P [] (.assignAdd target value) :=
  everywhere_leaf rfl

@[simp] theorem everywhere_zeroFill {target : Expr} {size : Nat} :
    (zeroFill target size).Everywhere P ↔ P [] (.zeroFill target size) :=
  everywhere_leaf rfl

theorem everywhere_forRange {index : Expr} {first past : Nat} {body : List Stmt} :
    (forRange index first past body).Everywhere P ↔ P [] (.forRange index first past body) ∧
      ∀ s ∈ body, s.Everywhere fun loops t => P (⟨index, first, past⟩ :: loops) t := by
  rw [← forall_placedAll]
  exact List.forall_mem_cons.trans (and_congr_right fun _ => List.forall_mem_map)

theorem everywhere_scope {body : List Stmt} :
    (scope body).Everywhere P ↔ P [] (.scope body) ∧ ∀ s ∈ body, s.Everywhere P := by
  rw [← forall_placedAll]
  exact List.forall_mem_cons

theorem everywhere_list {body : List Stmt} :
    (list body).Everywhere P ↔ P [] (.list body) ∧ ∀ s ∈ body, s.Everywhere P := by
  rw [← forall_placedAll]
  exact List.forall_mem_cons

end

theorem mem_commented {comments : List String} {xs : List Stmt} {s : Stmt}
    (h : s ∈ commented comments xs) : (∃ text ∈ comments, s = .comment text) ∨ s ∈ xs := by
  unfold commented at h
  split at h
  · cases h
  · obtain hcomment | hs := List.mem_append.1 h
    · obtain ⟨text, htext, rfl⟩ := List.mem_map.1 hcomment
      exact .inl ⟨text, htext, rfl⟩
    · exact .inr hs

end Stmt

end ElementKernel
