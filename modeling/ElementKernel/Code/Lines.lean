import ElementKernel.Code.Render
import ElementKernel.Code.Stmt

/-!
Statements as lines of source text.

Every line is indented by four blanks for each loop or scope around it.
-/

namespace ElementKernel

/-- A list in pieces of `n` elements, the last of which may be shorter. -/
def chunks {α : Type} (n : Nat) (xs : List α) : List (List α) :=
  if _h : n = 0 ∨ xs = [] then []
  else xs.take n :: chunks n (xs.drop n)
termination_by xs.length
decreasing_by
  have : 0 < xs.length := List.length_pos_iff.2 fun h => _h (Or.inr h)
  rw [List.length_drop]
  omega

namespace Renderer

def brackets (r : Renderer) (inside : String) : String :=
  match r.dialect with
  | .c => "\x7b" ++ inside ++ "\x7d"
  | .rust => "[" ++ inside ++ "]"

/-- The values of an array in brackets nested by its sizes. -/
def initializer (r : Renderer) : List Nat → List Float → String
  | [], values => (values.head?.map r.float).getD ""
  | [_], values => r.brackets (", ".intercalate (values.map r.float))
  | _ :: second :: inner, values =>
      let slices := chunks (second :: inner).prod values
      r.brackets (", ".intercalate (slices.map (r.initializer (second :: inner))))

/-- A bracket for each size around an element, the last size innermost. -/
def nested (element : String) (sizes : List Nat) : String :=
  sizes.foldr (fun size inside => s!"[{inside}; {size}]") element

def arrayDecl (r : Renderer) (decl : ArrayDecl) : String :=
  match r.dialect with
  | .c =>
      let alignment := (decl.alignment.map fun n => s!"alignas({n}) ").getD ""
      let type := if decl.constant then "static const double" else "double"
      let sizes := String.join (decl.sizes.map fun size => s!"[{size}]")
      let value := (decl.values.map fun values => " = " ++ r.initializer decl.sizes values).getD ""
      alignment ++ type ++ " " ++ decl.name ++ sizes ++ value ++ ";"
  | .rust =>
      let binder := if decl.constant then "static " else "let mut "
      let value :=
        match decl.values with
        | some values => r.initializer decl.sizes values
        | none => nested "0.0" decl.sizes
      binder ++ decl.name ++ ": " ++ nested "f64" decl.sizes ++ " = " ++ value ++ ";"

def line (depth : Nat) (text : String) : String :=
  String.ofList (List.replicate (4 * depth) ' ') ++ text

/-- Whether the body of a loop is one statement that needs no braces around it. -/
def isBare : List Stmt → Bool
  | [.assign ..] | [.assignAdd ..] | [.forRange ..] => true
  | _ => false

mutual

/-- The lines of a statement that stands inside `depth` loops and scopes. -/
def lines (r : Renderer) (depth : Nat) : Stmt → List String
  | .comment text => [line depth ("// " ++ text)]
  | .array decl => [line depth (r.arrayDecl decl)]
  | .declare name value =>
      match r.dialect with
      | .c => [line depth ("double " ++ name ++ " = " ++ r.expr value ++ ";")]
      | .rust => [line depth ("let mut " ++ name ++ ": f64 = " ++ r.expr value ++ ";")]
  | .assign target value => [line depth (r.expr target ++ " = " ++ r.expr value ++ ";")]
  | .assignAdd target value => [line depth (r.expr target ++ " += " ++ r.expr value ++ ";")]
  | .zeroFill array size =>
      let array := r.group Level.atom array (r.expr array)
      match r.dialect with
      | .c => [line depth s!"memset({array}, 0, {size} * sizeof(*{array}));"]
      | .rust => [line depth s!"{array}[..{size}].fill(0.0);"]
  | .forRange index first past body =>
      let index := r.expr index
      match r.dialect with
      | .c =>
          let header := s!"for (int {index} = {first}; {index} < {past}; ++{index})"
          if isBare body then line depth header :: r.block (depth + 1) body
          else
            line depth header :: line depth "\x7b" :: r.block (depth + 1) body ++
              [line depth "\x7d"]
      | .rust =>
          line depth (s!"for {index} in {first}..{past} " ++ "\x7b") ::
            r.block (depth + 1) body ++ [line depth "\x7d"]
  | .scope body => line depth "\x7b" :: r.block (depth + 1) body ++ [line depth "\x7d"]
  | .list body => r.block depth body

def block (r : Renderer) (depth : Nat) : List Stmt → List String
  | [] => []
  | s :: rest => r.lines depth s ++ r.block depth rest

end

/-- The text of a statement, without a line feed at its end. -/
def stmt (r : Renderer) (s : Stmt) : Checked String := do
  s.checkValues
  return "\n".intercalate (r.lines 0 s)

end Renderer

end ElementKernel
