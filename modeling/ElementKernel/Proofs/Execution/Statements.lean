import ElementKernel.Kernel.Target
import ElementKernel.Proofs.Execution.Values

/-!
# Execution of generated code

A statement changes the contents of the element tensor and of the names that are visible.  It fails
when it declares a name that is already visible, when it writes outside of an array or to something
that is not declared, and when an expression in it has no value.

The element tensor is not among the visible names, since no expression reads it.
-/

namespace ElementKernel.Execution

open Kernel (tensorName)

structure State (K : Type) where
  locals : Locals K
  tensor : Nat → K

namespace Locals

variable {K : Type}

def set (L : Locals K) (name : String) (cell : Cell K) : Locals K :=
  Function.update L name (some cell)

/-- What is left of `inner` when the names that `outer` does not have are no longer visible. -/
def restrict (inner outer : Locals K) : Locals K :=
  fun name => if (outer name).isSome then inner name else none

end Locals

/-- What an assignment writes to. -/
inductive Destination where
  | scalar (name : String)
  | entry (name : String) (position : Nat)
  | tensor (position : Nat)

/-- The destination of an assignment, where the element tensor has so many entries. -/
def destination? {K : Type} (size : Nat) (L : Locals K) : Expr → Option Destination
  | .symbol name =>
      match L name with
      | some (.scalar _) => some (.scalar name)
      | _ => none
  | .access array inner =>
      match place L (.access array inner) with
      | some (name, all) =>
          if name = tensorName then
            (position [size] (all.map BitVec.toNat)).map .tensor
          else
            match L name with
            | some (.array false sizes _) =>
                (position sizes (all.map BitVec.toNat)).map (.entry name)
            | _ => none
      | none => none
  | _ => none

namespace State

variable {K : Type}

def declare (s : State K) (name : String) (cell : Cell K) : Option (State K) :=
  if name = tensorName ∨ (s.locals name).isSome then none
  else some { s with locals := s.locals.set name cell }

/-- The state after a block of statements, where the names declared in it are gone. -/
def leave (inner outer : State K) : State K :=
  { inner with locals := inner.locals.restrict outer.locals }

def load (s : State K) : Destination → Option K
  | .scalar name => (s.locals name).bind Cell.scalar?
  | .entry name position =>
      match s.locals name with
      | some (.array _ _ entry) => entry position
      | _ => none
  | .tensor position => some (s.tensor position)

def store (s : State K) (v : K) : Destination → State K
  | .scalar name => { s with locals := s.locals.set name (.scalar v) }
  | .entry name position =>
      match s.locals name with
      | some (.array constant sizes entry) =>
          { s with
            locals :=
              s.locals.set name
                (.array constant sizes (Function.update entry position (some v))) }
      | _ => s
  | .tensor position => { s with tensor := Function.update s.tensor position v }

end State

section

variable {K : Type} [Field K] (D : Interpretation K)

/-- The array that a declaration makes.  Without values nothing in it has been computed. -/
def declared (decl : ArrayDecl) : Cell K :=
  .array decl.constant decl.sizes fun k =>
    match decl.values with
    | some values => values[k]?.map D.literal
    | none => none

variable (size : Nat)

mutual

def exec : Stmt → State K → Option (State K)
  | .comment _, s => some s
  | .array decl, s => s.declare decl.name (declared D decl)
  | .declare name e, s => do s.declare name (.scalar (← value D s.locals e))
  | .assign target e, s => do
      let v ← value D s.locals e
      return s.store v (← destination? size s.locals target)
  | .assignAdd target e, s => do
      let v ← value D s.locals e
      let t ← destination? size s.locals target
      return s.store ((← s.load t) + v) t
  | .zeroFill array count, s =>
      match array with
      | .symbol name =>
          if name = tensorName ∧ count ≤ size then
            some { s with tensor := fun k => if k < count then 0 else s.tensor k }
          else none
      | _ => none
  | .forRange counter first past body, s =>
      match counter with
      | .symbol name =>
          (List.range' first (past - first)).foldlM (fun s k => do
            let inner ← s.declare name (.number (word k))
            return (← execAll body inner).leave s) s
      | _ => none
  | .scope body, s => do return (← execAll body s).leave s
  | .list body, s => execAll body s

def execAll : List Stmt → State K → Option (State K)
  | [], s => some s
  | first :: rest, s => do execAll rest (← exec first s)

end

variable (s : State K) (e target : Expr) (body : List Stmt)

theorem exec_comment (text : String) : exec D size (.comment text) s = some s :=
  rfl

theorem exec_array (decl : ArrayDecl) :
    exec D size (.array decl) s = s.declare decl.name (declared D decl) :=
  rfl

theorem exec_declare (name : String) :
    exec D size (.declare name e) s =
      (value D s.locals e >>= fun v => s.declare name (.scalar v)) :=
  rfl

theorem exec_assign :
    exec D size (.assign target e) s = (value D s.locals e >>= fun v =>
      destination? size s.locals target >>= fun t => some (s.store v t)) :=
  rfl

theorem exec_assignAdd :
    exec D size (.assignAdd target e) s = (value D s.locals e >>= fun v =>
      destination? size s.locals target >>= fun t =>
        s.load t >>= fun x => some (s.store (x + v) t)) :=
  rfl

theorem exec_forRange (name : String) (first past : Nat) :
    exec D size (.forRange (.symbol name) first past body) s =
      (List.range' first (past - first)).foldlM (fun s k =>
        s.declare name (.number (word k)) >>= fun inner =>
          execAll D size body inner >>= fun final => some (final.leave s)) s :=
  rfl

theorem exec_scope :
    exec D size (.scope body) s =
      (execAll D size body s >>= fun final => some (final.leave s)) :=
  rfl

theorem exec_list : exec D size (.list body) s = execAll D size body s :=
  rfl

theorem execAll_nil : execAll D size [] s = some s :=
  rfl

theorem execAll_cons (first : Stmt) :
    execAll D size (first :: body) s =
      (exec D size first s >>= fun t => execAll D size body t) :=
  rfl

end

end ElementKernel.Execution
