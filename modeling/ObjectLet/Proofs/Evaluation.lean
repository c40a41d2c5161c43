import ObjectLet.Table
import ObjectLet.Tree

/-!
# Evaluating programs

What a program means, said without frames, offsets or code.  Names are looked up in `Bindings`, the
scopes around a point of the program with the declarations that have been gone through, newest
first.  A declaration is therefore followed by exactly those which were there before it, and a
function found under its name comes with the bindings that its body is to be evaluated in
(`Bindings.bound?`).

Values are machine integers: booleans are 0 and 1, `null` is -1, an object is its address.  The only
thing that is counted is how much of the heap is in use, since addresses can be compared and
printed.  A class takes one cell for each of its methods, inherited ones included, and an object one
for each of its fields and one more.

A call may never return, so functions are run with some fuel, of which each call inside a call takes
one unit (`Callee.run`); everything else is evaluated by recursion on the tree.
-/

set_option autoImplicit false

namespace ObjectLet

/-! ## Bindings -/

/-- What a name is bound to.  Functions and classes are bound as they are declared, since what they
refer to is found in the declarations before them. -/
inductive Binding where
  /-- A value. -/
  | value (v : Int32)
  /-- A function. -/
  | func (f : FunDecl)
  /-- A class. -/
  | cls (c : ClassDecl)
  /-- The method of this name of an object. -/
  | method (object : Int32)

/-- The declarations of one scope, newest first. -/
abbrev Layer := List (String × Binding)

/-- The scopes around a point of a program, innermost first. -/
abbrev Bindings := List Layer

namespace Layer

/-- What a name is bound to in a scope, and the declarations up to that one. -/
def bound? (name : String) : Layer → Option (Binding × Layer)
  | [] => none
  | (x, b) :: rest => if x = name then some (b, (x, b) :: rest) else bound? name rest

/-- The classes declared in a scope, newest first. -/
def classes : Layer → List ClassDecl
  | [] => []
  | (_, .cls c) :: rest => c :: classes rest
  | _ :: rest => classes rest

end Layer

namespace Bindings

/-- What a name is bound to, and the declarations that are visible from there. -/
def bound? (name : String) : Bindings → Option (Binding × Bindings)
  | [] => none
  | l :: outer =>
    match Layer.bound? name l with
    | some (b, l) => some (b, l :: outer)
    | none => bound? name outer

/-- The global declarations up to that of a class.  Something else of that name further inside does
not hide the class. -/
def class? (ρ : Bindings) (name : String) : Option Layer :=
  match ρ.getLast?.bind (Layer.bound? name) with
  | some (.cls _, home) => some home
  | _ => none

/-- Declares a name in the innermost scope, where it hides whatever has had that name before. -/
def bind (name : String) (b : Binding) : Bindings → Bindings
  | [] => [[(name, b)]]
  | l :: outer => ((name, b) :: l) :: outer

end Bindings

/-! ## Classes -/

/-- The members of a class, given the classes declared up to it: those it inherits, and then those
of its own that do not replace an inherited one. -/
def memberNames (own : ClassDecl → List String) : List ClassDecl → String → List String
  | [], _ => []
  | c :: older, name =>
    if c.name = name then
      let inherited := match c.superclass with
        | some s => memberNames own older s
        | none => []
      inherited ++ (own c).filter fun x ↦ !inherited.contains x
    else memberNames own older name

/-- The names of the fields that a class declares itself. -/
def ClassDecl.fieldNames (c : ClassDecl) : List String := c.fields.map Binder.name

/-- The names of the methods that a class declares itself. -/
def ClassDecl.methodNames (c : ClassDecl) : List String := c.methods.map FunDecl.name

/-- A method, together with the class that declares it.  The class decides which members
its body can see. -/
structure Method where
  /-- The method. -/
  decl : FunDecl
  /-- The class. -/
  cls : String
  /-- The global declarations up to that of the class. -/
  home : Layer

namespace Layer

/-- The fields of a class, inherited ones first.  This is the order in which an object is
given their values. -/
def fieldNames (l : Layer) (cls : String) : List String :=
  memberNames ClassDecl.fieldNames l.classes cls

/-- The methods of a class, inherited ones first.  Only their number matters: it is how many
cells the class takes. -/
def methodNames (l : Layer) (cls : String) : List String :=
  memberNames ClassDecl.methodNames l.classes cls

/-- The method of the given name in the nearest class that declares one, from a class upwards. -/
def method? (name : String) : Layer → String → Option Method
  | [], _ => none
  | (x, .cls c) :: rest, cls =>
    if x = cls then
      match c.methods.find? fun f ↦ f.name = name with
      | some f => some ⟨f, x, (x, .cls c) :: rest⟩
      | none =>
        match c.superclass with
        | some s => method? name rest s
        | none => none
    else method? name rest cls
  | _ :: rest, cls => method? name rest cls

end Layer

/-! ## Objects -/

/-- An object.  It keeps the declarations that its class was made from, so that its methods are
found wherever it gets to. -/
structure Object where
  /-- The class it was made as. -/
  cls : String
  /-- The global declarations up to that of the class. -/
  home : Layer
  /-- The values of its fields. -/
  fields : List (String × Int32)

/-- The value of a field. -/
def Object.field? (o : Object) (name : String) : Option Int32 := Table.lookupIn name o.fields

/-- What is in scope in the methods of an object that a class declares: the fields and methods of
that class, which may be fewer than those of the object. -/
def Object.members (o : Object) (address : Int32) (cls : String) (home : Layer) : Layer :=
  (home.fieldNames cls).filterMap (fun x ↦ (o.field? x).map fun v ↦ (x, .value v))
    ++ (home.methodNames cls).map fun x ↦ (x, .method address)

/-- What has happened so far.  Objects are never changed, and nothing that has been
printed is taken back. -/
structure Store where
  /-- The objects by address, newest first. -/
  objects : List (Int32 × Object) := []
  /-- How many cells of the heap are in use. -/
  next : Nat := 0
  /-- What has been printed. -/
  printed : List Int32 := []

/-- The object at an address. -/
def Store.object? (σ : Store) (v : Int32) : Option Object := Table.lookupIn v σ.objects

/-! ## Evaluation -/

/-- Why there is no value.  The first two are the program's own doing, and the last one does not
occur in a program without errors. -/
inductive Interrupt where
  /-- There was a division by zero. -/
  | divisionByZero
  /-- A member of `null` was asked for. -/
  | nullAccess
  /-- The fuel did not suffice. -/
  | outOfFuel
  /-- The program makes no sense. -/
  | stuck
deriving DecidableEq

/-- Evaluating part of a program. -/
abbrev Eval := EStateM Interrupt Store

/-- A function about to be called, with the declarations that its body can see. -/
structure Callee where
  /-- The function. -/
  decl : FunDecl
  /-- What is declared around it, itself included. -/
  scope : Bindings

/-- How calls are carried out. -/
abbrev Caller := Callee → List Int32 → Eval Int32

/-- A boolean as a value. -/
def truth (b : Bool) : Int32 := if b then 1 else 0

/-- Carries out an arithmetic operation.  Division rounds towards zero, and everything wraps. -/
def ArithOp.eval (op : ArithOp) (a b : Int32) : Eval Int32 :=
  match op with
  | .add => pure (a + b)
  | .sub => pure (a - b)
  | .mul => pure (a * b)
  | .div => if b = 0 then throw .divisionByZero else pure (a / b)

namespace Eval

/-- Prints a value. -/
def print (v : Int32) : Eval Unit := modify fun σ ↦ { σ with printed := σ.printed ++ [v] }

/-- The value of a name.  Functions, classes and methods are no values. -/
def value (ρ : Bindings) (name : String) : Eval Int32 :=
  match ρ.bound? name with
  | some (.value v, _) => pure v
  | _ => throw .stuck

/-- The object that a value refers to.  Only `null` has none in a program without errors. -/
def object (v : Int32) : Eval Object := do
  if v = -1 then throw .nullAccess
  match (← get).object? v with
  | some o => return o
  | none => throw .stuck

/-- The value of a field of the object that a value refers to. -/
def field (v : Int32) (name : String) : Eval Int32 := do
  match (← object v).field? name with
  | some w => return w
  | none => throw .stuck

/-- Calls a method of the object that a value refers to: the nearest one from the class of the
object upwards.  Which class the value was declared with makes no difference. -/
def invoke (call : Caller) (v : Int32) (name : String) (args : List Int32) : Eval Int32 := do
  let o ← object v
  match o.home.method? name o.cls with
  | some m => call ⟨m.decl, [o.members v m.cls m.home, m.home]⟩ args
  | none => throw .stuck

/-- Calls what a name is bound to.  A method of the enclosing class is called for the same object,
and may be overridden in the class of that. -/
def call (call : Caller) (ρ : Bindings) (name : String) (args : List Int32) : Eval Int32 :=
  match ρ.bound? name with
  | some (.func f, scope) => call ⟨f, scope⟩ args
  | some (.method v, _) => invoke call v name args
  | _ => throw .stuck

/-- Makes an object with the given field values.  Its address is where they end on the heap. -/
def construct (ρ : Bindings) (cls : String) (args : List Int32) : Eval Int32 := do
  match ρ.class? cls with
  | none => throw .stuck
  | some home =>
    if (home.fieldNames cls).length = args.length then
      let σ ← get
      let address := Int32.ofNat (σ.next + args.length)
      let o : Object := ⟨cls, home, (home.fieldNames cls).zip args⟩
      set { σ with objects := (address, o) :: σ.objects, next := σ.next + args.length + 1 }
      return address
    else throw .stuck

end Eval

mutual

/-- Evaluates an expression.  The order of evaluation shows only in what is printed, and in which of
two errors comes first. -/
def Expr.eval (call : Caller) (ρ : Bindings) : Expr → Eval Int32
  | .int _ v => pure v
  | .bool _ b => pure (truth b)
  | .null _ => pure (-1)
  | .arith _ op l r => do
    let a ← l.eval call ρ
    let b ← r.eval call ρ
    op.eval a b
  | .compare _ op l r =>
    match op with
    | .eq => do
      let a ← l.eval call ρ
      let b ← r.eval call ρ
      return truth (a = b)
    | .le => do
      let a ← l.eval call ρ
      let b ← r.eval call ρ
      return truth (a ≤ b)
    | .ge => do
      let b ← r.eval call ρ
      let a ← l.eval call ρ
      return truth (b ≤ a)
  | .logic _ op l r => do
    let a ← l.eval call ρ
    match op with
    | .and => if a = 0 then return 0 else r.eval call ρ
    | .or => if a = 1 then return 1 else r.eval call ρ
  | .not _ e => do
    let a ← e.eval call ρ
    return truth (a = 0)
  | .cond _ c a b => do
    let v ← c.eval call ρ
    if v = 1 then a.eval call ρ else b.eval call ρ
  | .print _ e => do
    let v ← e.eval call ρ
    .print v
    return v
  | .ident _ x => .value ρ x
  | .call _ f args => do
    let vs ← Expr.evalBackwards call ρ args
    .call call ρ f vs
  | .field _ x f => do
    let v ← .value ρ x
    .field v f
  | .invoke _ x m args => do
    let vs ← Expr.evalBackwards call ρ args
    let v ← .value ρ x
    .invoke call v m vs
  | .new _ c args => do
    let vs ← Expr.evalAll call ρ args
    .construct ρ c vs
termination_by structural e => e

/-- Evaluates several expressions, the first of them first. -/
def Expr.evalAll (call : Caller) (ρ : Bindings) : List Expr → Eval (List Int32)
  | [] => pure []
  | e :: es => do
    let v ← e.eval call ρ
    let vs ← Expr.evalAll call ρ es
    return v :: vs
termination_by structural es => es

/-- Evaluates several expressions, the last of them first.  The values are given back in the order
of the expressions all the same. -/
def Expr.evalBackwards (call : Caller) (ρ : Bindings) : List Expr → Eval (List Int32)
  | [] => pure []
  | e :: es => do
    let vs ← Expr.evalBackwards call ρ es
    let v ← e.eval call ρ
    return v :: vs
termination_by structural es => es

end

/-- Goes through a declaration, which may be used from then on.  A variable cannot be used
in its own initial value, but a function in its own body, as it is found there together
with its binding. -/
def Decl.eval (call : Caller) (ρ : Bindings) : Decl → Eval Bindings
  | .var _ x _ e => do
    let v ← e.eval call ρ
    return ρ.bind x (.value v)
  | .func f => return ρ.bind f.name (.func f)
  | .cls c => do
    let ρ := ρ.bind c.name (.cls c)
    let methods := ((ρ.class? c.name).map fun home ↦ home.methodNames c.name).getD []
    modify fun σ ↦ { σ with next := σ.next + methods.length }
    return ρ

/-- Goes through several declarations, one after the other. -/
def Decl.evalAll (call : Caller) (ρ : Bindings) : List Decl → Eval Bindings
  | [] => return ρ
  | d :: ds => do
    let ρ ← d.eval call ρ
    Decl.evalAll call ρ ds

/-- The scope of a function with its parameters bound to values, the last of them in front. -/
def bindParams (l : Layer) : List Binder → List Int32 → Layer
  | b :: bs, v :: vs => bindParams ((b.name, .value v) :: l) bs vs
  | _, _ => l

/-- Runs a function: binds its parameters, goes through its local declarations and evaluates its
body.  The calls in these are run with one unit of fuel less, so fuel bounds how deep calls are
nested, not how many there are. -/
def Callee.run : (fuel : Nat) → Caller
  | 0, _, _ => throw .outOfFuel
  | fuel + 1, ⟨f, scope⟩, args => do
    let ρ ← Decl.evalAll (Callee.run fuel) (bindParams [] f.params args :: scope) f.locals
    f.body.eval (Callee.run fuel) ρ

/-- Evaluates a program.  The scope of the global declarations is there from the beginning; a bare
expression has no scope at all. -/
def Program.eval (fuel : Nat) : Program → Eval Int32
  | .letIn _ decls body => do
    let ρ ← Decl.evalAll (Callee.run fuel) [[]] decls
    body.eval (Callee.run fuel) ρ
  | .bare body => body.eval (Callee.run fuel) []

end ObjectLet
