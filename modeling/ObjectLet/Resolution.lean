import ObjectLet.Resolution.ClassLayout

/-!
# Name analysis

One pass over a program finds the declaration that each name refers to and gives each declaration
its place.  What is in scope is an `Env`; going through an expression leaves it as it is, going
through a declaration adds one name to it.  What is found comes out as a list of `Finding`s.

In a scope the parameters have the offsets 1, 2, … and the declarations -2, -3, …, whatever else
happens inside them.  Each body is a scope of its own, and the members of a class form a scope
around its methods.  A variable is not visible in its own initial value; a function is visible in
its body and a class in its methods.

A class belongs in the global scope.  Elsewhere it is an error; its members are laid out and its
methods analysed all the same, but no name refers to it.
-/

set_option autoImplicit false

namespace ObjectLet

/-- What is in scope at a point of a program. -/
structure Env where
  /-- The enclosing scopes. -/
  scopes : Scopes
  /-- The registered classes. -/
  classes : ClassTable
  /-- The offset of the next declaration in the innermost scope. -/
  nextOffset : Int

/-- The offset of the first declaration of a scope.  It lies below the return address, which takes
the place with offset -1. -/
def firstDeclOffset : Int := -2

/-- The offset of the first parameter of a scope, which lies next to the access link. -/
def firstParamOffset : Int := 1

/-- The finding that there is an error on a line. -/
def errorAt (site : Site) (cause : ScopeError.Cause) : Finding := .error ⟨cause, site.line⟩

/-! ## Types -/

mutual

/-- The class names in a type that refer to no registered class, from left to right.  What a whole
class is made of is not looked into. -/
def Ty.unknownClasses (classes : ClassTable) : Ty → List String
  | .ref name => if classes.contains name then [] else [name]
  | .arrow s | .method s => s.unknownClasses classes
  | .int | .bool | .null | .cls _ => []
termination_by structural t => t

/-- The class names in a signature that refer to no registered class: those of the parameters, then
those of the result. -/
def Signature.unknownClasses (classes : ClassTable) : Signature → List String
  | ⟨params, ret⟩ => Ty.unknownClassesIn classes params ++ ret.unknownClasses classes
termination_by structural s => s

/-- The class names in several types that refer to no registered class. -/
def Ty.unknownClassesIn (classes : ClassTable) : List Ty → List String
  | [] => []
  | t :: ts => t.unknownClasses classes ++ Ty.unknownClassesIn classes ts
termination_by structural ts => ts

end

namespace Env

/-- What there is to say about a type written at a site: one error for each class name in it that
refers to no registered class. -/
def annotation (env : Env) (site : Site) (ty : Ty) : List Finding :=
  (ty.unknownClasses env.classes).map fun n ↦ errorAt site (.undeclaredType n)

/-- What there is to say about the types in the head of a function: those of its parameters, each at
its own site, and then that of its result. -/
def signature (env : Env) (f : FunDecl) : List Finding :=
  f.params.flatMap (fun b ↦ env.annotation b.site b.ty) ++ env.annotation f.site f.ret

/-- What there is to say about a type written inside a class.  It may be the class itself, even if
that could not be registered; but where the class is only a part of the type, it has to be
registered like any other. -/
def memberAnnotation (env : Env) (cls : String) (site : Site) (ty : Ty) : List Finding :=
  if ty = .ref cls then [] else env.annotation site ty

/-- What there is to say about the types of the members of a class: those of its fields first, and
then those in the heads of its methods. -/
def memberAnnotations (env : Env) (c : ClassDecl) : List Finding :=
  c.fields.flatMap (fun b ↦ env.memberAnnotation c.name b.site b.ty)
    ++ c.methods.flatMap fun f ↦
      f.params.flatMap (fun b ↦ env.memberAnnotation c.name b.site b.ty)
        ++ env.memberAnnotation c.name f.site f.ret

/-! ## Uses -/

/-- How deep the innermost scope is nested.  This is 0 in the global scope, and where there
is no scope at all. -/
def level (env : Env) : Nat := env.scopes.nestingLevel

/-- A name used at a site.  What it refers to is noted together with the level of the use; if
nothing of that name is in scope, there is an error. -/
def useName (env : Env) (site : Site) (name : String) : List Finding :=
  match env.scopes.lookup? name with
  | some entry => [.use site.id ⟨entry, env.level⟩]
  | none => [errorAt site (.undeclared name)]

/-- A member of the object that a name refers to.  Whether the name refers to an object at all is a
matter of types, and nothing is said about it here. -/
def useMember (env : Env) (site : Site) (object member : String) : List Finding :=
  env.useName site object ++
    match (env.scopes.lookup? object).map Entry.ty with
    | some (.ref cls) =>
      match env.classes.member? cls member with
      | some entry => [.member site.id entry]
      | none => [errorAt site (.undeclaredMember cls member)]
    | _ => []

/-- The declaration of a class in the global scope, if it is registered.  Something else may
have been declared there under that name, and classes of other programs are registered
without being in scope. -/
def lookupClass? (env : Env) (cls : String) : Option Entry :=
  match env.scopes.lookupGlobal? cls with
  | some ⟨level, .cls shape, offset⟩ =>
    if env.classes.contains cls then some ⟨level, .cls shape, offset⟩ else none
  | _ => none

/-- A class used at a site to make an object.  It is noted like any other use of a name, but found
in the global scope only. -/
def useClass (env : Env) (site : Site) (cls : String) : List Finding :=
  match env.lookupClass? cls with
  | some entry => [.use site.id ⟨entry, env.level⟩]
  | none => [errorAt site (.undeclaredClass cls)]

end Env

/-! ## Expressions -/

mutual

/-- What is found in an expression, from left to right.  The name of what is called comes
before the arguments. -/
def Expr.resolve (env : Env) : Expr → List Finding
  | .int _ _ | .bool _ _ | .null _ => []
  | .arith _ _ l r | .compare _ _ l r | .logic _ _ l r => l.resolve env ++ r.resolve env
  | .not _ e | .print _ e => e.resolve env
  | .cond _ c t e => c.resolve env ++ t.resolve env ++ e.resolve env
  | .ident site name => env.useName site name
  | .call site callee args => env.useName site callee ++ Expr.resolveAll env args
  | .field site object member => env.useMember site object member
  | .invoke site object method args =>
    env.useMember site object method ++ Expr.resolveAll env args
  | .new site cls args => env.useClass site cls ++ Expr.resolveAll env args
termination_by structural e => e

/-- What is found in several expressions, one after the other. -/
def Expr.resolveAll (env : Env) : List Expr → List Finding
  | [] => []
  | e :: es => e.resolve env ++ Expr.resolveAll env es
termination_by structural es => es

end

/-! ## Declarations -/

namespace Env

/-- Enters a new scope, which contains nothing, and counts its declarations from the beginning. -/
def enter (env : Env) : Env :=
  { env with scopes := env.scopes.push ∅, nextOffset := firstDeclOffset }

/-- Gives the declaration at a site its place, and its name to the innermost scope.  If the scope
has that name already, it keeps what it refers to and there is an error; the declaration has its
place all the same. -/
def declare (env : Env) (site : Site) (name : String) (entry : Entry) : Env × List Finding :=
  match env.scopes.declare? name entry with
  | some scopes => ({ env with scopes }, [.layout site.id entry])
  | none => (env, [.layout site.id entry, errorAt site (.redeclared name)])

/-- Declares something of the given type in the next place of the innermost scope.  The place is
used up even if the name is taken. -/
def declareNext (env : Env) (site : Site) (name : String) (ty : Ty) : Env × List Finding :=
  { env with nextOffset := env.nextOffset - 1 }.declare site name ⟨env.level, ty, env.nextOffset⟩

/-- Declares parameters, the first of them at the given offset and each of the others one above
the one before it. -/
def declareParams (env : Env) (offset : Int) : List Binder → Env × List Finding
  | [] => (env, [])
  | b :: bs =>
    let (env₁, found) := env.declare b.site b.name ⟨env.level, b.ty, offset⟩
    let (env₂, more) := env₁.declareParams (offset + 1) bs
    (env₂, found ++ more)

/-- The superclass of a class, if it can be extended, what is inherited from it, and what
there is to say about it.  A class that is registered can be extended, and from any other one
nothing is inherited. -/
def superclass (env : Env) (c : ClassDecl) : Option String × ClassInfo × List Finding :=
  match c.superclass with
  | none => (none, ⟨∅, .empty⟩, [])
  | some name =>
    match env.classes.info? name with
    | some info => (some name, info, [])
    | none => (none, ⟨∅, .empty⟩, [errorAt c.site (.undeclaredSuperclass name)])

/-- Registers a class, unless its name is taken.  The superclass is recorded only together with the
class, so that a second class of a name leaves the hierarchy as it is. -/
def register (env : Env) (name : String) (superclass : Option String) (info : ClassInfo) : Env :=
  match env.classes.register? name info with
  | none => env
  | some classes =>
    { env with
      classes := match superclass with
        | some s => classes.setSuperclass name s
        | none => classes }

/-- Registers and declares a class, if the innermost scope is the global one.  Anywhere else neither
is done, and no place is used up. -/
def declareClass (env : Env) (c : ClassDecl) (superclass : Option String) (info : ClassInfo) :
    Env × List Finding :=
  if env.level = 0 then
    (env.register c.name superclass info).declareNext c.site c.name (.cls info.shape)
  else (env, [])

/-- Goes through a class up to the bodies of its methods.  Gives the scope afterwards, and the
scope in which the methods are: it has all members of the class, inherited ones included, in a
frame of its own. -/
def classHead (env : Env) (c : ClassDecl) : Env × Env × List Finding :=
  let misplaced := if env.level = 0 then [] else [errorAt c.site (.classNotGlobal c.name)]
  let (superclass, base, extended) := env.superclass c
  let (layout, laid) := ClassLayout.ofDecl base c
  let (env₁, declared) := env.declareClass c superclass layout.info
  (env₁, { env₁ with scopes := env₁.scopes.push layout.members },
    misplaced ++ extended ++ laid ++ declared ++ env₁.memberAnnotations c)

end Env

mutual

/-- Goes through a declaration: the scope afterwards, and what is found.  The initial value of a
variable is gone through before the variable is declared, the body of a function after that. -/
def Decl.resolve (env : Env) : Decl → Env × List Finding
  | .var site name ty init =>
    let (env₁, declared) := env.declareNext site name ty
    (env₁, init.resolve env ++ env.annotation site ty ++ declared)
  | .func f =>
    let (env₁, declared) := env.declareNext f.site f.name (.arrow f.signature)
    (env₁, env.signature f ++ declared ++ f.resolveBody env₁)
  | .cls c => c.resolve env
termination_by structural d => d

/-- What is found inside a function: parameters, local declarations and body, in a scope of their
own. -/
def FunDecl.resolveBody (env : Env) : FunDecl → List Finding
  | ⟨_, _, _, params, locals, body⟩ =>
    let (env₁, found) := env.enter.declareParams firstParamOffset params
    let (env₂, more) := Decl.resolveAll env₁ locals
    found ++ more ++ body.resolve env₂
termination_by structural f => f

/-- Goes through a class: the scope afterwards, and what is found.  The bodies of the methods come
last, so each of them can use all members, wherever they are declared. -/
def ClassDecl.resolve (env : Env) : ClassDecl → Env × List Finding
  | ⟨site, name, superclass, fields, methods⟩ =>
    let (env₁, inside, found) := env.classHead ⟨site, name, superclass, fields, methods⟩
    (env₁, found ++ FunDecl.resolveBodies inside methods)
termination_by structural c => c

/-- Goes through several declarations, each in the scope that the ones before it have left. -/
def Decl.resolveAll (env : Env) : List Decl → Env × List Finding
  | [] => (env, [])
  | d :: ds =>
    let (env₁, found) := d.resolve env
    let (env₂, more) := Decl.resolveAll env₁ ds
    (env₂, found ++ more)
termination_by structural ds => ds

/-- What is found inside several methods of a class, all of which are in the same scope. -/
def FunDecl.resolveBodies (env : Env) : List FunDecl → List Finding
  | [] => []
  | f :: fs => f.resolveBody env ++ FunDecl.resolveBodies env fs
termination_by structural fs => fs

end

/-! ## Programs -/

/-- Goes through a program, given the classes known before: the classes known afterwards, and what
is found.  A bare expression is in no scope at all. -/
def Program.resolve (classes : ClassTable) : Program → ClassTable × List Finding
  | .letIn _ decls body =>
    let (env, found) := Decl.resolveAll ⟨.push .empty ∅, classes, firstDeclOffset⟩ decls
    (env.classes, found ++ body.resolve env)
  | .bare body => (classes, body.resolve ⟨.empty, classes, firstDeclOffset⟩)

/-- Takes note of what name analysis finds in a program.  What was known before is kept, so the
classes of earlier programs can be extended and named in types. -/
def Context.resolve (ctx : Context) (p : Program) : Context :=
  let (classes, found) := p.resolve ctx.classes
  { ctx with classes }.addFindings found

end ObjectLet
