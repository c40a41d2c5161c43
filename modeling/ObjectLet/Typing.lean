import ObjectLet.Context

/-!
# Type checking

Every expression is given a type from the types of its parts, and the declarations are checked
against their annotations.  The rules themselves are plain functions from types to a type or to the
cause of an error (`Context.arithType`, `Context.condType` and so on); what goes through the tree
only applies them.

A check that fails inside an expression ends the check of the whole expression, but not that of the
other declarations.  So the outcome is a `Checked`: the remarks made on the way, together with a
result or the reason why there is none.  Only resolutions, members and classes are looked at, which
are all settled before, so nothing that is remarked in one place changes what is remarked in
another.
-/

set_option autoImplicit false

namespace ObjectLet

/-! ## Outcomes -/

/-- The outcome of a check.  There are remarks even if there is no result, since what has been found
up to an error is kept. -/
structure Checked (α : Type) where
  /-- What was remarked, in order. -/
  remarks : List Remark
  /-- The result, or why there is none. -/
  result : Except CheckError α

namespace Checked

instance : Monad Checked where
  pure a := ⟨[], .ok a⟩
  bind x f :=
    match x.result with
    | .ok a => ⟨x.remarks ++ (f a).remarks, (f a).result⟩
    | .error e => ⟨x.remarks, .error e⟩

variable {α : Type}

/-- Reports an error and gives up. -/
def fail (site : Site) (cause : TypeError.Cause) : Checked α :=
  ⟨[.error ⟨cause, site.line⟩], .error (.type ⟨cause, site.line⟩)⟩

/-- Goes on if a condition holds, and otherwise reports an error and gives up. -/
def require (site : Site) (holds : Bool) (cause : TypeError.Cause) : Checked Unit :=
  if holds then pure () else fail site cause

/-- What name analysis has found for a site; gives up without a report if it has found nothing. -/
def resolved (site : Site) : Option α → Checked α
  | some a => pure a
  | none => ⟨[], .error (.unresolved site.line)⟩

/-- Records the type of an expression. -/
def typed (site : Site) (ty : Ty) : Checked Ty := ⟨[.typed site.id ty], .ok ty⟩

/-- Records the type that a rule gives, or reports the error that it finds. -/
def judge (site : Site) : Except TypeError.Cause Ty → Checked Ty
  | .ok ty => typed site ty
  | .error cause => fail site cause

/-- The remarks of the check of a declaration, which ends there if it fails.  The failure has been
reported where it occurred; what is added here only says which declaration it has ended. -/
def recover (declaration : String) (x : Checked Unit) : List Remark :=
  match x.result with
  | .ok () => x.remarks
  | .error (.type e) => x.remarks ++ [.skipped declaration e]
  | .error (.unresolved line) => x.remarks ++ [.unresolved declaration line]

/-- The remarks of the check of a method, which ends there if it fails.  The class goes on to be
checked with its next method. -/
def recoverMethod (cls method : String) (x : Checked Unit) : List Remark :=
  match x.result with
  | .ok () => x.remarks
  | .error e => x.remarks ++ [.skippedMethod cls method e]

end Checked

/-! ## Rules -/

/-- The type of a name used as a value, from its declared type: functions and classes are no
values. -/
def valueType (name : String) : Ty → Except TypeError.Cause Ty
  | .arrow _ | .method _ => .error (.functionAsValue name)
  | .cls _ => .error (.classAsValue name)
  | ty => .ok ty

/-- The type of a field, from the type of the member: methods are no fields. -/
def fieldType (name : String) (ty : Ty) : Except TypeError.Cause Ty :=
  if ty.isMethod then .error (.methodAsField name) else .ok ty

/-- The signature that a call of a name goes by, if it can be called at all. -/
def calledSignature (name : String) (ty : Ty) : Except TypeError.Cause Signature :=
  match ty.callable? with
  | some s => .ok s
  | none => .error (.notCallable name)

/-- The signature that a call of a method goes by, if it is one. -/
def invokedSignature (name : String) : Ty → Except TypeError.Cause Signature
  | .method s => .ok s
  | _ => .error (.notCallable name)

namespace Context

/-- Arithmetic takes integers to an integer. -/
def arithType (ctx : Context) (op : ArithOp) (t u : Ty) : Except TypeError.Cause Ty :=
  if ctx.subtype t .int && ctx.subtype u .int then .ok .int else .error (.nonIntegerOperand op)

/-- Two values can be compared if the type of one is a subtype of that of the other. -/
def compareType (ctx : Context) (op : CompareOp) (t u : Ty) : Except TypeError.Cause Ty :=
  if ctx.subtype t u || ctx.subtype u t then .ok .bool else .error (.incomparableOperands op)

/-- Logical operators take booleans to a boolean. -/
def logicType (ctx : Context) (op : LogicOp) (t u : Ty) : Except TypeError.Cause Ty :=
  if ctx.subtype t .bool && ctx.subtype u .bool then .ok .bool else .error (.nonBooleanOperand op)

/-- Negation takes a boolean to a boolean. -/
def notType (ctx : Context) (t : Ty) : Except TypeError.Cause Ty :=
  if ctx.subtype t .bool then .ok .bool else .error .nonBooleanNegation

/-- A choice has the more general type of its two branches or, if neither is more general, that of
their nearest common ancestor. -/
def condType (ctx : Context) (t u : Ty) : Except TypeError.Cause Ty :=
  if ctx.subtype t u then .ok u
  else if ctx.subtype u t then .ok t
  else
    match Ty.commonAncestor? ctx.classes.hierarchy t u with
    | some v => .ok v
    | none => .error .incompatibleBranches

/-- The declaration that the name used at a site refers to. -/
def resolution (ctx : Context) (site : Site) : Checked Resolution :=
  .resolved site (ctx.resolutions.find? site.id)

/-- The member used at a site. -/
def member (ctx : Context) (site : Site) : Checked Entry :=
  .resolved site (ctx.members.find? site.id)

/-- Checks that the name before a member refers to an object.  The declared type of the name
decides, so this is known before anything is known about the member. -/
def checkReceiver (ctx : Context) (site : Site) (object : String) : Checked Unit := do
  match (← ctx.resolution site).entry.ty with
  | .ref _ => return
  | _ => .fail site (.notAnObject object)

/-- The field types and the result of making an object of a class: an object is made as if by a call
with the values of its fields, inherited ones first. -/
def constructor (ctx : Context) (site : Site) (cls : String) : Checked Signature := do
  let _ ← ctx.resolution site
  let shape ← .resolved site (ctx.classes.shape? cls)
  return ⟨shape.fields, .ref cls⟩

end Context

/-- The signature that a rule gives, or the error that it finds. -/
def Checked.signature (site : Site) : Except TypeError.Cause Signature → Checked Signature
  | .ok s => pure s
  | .error cause => fail site cause

/-- Checks that there are as many arguments as parameters.  This is done before any of the
arguments is checked. -/
def checkArity (site : Site) (name : String) (s : Signature) (args : List Expr) : Checked Unit :=
  .require site (s.arity == args.length) (.argumentCount name s.arity args.length)

/-! ## Expressions -/

mutual

/-- Finds the type of an expression.  Its parts are checked from left to right, and the first error
in one of them ends the check; the type is recorded last, when all parts have theirs. -/
def Expr.check (ctx : Context) : Expr → Checked Ty
  | .int site _ => .typed site .int
  | .bool site _ => .typed site .bool
  | .null site => .typed site .null
  | .arith site op l r => do
    let t ← l.check ctx
    let u ← r.check ctx
    .judge site (ctx.arithType op t u)
  | .compare site op l r => do
    let t ← l.check ctx
    let u ← r.check ctx
    .judge site (ctx.compareType op t u)
  | .logic site op l r => do
    let t ← l.check ctx
    let u ← r.check ctx
    .judge site (ctx.logicType op t u)
  | .not site e => do
    let t ← e.check ctx
    .judge site (ctx.notType t)
  | .cond site c t e => do
    let condition ← c.check ctx
    .require site (ctx.subtype condition .bool) .nonBooleanCondition
    let t ← t.check ctx
    let u ← e.check ctx
    .judge site (ctx.condType t u)
  | .print site e => do
    let t ← e.check ctx
    .typed site t
  | .ident site name => do
    let r ← ctx.resolution site
    .judge site (valueType name r.entry.ty)
  | .call site callee args => do
    let r ← ctx.resolution site
    let s ← .signature site (calledSignature callee r.entry.ty)
    checkArity site callee s args
    Expr.checkArgs ctx site callee 1 args s.params
    .typed site s.ret
  | .field site object name => do
    ctx.checkReceiver site object
    let m ← ctx.member site
    .judge site (fieldType name m.ty)
  | .invoke site object method args => do
    ctx.checkReceiver site object
    let m ← ctx.member site
    let s ← .signature site (invokedSignature method m.ty)
    checkArity site method s args
    Expr.checkArgs ctx site method 1 args s.params
    .typed site s.ret
  | .new site cls args => do
    let s ← ctx.constructor site cls
    checkArity site cls s args
    Expr.checkArgs ctx site cls 1 args s.params
    .typed site s.ret
termination_by structural e => e

/-- Checks arguments against parameter types, one after the other; the first of them has the given
position. -/
def Expr.checkArgs (ctx : Context) (site : Site) (name : String) (position : Nat) :
    List Expr → List Ty → Checked Unit
  | e :: es, p :: ps => do
    let t ← e.check ctx
    .require site (ctx.subtype t p) (.argumentType name position)
    Expr.checkArgs ctx site name (position + 1) es ps
  | _, _ => pure ()
termination_by structural es => es

end

/-! ## Overriding -/

namespace Context

/-- Whether a field of the given type may replace an inherited member: that must be a field, and of
a more general type. -/
def fieldOverrides (ctx : Context) (inherited : Ty) (ty : Ty) : Bool :=
  !inherited.isMethod && ctx.subtype ty inherited

/-- Whether a method may replace an inherited member: that must be a method, and of a more general
signature. -/
def methodOverrides (ctx : Context) (inherited : Ty) (s : Signature) : Bool :=
  match inherited with
  | .method t => s.subtype ctx.classes.hierarchy t
  | _ => false

/-- The members of the class that a class extends.  There are none if it extends no class, or one
that is not known. -/
def inheritedMembers (ctx : Context) (c : ClassDecl) : MemberTable :=
  (c.superclass.bind ctx.classes.members?).getD ∅

/-- The errors in what a class overrides: first its fields, then its methods.  Each is reported
where the member is declared, and ends nothing. -/
def checkOverrides (ctx : Context) (c : ClassDecl) : List Remark :=
  let inherited := ctx.inheritedMembers c
  let wrong (site : Site) (name : String) (sound : Entry → Bool) : List Remark :=
    match inherited.find? name with
    | some m => if sound m then [] else [.error ⟨.invalidOverride c.name name, site.line⟩]
    | none => []
  c.fields.flatMap (fun b ↦ wrong b.site b.name fun m ↦ ctx.fieldOverrides m.ty b.ty)
    ++ c.methods.flatMap fun f ↦
      wrong f.site f.name fun m ↦ ctx.methodOverrides m.ty f.signature

end Context

/-! ## Declarations -/

/-- Checks that a value fits the type of the variable it is for. -/
def checkInit (ctx : Context) (site : Site) (name : String) (ty : Ty) (init : Expr) :
    Checked Unit := do
  let t ← init.check ctx
  .require site (ctx.subtype t ty) (.incompatibleValue name)

/-- Checks that the body of a function fits its result type. -/
def checkBody (ctx : Context) (site : Site) (name : String) (ret : Ty) (body : Expr) :
    Checked Unit := do
  let t ← body.check ctx
  .require site (ctx.subtype t ret) (.wrongReturnType name)

mutual

/-- Checks a declaration, and remarks if the check had to end early. -/
def Decl.check (ctx : Context) : Decl → List Remark
  | .var site name ty init => (checkInit ctx site name ty init).recover name
  | .func f => (f.check ctx).recover f.name
  | .cls c => c.check ctx
termination_by structural d => d

/-- Checks a function: first its local declarations, then its body.  Errors in the declarations do
not end the check, but one in the body does. -/
def FunDecl.check (ctx : Context) : FunDecl → Checked Unit
  | ⟨site, name, ret, _, locals, body⟩ =>
    let x := checkBody ctx site name ret body
    ⟨Decl.checkAll ctx locals ++ x.remarks, x.result⟩
termination_by structural f => f

/-- Checks a class: first its methods, then what it overrides. -/
def ClassDecl.check (ctx : Context) : ClassDecl → List Remark
  | ⟨site, name, superclass, fields, methods⟩ =>
    FunDecl.checkMethods ctx name methods
      ++ ctx.checkOverrides ⟨site, name, superclass, fields, methods⟩
termination_by structural c => c

/-- Checks several declarations, one after the other. -/
def Decl.checkAll (ctx : Context) : List Decl → List Remark
  | [] => []
  | d :: ds => d.check ctx ++ Decl.checkAll ctx ds
termination_by structural ds => ds

/-- Checks the methods of a class, one after the other. -/
def FunDecl.checkMethods (ctx : Context) (cls : String) : List FunDecl → List Remark
  | [] => []
  | f :: fs => (f.check ctx).recoverMethod cls f.name ++ FunDecl.checkMethods ctx cls fs
termination_by structural fs => fs

end

/-! ## Programs -/

/-- Checks a program and finds the type of its expression.  What is wrong with its declarations has
no bearing on that type. -/
def Program.check (ctx : Context) (p : Program) : Checked Ty :=
  let x := p.body.check ctx
  ⟨Decl.checkAll ctx p.decls ++ x.remarks, x.result⟩

namespace Context

/-- Takes note of what type checking finds in a program, and gives the type of its expression. -/
def check (ctx : Context) (p : Program) : Context × Except CheckError Ty :=
  let x := p.check ctx
  (ctx.addRemarks x.remarks, x.result)

/-- Takes note of what type checking finds in an expression, and gives its type. -/
def checkExpr (ctx : Context) (e : Expr) : Context × Except CheckError Ty :=
  let x := e.check ctx
  (ctx.addRemarks x.remarks, x.result)

end Context

end ObjectLet
