import ObjectLet.Tree

/-!
# Outlines

An outline lists the nodes of a program in the order in which they are read, each with a short
description.  What is no node of its own, the head of a program and the signature of a function, has
a row without a number.

`Program.classNames` lists the classes that a program declares, in any place.
-/

set_option autoImplicit false

namespace ObjectLet

/-- A row of an outline. -/
structure OutlineRow where
  /-- The node, if the row stands for one. -/
  node : Option NodeId
  /-- The line. -/
  line : Nat
  /-- The description. -/
  text : String
deriving DecidableEq

namespace OutlineRow

/-- The row of the node at a site. -/
def ofSite (site : Site) (text : String) : OutlineRow := ⟨some site.id, site.line, text⟩

/-- The row of a parameter or field. -/
def ofBinder (sort : String) (b : Binder) : OutlineRow :=
  ofSite b.site (sort ++ " " ++ b.name ++ ": " ++ b.ty.text)

end OutlineRow

/-! ## Expressions -/

/-- What an expression is, apart from its parts. -/
def Expr.headText : Expr → String
  | .int _ v => "int " ++ toString v.toInt
  | .bool _ b => if b then "bool true" else "bool false"
  | .null _ => "null"
  | .arith _ op _ _ => "arithmetic " ++ op.symbol
  | .compare _ op _ _ => "comparison " ++ op.symbol
  | .logic _ op _ _ => "logical " ++ op.symbol
  | .not _ _ => "not"
  | .cond _ _ _ _ => "if"
  | .print _ _ => "print"
  | .ident _ n => "id " ++ n
  | .call _ f _ => "call " ++ f
  | .field _ o f => "field " ++ o ++ "." ++ f
  | .invoke _ o m _ => "mcall " ++ o ++ "." ++ m
  | .new _ c _ => "new " ++ c

/-- The row of an expression without its parts. -/
def Expr.headRow (e : Expr) : OutlineRow := .ofSite e.site e.headText

mutual

/-- The outline of the parts of an expression. -/
def Expr.partRows : Expr → List OutlineRow
  | .int _ _ | .bool _ _ | .null _ | .ident _ _ | .field _ _ _ => []
  | .arith _ _ l r | .compare _ _ l r | .logic _ _ l r =>
    l.headRow :: l.partRows ++ r.headRow :: r.partRows
  | .not _ e | .print _ e => e.headRow :: e.partRows
  | .cond _ c t e =>
    c.headRow :: c.partRows ++ t.headRow :: t.partRows ++ e.headRow :: e.partRows
  | .call _ _ args | .invoke _ _ _ args | .new _ _ args => Expr.listRows args
termination_by structural e => e

/-- The outline of several expressions. -/
def Expr.listRows : List Expr → List OutlineRow
  | [] => []
  | e :: es => e.headRow :: e.partRows ++ Expr.listRows es
termination_by structural es => es

end

/-- The outline of an expression. -/
def Expr.outline (e : Expr) : List OutlineRow := e.headRow :: e.partRows

/-! ## Declarations -/

mutual

/-- The outline of a declaration. -/
def Decl.outline : Decl → List OutlineRow
  | .var site name _ init => .ofSite site ("var " ++ name) :: init.outline
  | .func f => f.outline "fun"
  | .cls c => c.outline
termination_by structural d => d

/-- The outline of a function or method. -/
def FunDecl.outline (sort : String) : FunDecl → List OutlineRow
  | ⟨site, name, ret, params, locals, body⟩ =>
    .ofSite site (sort ++ " " ++ name)
      :: ⟨none, site.line, "signature " ++ (Signature.mk (params.map Binder.ty) ret).text⟩
      :: params.map (.ofBinder "param") ++ Decl.listOutline locals ++ body.outline
termination_by structural f => f

/-- The outline of a class. -/
def ClassDecl.outline : ClassDecl → List OutlineRow
  | ⟨site, name, _, fields, methods⟩ =>
    .ofSite site ("class " ++ name)
      :: fields.map (.ofBinder "field") ++ FunDecl.listOutline methods
termination_by structural c => c

/-- The outline of several declarations. -/
def Decl.listOutline : List Decl → List OutlineRow
  | [] => []
  | d :: ds => d.outline ++ Decl.listOutline ds
termination_by structural ds => ds

/-- The outline of several methods. -/
def FunDecl.listOutline : List FunDecl → List OutlineRow
  | [] => []
  | f :: fs => f.outline "method" ++ FunDecl.listOutline fs
termination_by structural fs => fs

end

/-- The outline of a program. -/
def Program.outline : Program → List OutlineRow
  | .letIn line decls body => ⟨none, line, "let"⟩ :: Decl.listOutline decls ++ body.outline
  | .bare body => body.outline

/-! ## Declared classes -/

mutual

/-- The classes declared in a declaration. -/
def Decl.classNames : Decl → List String
  | .var _ _ _ _ => []
  | .func f => f.classNames
  | .cls c => c.classNames
termination_by structural d => d

/-- The classes declared in a function. -/
def FunDecl.classNames : FunDecl → List String
  | ⟨_, _, _, _, locals, _⟩ => Decl.listClassNames locals
termination_by structural f => f

/-- A class and those declared in its methods. -/
def ClassDecl.classNames : ClassDecl → List String
  | ⟨_, name, _, _, methods⟩ => name :: FunDecl.listClassNames methods
termination_by structural c => c

/-- The classes declared in several declarations. -/
def Decl.listClassNames : List Decl → List String
  | [] => []
  | d :: ds => d.classNames ++ Decl.listClassNames ds
termination_by structural ds => ds

/-- The classes declared in several methods. -/
def FunDecl.listClassNames : List FunDecl → List String
  | [] => []
  | f :: fs => f.classNames ++ FunDecl.listClassNames fs
termination_by structural fs => fs

end

/-- The classes that a program declares, in any place. -/
def Program.classNames (p : Program) : List String := Decl.listClassNames p.decls

end ObjectLet
