import ObjectLet.Proofs.Compiling
import ObjectLet.Proofs.Typings

/-!
# Whose errors they are

Type checking goes on after an error in a declaration, and it looks only at what name analysis has
settled: `Expr.check_knowledge` and `Decl.check_knowledge` say that what has been noted before makes
no difference.  So the declarations may be checked one after the other, each with the notes of those
before it, or each by itself.  Of the errors that come together, every declaration has its share
(`Decl.shares`): a variable and a function one error at most, a class those about what it overrides.

* `Context.errorsAccounted`: **the errors of a program are the shares of its declarations in order,
  followed by the error that its expression ends with**; and if an initial value or the body of a
  function is replaced, no share changes but that of this declaration.
-/

set_option autoImplicit false

namespace ObjectLet

open Checked

/-! ## What type checking looks at -/

namespace Context

/-- What name analysis has settled, without what else has been noted. -/
def knowledge (ctx : Context) : Context :=
  { classes := ctx.classes, resolutions := ctx.resolutions, members := ctx.members }

/-- Two contexts agree on what name analysis has settled.  Type checking looks at nothing else, so
it finds the same in both. -/
structure SameKnowledge (ctx ctx' : Context) : Prop where
  /-- The classes are the same. -/
  classes : ctx.classes = ctx'.classes
  /-- Names refer to the same declarations. -/
  resolutions : ctx.resolutions = ctx'.resolutions
  /-- Members are the same. -/
  members : ctx.members = ctx'.members

theorem SameKnowledge.knowledge_eq {ctx ctx' : Context} (h : ctx.SameKnowledge ctx') :
    ctx.knowledge = ctx'.knowledge := by
  rw [knowledge, knowledge, h.classes, h.resolutions, h.members]

/-- Notes of type checking are nothing that it looks at. -/
theorem knowledge_addRemarks (ctx : Context) (rs : List Remark) :
    (ctx.addRemarks rs).knowledge = ctx.knowledge := by
  induction rs generalizing ctx with
  | nil => rfl
  | cons r rs ih =>
    rw [addRemarks, List.foldl_cons, ← addRemarks, ih]
    cases r <;> rfl

end Context

section Knowledge

variable (ctx : Context)

theorem Expr.checkArgs_knowledge {es : List Expr}
    (h : ∀ e ∈ es, e.check ctx.knowledge = e.check ctx) (site : Site) (name : String)
    (position : Nat) (ps : List Ty) :
    Expr.checkArgs ctx.knowledge site name position es ps
      = Expr.checkArgs ctx site name position es ps := by
  induction es generalizing position ps with
  | nil => rw [Expr.checkArgs, Expr.checkArgs] <;> rintro _ _ _ _ ⟨⟩
  | cons e es ih =>
    rw [List.forall_mem_cons] at h
    cases ps with
    | nil => rw [Expr.checkArgs, Expr.checkArgs] <;> rintro _ _ _ _ _ ⟨⟩
    | cons p ps =>
      rw [Expr.checkArgs, Expr.checkArgs, h.1]
      simp only [ih h.2]
      rfl

/-- The check of an expression looks only at what name analysis has settled. -/
theorem Expr.check_knowledge (e : Expr) : e.check ctx.knowledge = e.check ctx := by
  induction e using Expr.parts_induction with
  | step e ih =>
    cases e with
    | int | bool | null => rw [Expr.check, Expr.check]
    | ident | field =>
      rw [Expr.check, Expr.check]
      rfl
    | arith site op l r | compare site op l r | logic site op l r =>
      simp only [Expr.parts, List.forall_mem_cons] at ih
      rw [Expr.check, Expr.check, ih.1, ih.2.1]
      rfl
    | not site e =>
      simp only [Expr.parts, List.forall_mem_cons] at ih
      rw [Expr.check, Expr.check, ih.1]
      rfl
    | print site e =>
      simp only [Expr.parts, List.forall_mem_cons] at ih
      rw [Expr.check, Expr.check, ih.1]
    | cond site c a b =>
      simp only [Expr.parts, List.forall_mem_cons] at ih
      rw [Expr.check, Expr.check, ih.1, ih.2.1, ih.2.2.1]
      rfl
    | call site f args | invoke site x m args | new site c args =>
      have hargs : ∀ d ∈ args, d.check ctx.knowledge = d.check ctx := ih
      rw [Expr.check, Expr.check]
      simp only [Expr.checkArgs_knowledge ctx hargs]
      rfl

theorem checkInit_knowledge (site : Site) (x : String) (ty : Ty) (e : Expr) :
    checkInit ctx.knowledge site x ty e = checkInit ctx site x ty e := by
  rw [checkInit, checkInit, e.check_knowledge]
  rfl

theorem checkBody_knowledge (site : Site) (x : String) (ty : Ty) (e : Expr) :
    checkBody ctx.knowledge site x ty e = checkBody ctx site x ty e := by
  rw [checkBody, checkBody, e.check_knowledge]
  rfl

theorem FunDecl.check_knowledge_of_locals {f : FunDecl}
    (h : ∀ d ∈ f.locals, d.check ctx.knowledge = d.check ctx) :
    f.check ctx.knowledge = f.check ctx := by
  rw [FunDecl.check_eq, FunDecl.check_eq, checkBody_knowledge, List.flatMap_congr h]

/-- The check of a declaration looks only at what name analysis has settled. -/
theorem Decl.check_knowledge (d : Decl) : d.check ctx.knowledge = d.check ctx := by
  induction d using Decl.induction with
  | var site x ty e => rw [Decl.check, Decl.check, checkInit_knowledge]
  | func f ih => rw [Decl.check, Decl.check, FunDecl.check_knowledge_of_locals ctx ih]
  | cls c ih =>
    have hmethods : ∀ f ∈ c.methods, (f.check ctx.knowledge).recoverMethod c.name f.name
        = (f.check ctx).recoverMethod c.name f.name :=
      fun f hf ↦ by rw [FunDecl.check_knowledge_of_locals ctx (ih f hf)]
    rw [Decl.check, Decl.check, ClassDecl.check_eq, ClassDecl.check_eq, List.flatMap_congr hmethods]
    rfl

theorem FunDecl.check_knowledge (f : FunDecl) : f.check ctx.knowledge = f.check ctx :=
  FunDecl.check_knowledge_of_locals ctx fun d _ ↦ d.check_knowledge ctx

end Knowledge

/-! ## One declaration after the other -/

namespace Context

/-- Takes note of what type checking finds in a declaration. -/
def checkDecl (ctx : Context) (d : Decl) : Context := ctx.addRemarks (d.check ctx)

variable (ctx : Context)

theorem addRemarks_append (rs rs' : List Remark) :
    ctx.addRemarks (rs ++ rs') = (ctx.addRemarks rs).addRemarks rs' :=
  List.foldl_append

@[simp] theorem addRemarks_recover (x : Checked Unit) (name : String) :
    ctx.addRemarks (x.recover name) = ctx.addRemarks x.remarks := by
  rw [Checked.recover]
  split
  · rfl
  all_goals rw [addRemarks_append]; rfl

@[simp] theorem addRemarks_recoverMethod (x : Checked Unit) (cls name : String) :
    ctx.addRemarks (x.recoverMethod cls name) = ctx.addRemarks x.remarks := by
  rw [Checked.recoverMethod]
  split
  · rfl
  · rw [addRemarks_append]; rfl

/-- Checks that take note of what they find, one after the other, find what each of them finds
alone. -/
theorem foldl_addRemarks {α : Type} (check : Context → α → List Remark)
    (hcheck : ∀ (ctx : Context) a, check ctx.knowledge a = check ctx a) (as : List α) :
    as.foldl (fun k a ↦ k.addRemarks (check k a)) ctx
      = ctx.addRemarks (as.flatMap (check ctx)) := by
  induction as generalizing ctx with
  | nil => rfl
  | cons a as ih =>
    have hsame : check (ctx.addRemarks (check ctx a)) = check ctx := by
      funext b
      rw [← hcheck, knowledge_addRemarks, hcheck]
    rw [List.foldl_cons, ih, hsame, List.flatMap_cons, addRemarks_append]

theorem foldl_checkDecl (ds : List Decl) :
    ds.foldl checkDecl ctx = ctx.addRemarks (ds.flatMap (Decl.check ctx)) :=
  ctx.foldl_addRemarks Decl.check Decl.check_knowledge ds

theorem foldl_checkMethod (cls : String) (fs : List FunDecl) :
    fs.foldl (fun k f ↦ k.checkDecl (.func f)) ctx
      = ctx.addRemarks (fs.flatMap fun f ↦ (f.check ctx).recoverMethod cls f.name) := by
  have hmethod : (fun (k : Context) (f : FunDecl) ↦ k.checkDecl (.func f))
      = fun k f ↦ k.addRemarks ((f.check k).recoverMethod cls f.name) := by
    funext k f
    rw [checkDecl, Decl.check, addRemarks_recover, addRemarks_recoverMethod]
  rw [hmethod]
  exact ctx.foldl_addRemarks
    (fun (k : Context) (f : FunDecl) ↦ (f.check k).recoverMethod cls f.name)
    (fun k f ↦ by rw [f.check_knowledge k]) fs

theorem checkBody_addRemarks (rs : List Remark) (site : Site) (x : String) (ty : Ty) (e : Expr) :
    checkBody (ctx.addRemarks rs) site x ty e = checkBody ctx site x ty e := by
  rw [← checkBody_knowledge, knowledge_addRemarks, checkBody_knowledge]

theorem checkOverrides_addRemarks (rs : List Remark) (c : ClassDecl) :
    (ctx.addRemarks rs).checkOverrides c = ctx.checkOverrides c :=
  calc (ctx.addRemarks rs).checkOverrides c
    _ = (ctx.addRemarks rs).knowledge.checkOverrides c := rfl
    _ = ctx.knowledge.checkOverrides c := by rw [knowledge_addRemarks]
    _ = ctx.checkOverrides c := rfl

theorem checkExpr_addRemarks (rs : List Remark) (e : Expr) :
    e.check (ctx.addRemarks rs) = e.check ctx := by
  rw [← e.check_knowledge, knowledge_addRemarks, e.check_knowledge]

/-- A function is checked after its local declarations, with what is noted about them. -/
theorem checkDecl_func (f : FunDecl) :
    ctx.checkDecl (.func f) = (f.locals.foldl checkDecl ctx).addRemarks
      (checkBody (f.locals.foldl checkDecl ctx) f.site f.name f.ret f.body).remarks := by
  rw [foldl_checkDecl, checkBody_addRemarks, checkDecl, Decl.check, addRemarks_recover,
    FunDecl.check_eq, addRemarks_append]

/-- What a class overrides is checked after its methods, with what is noted about them. -/
theorem checkDecl_cls (c : ClassDecl) :
    ctx.checkDecl (.cls c) = (c.methods.foldl (fun k f ↦ k.checkDecl (.func f)) ctx).addRemarks
      ((c.methods.foldl (fun k f ↦ k.checkDecl (.func f)) ctx).checkOverrides c) := by
  rw [ctx.foldl_checkMethod c.name, checkOverrides_addRemarks, checkDecl, Decl.check,
    ClassDecl.check_eq, addRemarks_append]

/-- The expression of a program is checked after its declarations, with what is noted about them. -/
theorem check_eq (p : Program) : ctx.check p = (p.decls.foldl checkDecl ctx).checkExpr p.body := by
  rw [foldl_checkDecl, checkExpr, checkExpr_addRemarks, check, Program.check, Decl.checkAll_eq,
    addRemarks_append]

end Context

/-! ## Errors of declarations -/

/-- The errors that the check of a declaration reports. -/
def Decl.errors (ctx : Context) (d : Decl) : List TypeError := typeErrors (d.check ctx)

/-- The errors in what a class overrides: one for each of its fields and then one for each of its
methods that may not replace an inherited member and does so. -/
def Context.overrideErrors (ctx : Context) (c : ClassDecl) : List TypeError :=
  let wrong (name : String) (sound : Entry → Bool) : Bool :=
    ((ctx.inheritedMembers c).find? name).any fun m ↦ !sound m
  (c.fields.filter fun b ↦ wrong b.name fun m ↦ ctx.fieldOverrides m.ty b.ty).map
      (fun b ↦ ⟨.invalidOverride c.name b.name, b.site.line⟩)
    ++ (c.methods.filter fun f ↦ wrong f.name fun m ↦ ctx.methodOverrides m.ty f.signature).map
      fun f ↦ ⟨.invalidOverride c.name f.name, f.site.line⟩

section Errors

variable {ctx : Context}

theorem typeErrors_flatMap_eq {α : Type} (as : List α) (f : α → List Remark) :
    typeErrors (as.flatMap f) = as.flatMap fun a ↦ typeErrors (f a) :=
  List.filterMap_flatMap

/-- The errors about members of a kind that replace inherited ones. -/
theorem typeErrors_replaced {α : Type} (inherited : MemberTable) (name : α → String)
    (sound : α → Entry → Bool) (error : α → TypeError) (as : List α) :
    typeErrors (as.flatMap fun a ↦ match inherited.find? (name a) with
      | some m => if sound a m then [] else [.error (error a)]
      | none => [])
      = (as.filter fun a ↦ (inherited.find? (name a)).any fun m ↦ !sound a m).map error := by
  rw [typeErrors_flatMap_eq]
  induction as with
  | nil => rfl
  | cons a as ih =>
    rw [List.flatMap_cons, ih, List.filter_cons]
    cases inherited.find? (name a) with
    | none => rfl
    | some m => cases hs : sound a m <;> simp [typeErrors, hs]

theorem typeErrors_checkOverrides (c : ClassDecl) :
    typeErrors (ctx.checkOverrides c) = ctx.overrideErrors c := by
  rw [Context.checkOverrides, typeErrors_append]
  exact congrArg₂ (· ++ ·)
    (typeErrors_replaced _ Binder.name (fun b m ↦ ctx.fieldOverrides m.ty b.ty) _ c.fields)
    (typeErrors_replaced _ FunDecl.name (fun f m ↦ ctx.methodOverrides m.ty f.signature) _
      c.methods)

/-- A variable has at most the error that the check of its initial value ends with. -/
theorem Decl.errors_var (site : Site) (x : String) (ty : Ty) (e : Expr) :
    (Decl.var site x ty e).errors ctx = reported (checkInit ctx site x ty e).result := by
  rw [Decl.errors, Decl.check, typeErrors_recover, accounts_checkInit]

/-- The errors of a function are those of its local declarations, and at most one of its own. -/
theorem Decl.errors_func (f : FunDecl) :
    (Decl.func f).errors ctx = f.locals.flatMap (Decl.errors ctx)
      ++ reported (checkBody ctx f.site f.name f.ret f.body).result := by
  rw [Decl.errors, Decl.check, typeErrors_recover, FunDecl.check_eq, typeErrors_append,
    accounts_checkBody, typeErrors_flatMap_eq]
  rfl

/-- The errors of a class are those of its methods, and those in what it overrides. -/
theorem Decl.errors_cls (c : ClassDecl) :
    (Decl.cls c).errors ctx = (c.methods.flatMap fun f ↦ (Decl.func f).errors ctx)
      ++ ctx.overrideErrors c := by
  rw [Decl.errors, Decl.check, ClassDecl.check_eq, typeErrors_append, typeErrors_checkOverrides,
    typeErrors_flatMap_eq]
  simp only [typeErrors_recoverMethod, Decl.errors, Decl.check, typeErrors_recover]

theorem length_reported_le {α : Type} (r : Except CheckError α) : (reported r).length ≤ 1 := by
  rcases r with (_ | _) | _ <;> simp [reported]

/-- What a declaration adds to the errors does not depend on what has been noted before. -/
theorem Context.typeErrors_checkDecl {ctx' : Context} (h : ctx.SameKnowledge ctx') (d : Decl) :
    (ctx'.checkDecl d).typeErrors = ctx'.typeErrors ++ d.errors ctx := by
  rw [checkDecl, typeErrors_addRemarks, ← d.check_knowledge ctx', ← h.knowledge_eq,
    d.check_knowledge ctx, Decl.errors]

theorem Context.typeErrors_checkExpr (e : Expr) :
    (ctx.checkExpr e).1.typeErrors = ctx.typeErrors ++ reported (ctx.checkExpr e).2 := by
  rw [checkExpr, typeErrors_addRemarks, e.check_accounts]

theorem Context.typeErrors_check (p : Program) :
    (ctx.check p).1.typeErrors = ctx.typeErrors
      ++ (p.decls.flatMap (Decl.errors ctx) ++ reported (ctx.checkExpr p.body).2) := by
  rw [check, typeErrors_addRemarks, Program.check, typeErrors_append, Decl.checkAll_eq,
    typeErrors_flatMap_eq, p.body.check_accounts]
  rfl

end Errors

/-! ## Shares -/

/-- What a declaration adds to the errors itself, apart from the declarations in it.  For a class
these are the errors in what it overrides. -/
structure Share where
  /-- The declaration. -/
  site : Site
  /-- The errors. -/
  errors : List TypeError

/-- What a function adds itself. -/
def FunDecl.share (ctx : Context) (f : FunDecl) : Share :=
  ⟨f.site, reported (checkBody ctx f.site f.name f.ret f.body).result⟩

mutual

/-- The shares of a declaration and the declarations in it, in the order in which the errors are
reported. -/
def Decl.shares (ctx : Context) : Decl → List Share
  | .var site x ty e => [⟨site, reported (checkInit ctx site x ty e).result⟩]
  | .func f => f.shares ctx
  | .cls c => c.shares ctx
termination_by structural d => d

/-- The shares of the local declarations of a function, and its own, which is
reported after them. -/
def FunDecl.shares (ctx : Context) : FunDecl → List Share
  | ⟨site, x, ret, params, locals, e⟩ =>
    Decl.sharesAll ctx locals ++ [FunDecl.share ctx ⟨site, x, ret, params, locals, e⟩]
termination_by structural f => f

/-- The shares of the methods of a class, and its own, which is reported after them. -/
def ClassDecl.shares (ctx : Context) : ClassDecl → List Share
  | ⟨site, x, superclass, fields, methods⟩ =>
    FunDecl.sharesAll ctx methods
      ++ [⟨site, ctx.overrideErrors ⟨site, x, superclass, fields, methods⟩⟩]
termination_by structural c => c

/-- The shares of several declarations. -/
def Decl.sharesAll (ctx : Context) : List Decl → List Share
  | [] => []
  | d :: ds => d.shares ctx ++ Decl.sharesAll ctx ds
termination_by structural ds => ds

/-- The shares of several functions. -/
def FunDecl.sharesAll (ctx : Context) : List FunDecl → List Share
  | [] => []
  | f :: fs => f.shares ctx ++ FunDecl.sharesAll ctx fs
termination_by structural fs => fs

end

section Shares

variable {ctx : Context}

theorem Decl.sharesAll_eq (ds : List Decl) :
    Decl.sharesAll ctx ds = ds.flatMap (Decl.shares ctx) := by
  induction ds with
  | nil => rfl
  | cons d ds ih => rw [Decl.sharesAll, ih, List.flatMap_cons]

theorem FunDecl.sharesAll_eq (fs : List FunDecl) :
    FunDecl.sharesAll ctx fs = fs.flatMap (FunDecl.shares ctx) := by
  induction fs with
  | nil => rfl
  | cons f fs ih => rw [FunDecl.sharesAll, ih, List.flatMap_cons]

theorem FunDecl.shares_eq (f : FunDecl) :
    f.shares ctx = f.locals.flatMap (Decl.shares ctx) ++ [f.share ctx] := by
  rw [← Decl.sharesAll_eq]
  cases f
  rfl

theorem ClassDecl.shares_eq (c : ClassDecl) :
    c.shares ctx = c.methods.flatMap (FunDecl.shares ctx) ++ [⟨c.site, ctx.overrideErrors c⟩] := by
  rw [← FunDecl.sharesAll_eq]
  cases c
  rfl

/-- The errors of a declaration are the shares of it and of the declarations in it. -/
theorem Decl.errors_eq_shares (d : Decl) :
    d.errors ctx = (d.shares ctx).flatMap Share.errors := by
  have hlocals : ∀ f : FunDecl,
      (∀ d ∈ f.locals, d.errors ctx = (d.shares ctx).flatMap Share.errors) →
      (Decl.func f).errors ctx = (f.shares ctx).flatMap Share.errors := by
    intro f h
    rw [Decl.errors_func, FunDecl.shares_eq, List.flatMap_append, List.flatMap_assoc,
      List.flatMap_congr h, List.flatMap_singleton]
    rfl
  induction d using Decl.induction with
  | var site x ty e => rw [Decl.errors_var, Decl.shares, List.flatMap_singleton]
  | func f ih => rw [hlocals f ih, Decl.shares]
  | cls c ih =>
    rw [Decl.errors_cls, Decl.shares, ClassDecl.shares_eq, List.flatMap_append, List.flatMap_assoc,
      List.flatMap_congr fun f hf ↦ hlocals f (ih f hf), List.flatMap_singleton]

end Shares

/-! ## Revisions -/

/-- One declaration is another one in which an initial value, or the body of a function, is replaced
by some expression: that of the declaration at the given site. -/
inductive Decl.Revised (s : Site) : Decl → Decl → Prop
  /-- The initial value of a variable. -/
  | init {x : String} {ty : Ty} {e e' : Expr} : Revised s (.var s x ty e) (.var s x ty e')
  /-- The body of a function. -/
  | body {x : String} {ret : Ty} {params : List Binder} {locals : List Decl} {e e' : Expr} :
    Revised s (.func ⟨s, x, ret, params, locals, e⟩) (.func ⟨s, x, ret, params, locals, e'⟩)
  /-- Something in a local declaration of a function. -/
  | nested {site : Site} {x : String} {ret : Ty} {params : List Binder} {before after : List Decl}
      {d d' : Decl} {e : Expr} (h : Revised s d d') :
    Revised s (.func ⟨site, x, ret, params, before ++ d :: after, e⟩)
      (.func ⟨site, x, ret, params, before ++ d' :: after, e⟩)
  /-- Something in a method of a class. -/
  | method {site : Site} {x : String} {superclass : Option String} {fields : List Binder}
      {before after : List FunDecl} {f f' : FunDecl} (h : Revised s (.func f) (.func f')) :
    Revised s (.cls ⟨site, x, superclass, fields, before ++ f :: after⟩)
      (.cls ⟨site, x, superclass, fields, before ++ f' :: after⟩)

/-- The same between programs: something in one of the global declarations is replaced. -/
inductive Program.Revised (s : Site) : Program → Program → Prop
  | decl {line : Nat} {before after : List Decl} {d d' : Decl} {e : Expr} (h : d.Revised s d') :
    Revised s (.letIn line (before ++ d :: after) e) (.letIn line (before ++ d' :: after) e)

/-- Two lists of shares differ at most in the share of the declaration at a given site, which has
at most one error in either of them. -/
def Share.DifferAt (s : Site) (l l' : List Share) : Prop :=
  ∃ before after : List Share, ∃ es es' : List TypeError,
    l = before ++ ⟨s, es⟩ :: after ∧ l' = before ++ ⟨s, es'⟩ :: after ∧
      es.length ≤ 1 ∧ es'.length ≤ 1

theorem Share.DifferAt.append {s : Site} {l l' : List Share} (h : DifferAt s l l')
    (before after : List Share) : DifferAt s (before ++ l ++ after) (before ++ l' ++ after) := by
  obtain ⟨b, a, es, es', rfl, rfl, hes, hes'⟩ := h
  exact ⟨before ++ b, a ++ after, es, es', by simp, by simp, hes, hes'⟩

namespace Decl.Revised

variable {ctx : Context} {s : Site} {d d' : Decl} {f f' : FunDecl}

/-- What a class has to compare a method with an inherited one is not replaced in it. -/
theorem head_eq (h : Revised s (.func f) (.func f')) :
    f'.site = f.site ∧ f'.name = f.name ∧ f'.signature = f.signature := by
  cases h <;> exact ⟨rfl, rfl, rfl⟩

/-- The body of a function makes no difference to what a class overrides. -/
theorem overrideErrors_eq {site : Site} {x : String} {superclass : Option String}
    {fields : List Binder} (before after : List FunDecl) (h : Revised s (.func f) (.func f')) :
    ctx.overrideErrors ⟨site, x, superclass, fields, before ++ f' :: after⟩
      = ctx.overrideErrors ⟨site, x, superclass, fields, before ++ f :: after⟩ := by
  obtain ⟨hsite, hname, hsignature⟩ := h.head_eq
  simp only [Context.overrideErrors, Context.inheritedMembers, List.filter_append,
    List.filter_cons, hname, hsignature, List.map_append]
  split <;> simp only [List.map_cons, hsite, hname]

/-- **A revision changes one share at most**: that of the declaration which is revised. -/
theorem shares (h : d.Revised s d') : Share.DifferAt s (d.shares ctx) (d'.shares ctx) := by
  induction h with
  | init =>
    simp only [Decl.shares]
    exact ⟨[], [], _, _, rfl, rfl, length_reported_le _, length_reported_le _⟩
  | body =>
    simp only [Decl.shares, FunDecl.shares_eq]
    exact ⟨_, [], _, _, rfl, rfl, length_reported_le _, length_reported_le _⟩
  | @nested site x ret params before after d d' e _ ih =>
    have hsplit := ih.append (before.flatMap (Decl.shares ctx)) (after.flatMap (Decl.shares ctx)
      ++ [⟨site, reported (checkBody ctx site x ret e).result⟩])
    simpa [Decl.shares, FunDecl.shares_eq, FunDecl.share] using hsplit
  | @method site x superclass fields before after f f' h ih =>
    simp only [Decl.shares] at ih
    have hsplit := ih.append (before.flatMap (FunDecl.shares ctx))
      (after.flatMap (FunDecl.shares ctx)
        ++ [⟨site, ctx.overrideErrors ⟨site, x, superclass, fields, before ++ f :: after⟩⟩])
    simpa [Decl.shares, ClassDecl.shares_eq, h.overrideErrors_eq] using hsplit

end Decl.Revised

/-! ## Programs -/

/-- The shares of the declarations of a program. -/
def Program.shares (ctx : Context) (p : Program) : List Share := p.decls.flatMap (Decl.shares ctx)

theorem Program.Revised.shares {ctx : Context} {s : Site} {p p' : Program} (h : p.Revised s p') :
    Share.DifferAt s (p.shares ctx) (p'.shares ctx) := by
  obtain @⟨line, before, after, d, d', e, h⟩ := h
  have hd : Share.DifferAt s (d.shares ctx) (d'.shares ctx) := h.shares
  have hsplit := hd.append (before.flatMap (Decl.shares ctx)) (after.flatMap (Decl.shares ctx))
  simpa [Program.shares, Program.decls] using hsplit

theorem Program.Revised.body_eq {s : Site} {p p' : Program} (h : p.Revised s p') :
    p'.body = p.body := by
  cases h
  rfl

/-- The errors that type checking finds in a given context are accounted for, each by the
declaration or expression it is found in. -/
structure Context.ErrorsAccounted (ctx : Context) : Prop where
  /-- The check of an expression adds the error that it ends with, and nothing if it ends with a
  type or for want of a declaration. -/
  expr : ∀ e, (ctx.checkExpr e).1.typeErrors = ctx.typeErrors ++ reported (ctx.checkExpr e).2
  /-- The declarations of a program are checked one after the other, and then its expression. -/
  program_steps : ∀ p, ctx.check p = (p.decls.foldl checkDecl ctx).checkExpr p.body
  /-- The local declarations of a function are checked one after the other, and then its body. -/
  func_steps : ∀ f : FunDecl, ctx.checkDecl (.func f) = (f.locals.foldl checkDecl ctx).addRemarks
    (checkBody (f.locals.foldl checkDecl ctx) f.site f.name f.ret f.body).remarks
  /-- The methods of a class are checked one after the other, and then what it overrides. -/
  cls_steps : ∀ c : ClassDecl,
    ctx.checkDecl (.cls c) = (c.methods.foldl (fun k f ↦ k.checkDecl (.func f)) ctx).addRemarks
      ((c.methods.foldl (fun k f ↦ k.checkDecl (.func f)) ctx).checkOverrides c)
  /-- What a declaration adds to the errors is the same whatever has been noted before. -/
  alone : ∀ ctx', ctx.SameKnowledge ctx' → ∀ d : Decl,
    (ctx'.checkDecl d).typeErrors = ctx'.typeErrors ++ d.errors ctx
  /-- So the errors of a program are those of its declarations, and that of its expression. -/
  program : ∀ p, (ctx.check p).1.typeErrors = ctx.typeErrors
    ++ (p.decls.flatMap (Decl.errors ctx) ++ reported (ctx.checkExpr p.body).2)
  /-- What becomes of the expression does not depend on the declarations. -/
  result : ∀ p, (ctx.check p).2 = (ctx.checkExpr p.body).2
  /-- The errors of a function are those of its local declarations, and those of its own. -/
  func : ∀ f : FunDecl, (Decl.func f).errors ctx
    = f.locals.flatMap (Decl.errors ctx) ++ (f.share ctx).errors
  /-- Of its own a function has one error at most. -/
  func_share : ∀ f : FunDecl, (f.share ctx).errors.length ≤ 1
  /-- The errors of a class are those of its methods, and those in what it overrides. -/
  cls : ∀ c : ClassDecl, (Decl.cls c).errors ctx
    = (c.methods.flatMap fun f ↦ (Decl.func f).errors ctx) ++ ctx.overrideErrors c
  /-- All in all, the errors of the declarations are their shares. -/
  shares : ∀ p : Program, p.decls.flatMap (Decl.errors ctx) = (p.shares ctx).flatMap Share.errors
  /-- A revision changes no share but that of the declaration that is revised, and not what becomes
  of the expression. -/
  revised : ∀ s p p', p.Revised s p' →
    Share.DifferAt s (p.shares ctx) (p'.shares ctx) ∧ (ctx.check p').2 = (ctx.check p).2

/-- **Every error is accounted for**, in every context. -/
theorem Context.errorsAccounted (ctx : Context) : ctx.ErrorsAccounted where
  expr := ctx.typeErrors_checkExpr
  program_steps := ctx.check_eq
  func_steps := ctx.checkDecl_func
  cls_steps := ctx.checkDecl_cls
  alone _ h d := typeErrors_checkDecl h d
  program := ctx.typeErrors_check
  result _ := rfl
  func := Decl.errors_func
  func_share _ := length_reported_le _
  cls := Decl.errors_cls
  shares p := by
    rw [Program.shares, List.flatMap_assoc, List.flatMap_congr fun d _ ↦ d.errors_eq_shares]
  revised _ p p' h := by
    refine ⟨h.shares, ?_⟩
    calc (ctx.check p').2
      _ = (ctx.checkExpr p'.body).2 := rfl
      _ = (ctx.checkExpr p.body).2 := by rw [h.body_eq]
      _ = (ctx.check p).2 := rfl

namespace Failing

/-- A program with errors in a variable, in a function and in its expression, and a local variable
with some initial value. -/
def program (e : Expr) : Program :=
  .letIn 1 [.var ⟨1, 2⟩ "x" .bool (.int ⟨0, 2⟩ 7),
    .func ⟨⟨5, 4⟩, "f", .bool, [], [.var ⟨3, 3⟩ "y" .bool e], .int ⟨4, 4⟩ 1⟩] (.ident ⟨6, 5⟩ "f")

/-- What name analysis has found in this program. -/
def context : Context := Context.resolve {} (program (.int ⟨2, 3⟩ 0))

/-- If the local variable gets a value that fits, then its error disappears, and no other. -/
theorem program_errorsAccounted :
    (program (.int ⟨2, 3⟩ 0)).Revised ⟨3, 3⟩ (program (.bool ⟨2, 3⟩ true)) ∧
      (context.check (program (.int ⟨2, 3⟩ 0))).1.typeErrors = [⟨.incompatibleValue "x", 2⟩,
        ⟨.incompatibleValue "y", 3⟩, ⟨.wrongReturnType "f", 4⟩, ⟨.functionAsValue "f", 5⟩] ∧
      (context.check (program (.bool ⟨2, 3⟩ true))).1.typeErrors = [⟨.incompatibleValue "x", 2⟩,
        ⟨.wrongReturnType "f", 4⟩, ⟨.functionAsValue "f", 5⟩] ∧
      Share.DifferAt ⟨3, 3⟩ ((program (.int ⟨2, 3⟩ 0)).shares context)
        ((program (.bool ⟨2, 3⟩ true)).shares context) := by
  have hrevised : (program (.int ⟨2, 3⟩ 0)).Revised ⟨3, 3⟩ (program (.bool ⟨2, 3⟩ true)) :=
    @Program.Revised.decl _ _ [_] [] _ _ _ (@Decl.Revised.nested _ _ _ _ _ [] [] _ _ _ .init)
  exact ⟨hrevised, by decide +kernel, by decide +kernel,
    ((Context.errorsAccounted context).revised _ _ _ hrevised).1⟩

end Failing

end ObjectLet
