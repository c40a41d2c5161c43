import ObjectLet.Proofs.Visibility

/-!
# References

Expressions refer to names, to members and to classes.  Name analysis resolves such a reference or
reports it, and whether it has done the one or the other can be read off the context afterwards:
`Expr.missing?` says what must have been reported for an expression, given what is recorded for it.

* `Expr.scopeErrors_own`: what is reported for an expression itself.
* `Program.reports`: **no reference is lost, and none is reported twice.**
* `Program.new_global`: **objects are made of classes that are declared globally.**
-/

set_option autoImplicit false

namespace ObjectLet

/-! ## What is missing -/

/-- The member that an expression uses. -/
def Expr.member? : Expr → Option String
  | .field _ _ m | .invoke _ _ m _ => some m
  | _ => none

/-- The class that an expression makes an object of. -/
def Expr.newClass? : Expr → Option String
  | .new _ c _ => some c
  | _ => none

/-- The class that the declaration of a name refers to, if it is declared as an object. -/
def Resolution.class? (r : Resolution) : Option String :=
  match r.entry.ty with
  | .ref c => some c
  | _ => none

/-- What is missing at an expression, as far as a context tells: the declaration of its name or its
class, or the member in the class that its name refers to. -/
def Expr.missing? (ctx : Context) (u : Expr) : Option ScopeError.Cause :=
  match ctx.resolutions.find? u.site.id with
  | none => (u.subject?.map .undeclared).or (u.newClass?.map .undeclaredClass)
  | some r =>
    match u.member?, r.class?, ctx.members.find? u.site.id with
    | some m, some c, none => some (.undeclaredMember c m)
    | _, _, _ => none

/-- The error that is reported for an expression, if something that it needs is missing. -/
def Expr.reported? (ctx : Context) (u : Expr) : Option ScopeError :=
  (u.missing? ctx).map fun cause ↦ ⟨cause, u.site.line⟩

namespace ScopeError

/-- Whether an error is about a reference. -/
def isReference (e : ScopeError) : Bool := (Finding.error e).isUse

/-- Whether a name is not declared. -/
def isUndeclared (e : ScopeError) : Bool :=
  match e.cause with
  | .undeclared _ => true
  | _ => false

/-- Whether there is no class to make an object of. -/
def isUndeclaredClass (e : ScopeError) : Bool :=
  match e.cause with
  | .undeclaredClass _ => true
  | _ => false

/-- Whether a class has no such member. -/
def isUndeclaredMember (e : ScopeError) : Bool :=
  match e.cause with
  | .undeclaredMember _ _ => true
  | _ => false

end ScopeError

/-- A context reports all references of a program that are missing, in the order of the program. -/
structure Program.Reports (p : Program) (ctx : Context) : Prop where
  /-- These are the errors about references. -/
  errors : ctx.scopeErrors.filter ScopeError.isReference = p.nodes.filterMap (Expr.reported? ctx)
  /-- One for each name that is not resolved. -/
  names : ctx.scopeErrors.countP ScopeError.isUndeclared =
    p.nodes.countP fun u ↦ u.subject?.isSome && (ctx.resolutions.find? u.site.id).isNone
  /-- One for each class that is not resolved. -/
  classes : ctx.scopeErrors.countP ScopeError.isUndeclaredClass =
    p.nodes.countP fun u ↦ u.newClass?.isSome && (ctx.resolutions.find? u.site.id).isNone
  /-- One for each member that is not recorded, of a name that refers to a class. -/
  members : ctx.scopeErrors.countP ScopeError.isUndeclaredMember =
    p.nodes.countP fun u ↦ u.member?.isSome &&
      (ctx.resolutions.find? u.site.id).any (fun r ↦ r.class?.isSome) &&
      (ctx.members.find? u.site.id).isNone

/-! ## What is reported for an expression -/

section Nodes

variable {ctx : Context} {env : Env} {u : Expr}

/-- What is missing is a name or a class if none is resolved, and otherwise a member. -/
theorem Expr.any_reported (ctx : Context) (u : Expr) :
    (u.reported? ctx).any ScopeError.isUndeclared
        = (u.subject?.isSome && (ctx.resolutions.find? u.site.id).isNone) ∧
      (u.reported? ctx).any ScopeError.isUndeclaredClass
        = (u.newClass?.isSome && (ctx.resolutions.find? u.site.id).isNone) ∧
      (u.reported? ctx).any ScopeError.isUndeclaredMember
        = (u.member?.isSome &&
          (ctx.resolutions.find? u.site.id).any (fun r ↦ r.class?.isSome) &&
          (ctx.members.find? u.site.id).isNone) := by
  rw [Expr.reported?, Expr.missing?]
  cases ctx.resolutions.find? u.site.id with
  | none => cases u <;> exact ⟨rfl, rfl, rfl⟩
  | some r =>
    simp only [Option.any_some]
    cases u.member? <;> cases r.class? <;> cases ctx.members.find? u.site.id <;>
      simp [ScopeError.isUndeclared, ScopeError.isUndeclaredClass, ScopeError.isUndeclaredMember]

theorem scopeErrors_flatMap {α : Type} (l : List α) (f : α → List Finding) :
    scopeErrors (l.flatMap f) = l.flatMap fun a ↦ scopeErrors (f a) :=
  List.filterMap_flatMap

/-- A context tells what has been found at an expression, and nothing else.  Since nodes have
different numbers, nothing was found elsewhere under its number. -/
structure Context.Tells (ctx : Context) (env : Env) (u : Expr) : Prop where
  /-- What its name or class has been resolved to. -/
  use : ∀ r, ctx.resolutions.find? u.site.id = some r ↔ .use u.site.id r ∈ u.own env
  /-- The member. -/
  member : ∀ e, ctx.members.find? u.site.id = some e ↔ .member u.site.id e ∈ u.own env

namespace Context.Tells

/-- What is not found is not recorded, neither here nor under the number of another node. -/
theorem use_eq_none (h : ctx.Tells env u) (hu : ∀ r, .use u.site.id r ∉ u.own env) :
    ctx.resolutions.find? u.site.id = none :=
  Option.eq_none_iff_forall_ne_some.2 fun r hr ↦ hu r ((h.use r).1 hr)

theorem member_eq_none (h : ctx.Tells env u) (hu : ∀ e, .member u.site.id e ∉ u.own env) :
    ctx.members.find? u.site.id = none :=
  Option.eq_none_iff_forall_ne_some.2 fun e he ↦ hu e ((h.member e).1 he)

end Context.Tells

/-- A name that is used without a member is resolved or reported. -/
theorem Expr.scopeErrors_name (h : ctx.Tells env u) {x : String} (hx : u.subject? = some x)
    (hm : u.member? = none) (hown : u.own env = env.useName u.site x) :
    scopeErrors (u.own env) = (u.reported? ctx).toList := by
  rw [Env.useName] at hown
  rw [Expr.reported?, Expr.missing?, hx, hm]
  cases hentry : env.scopes.lookup? x with
  | none =>
    rw [hentry] at hown
    rw [h.use_eq_none (by simp [hown, errorAt]), hown]
    rfl
  | some entry =>
    rw [hentry] at hown
    rw [(h.use ⟨entry, env.level⟩).2 (by simp [hown]), hown]
    rfl

/-- A name that is used with a member is resolved or reported, and in the one case the member is
found or reported if the name refers to a class. -/
theorem Expr.scopeErrors_member (h : ctx.Tells env u) {x m : String} (hx : u.subject? = some x)
    (hm : u.member? = some m) (hown : u.own env = env.useMember u.site x m) :
    scopeErrors (u.own env) = (u.reported? ctx).toList := by
  rw [Env.useMember, Env.useName] at hown
  rw [Expr.reported?, Expr.missing?, hx, hm]
  cases hentry : env.scopes.lookup? x with
  | none =>
    simp only [hentry, Option.map_none, List.append_nil] at hown
    rw [h.use_eq_none (by simp [hown, errorAt]), hown]
    rfl
  | some entry =>
    simp only [hentry, Option.map_some] at hown
    rw [(h.use ⟨entry, env.level⟩).2 (by rw [hown]; exact List.mem_cons_self)]
    simp only [Resolution.class?]
    cases hty : entry.ty with
    | ref c =>
      simp only [hty] at hown
      cases hmember : env.classes.member? c m with
      | none =>
        rw [hmember] at hown
        rw [h.member_eq_none (by simp [hown, errorAt]), hown]
        rfl
      | some e =>
        rw [hmember] at hown
        rw [(h.member e).2 (by simp [hown]), hown]
        rfl
    | _ =>
      simp only [hty] at hown
      rw [hown]
      rfl

/-- **An error is reported for an expression if something is missing there**, and what that is can
be read off the context. -/
theorem Expr.scopeErrors_own (h : ctx.Tells env u) :
    scopeErrors (u.own env) = (u.reported? ctx).toList := by
  cases u with
  | ident site x | call site x args => exact Expr.scopeErrors_name h rfl rfl rfl
  | field site x m | invoke site x m args => exact Expr.scopeErrors_member h rfl rfl rfl
  | new site c args =>
    rw [Expr.reported?, Expr.missing?]
    cases hentry : env.lookupClass? c with
    | none =>
      have hown : (Expr.new site c args).own env = [errorAt site (.undeclaredClass c)] := by
        rw [Expr.own, Env.useClass, hentry]
      rw [h.use_eq_none (by simp [hown, errorAt]), hown]
      rfl
    | some entry =>
      have hown : (Expr.new site c args).own env = [.use site.id ⟨entry, env.level⟩] := by
        rw [Expr.own, Env.useClass, hentry]
      rw [(h.use ⟨entry, env.level⟩).2 (hown ▸ List.mem_singleton_self _), hown]
      rfl
  | _ =>
    rw [Expr.reported?, Expr.missing?, h.use_eq_none fun _ ↦ List.not_mem_nil]
    rfl

end Nodes

/-! ## Programs -/

section Programs

variable {p : Program}

/-- Only errors about references are reported for expressions. -/
theorem filter_scopeErrors (fs : List Finding) :
    (scopeErrors fs).filter ScopeError.isReference = scopeErrors (uses fs) := by
  induction fs with
  | nil => rfl
  | cons f fs ih =>
    cases f with
    | error e =>
      simp only [scopeErrors, uses, List.filterMap_cons, List.filter_cons] at ih ⊢
      rw [ScopeError.isReference]
      split <;> simp_all
    | _ => simpa [scopeErrors, uses, List.filter_cons, Finding.isUse] using ih

/-- A fresh context tells what has been found on the visits of a program. -/
theorem Program.tells (hids : p.ids.Nodup) {env : Env} {e u : Expr}
    (hv : (env, e) ∈ p.visits .empty) (hu : u ∈ e.nodes) : p.resolved.Tells env u :=
  ⟨fun r ↦ (Program.noted_iff (f := .use u.site.id r) hids rfl).trans
      (Program.mem_resolve_iff hids hv hu rfl rfl),
    fun m ↦ (Program.noted_iff (f := .member u.site.id m) hids rfl).trans
      (Program.mem_resolve_iff hids hv hu rfl rfl)⟩

/-- **The errors about references are those of the expressions**, one after the other, in the order
in which they are gone through. -/
theorem Program.scopeErrors_resolved (hids : p.ids.Nodup) :
    p.resolved.scopeErrors.filter ScopeError.isReference
      = p.nodes.filterMap (Expr.reported? p.resolved) := by
  have hvisits : ∀ v ∈ p.visits .empty, scopeErrors (v.2.resolve v.1)
      = v.2.nodes.flatMap fun u ↦ (u.reported? p.resolved).toList := by
    rintro ⟨env, e⟩ hv
    rw [Expr.resolve_eq, scopeErrors_flatMap]
    exact List.flatMap_congr fun u hu ↦ Expr.scopeErrors_own (Program.tells hids hv hu)
  rw [Program.resolved, Context.scopeErrors_addFindings, List.nil_append, filter_scopeErrors,
    p.uses_resolve, scopeErrors_flatMap, List.flatMap_congr hvisits, ← Program.resolved,
    List.filterMap_eq_flatMap_toList, Program.nodes, ← p.roots_visits .empty, List.flatMap_assoc,
    List.flatMap_map]

/-- So the errors of one sort are as many as the expressions that lack something of this sort. -/
theorem Program.countP_scopeErrors (hids : p.ids.Nodup) {sort : ScopeError → Bool}
    {lacks : Expr → Bool} (hsort : ∀ e, sort e = true → e.isReference = true)
    (hlacks : ∀ u : Expr, (u.reported? p.resolved).any sort = lacks u) :
    p.resolved.scopeErrors.countP sort = p.nodes.countP lacks := by
  have hfilter : p.resolved.scopeErrors.countP sort
      = (p.resolved.scopeErrors.filter ScopeError.isReference).countP sort := by
    rw [List.countP_filter]
    exact List.countP_congr fun e _ ↦ by
      rw [Bool.and_eq_true]
      exact ⟨fun he ↦ ⟨he, hsort e he⟩, And.left⟩
  rw [hfilter, Program.scopeErrors_resolved hids, List.countP_filterMap]
  refine List.countP_congr fun u _ ↦ ?_
  rw [← hlacks u]
  cases u.reported? p.resolved <;> rfl

/-- **No reference is lost and none is reported twice**, whatever other errors there are.  As in any
tree, different nodes have different numbers. -/
theorem Program.reports (hids : p.ids.Nodup) : p.Reports (Context.resolve {} p) := by
  refine ⟨Program.scopeErrors_resolved hids,
    Program.countP_scopeErrors hids ?_ fun u ↦ (u.any_reported _).1,
    Program.countP_scopeErrors hids ?_ fun u ↦ (u.any_reported _).2.1,
    Program.countP_scopeErrors hids ?_ fun u ↦ (u.any_reported _).2.2⟩
  all_goals
    rintro ⟨cause, line⟩ h
    cases cause <;> first | rfl | cases h

end Programs

namespace Lacking

/-- A class that declares a method twice. -/
def a : ClassDecl := ⟨⟨5, 2⟩, "A", none, [],
  [⟨⟨1, 2⟩, "m", .int, [], [], .ident ⟨0, 2⟩ "u"⟩,
    ⟨⟨4, 3⟩, "m", .int, [], [], .call ⟨3, 3⟩ "v" [.ident ⟨2, 3⟩ "w"]⟩]⟩

/-- Another class of the same name. -/
def b : ClassDecl := ⟨⟨8, 4⟩, "A", none, [],
  [⟨⟨7, 4⟩, "n", .int, [], [], .new ⟨6, 4⟩ "Z" []⟩]⟩

/-- A program with both classes, an object of the class, and members of it that do not exist. -/
def program : Program :=
  .letIn 1 [.cls a, .cls b, .var ⟨10, 5⟩ "o" (.ref "A") (.new ⟨9, 5⟩ "A" [])]
    (.arith ⟨14, 6⟩ .add (.field ⟨11, 6⟩ "o" "q") (.invoke ⟨13, 7⟩ "o" "n" [.ident ⟨12, 7⟩ "t"]))

/-- All references that are missing are reported, also those in the method and in the class which
are not declared again. -/
theorem program_reports : program.ids.Nodup ∧
    (Context.resolve {} program).scopeErrors.filter ScopeError.isReference =
      [⟨.undeclared "u", 2⟩, ⟨.undeclared "v", 3⟩, ⟨.undeclared "w", 3⟩, ⟨.undeclaredClass "Z", 4⟩,
        ⟨.undeclaredMember "A" "q", 6⟩, ⟨.undeclaredMember "A" "n", 7⟩, ⟨.undeclared "t", 7⟩] ∧
    program.Reports (Context.resolve {} program) := by
  have hids : program.ids.Nodup := by decide
  exact ⟨hids, by decide +kernel, Program.reports hids⟩

end Lacking

/-! ## The global scope -/

/-- There is a global scope, and all of its entries are at level 0.  So a class in it is found at
level 0 from everywhere. -/
def Env.Grounded (env : Env) : Prop :=
  ∃ frame, env.scopes.frames.getLast? = some frame ∧ Frame.All (fun e ↦ e.level = 0) frame

namespace Env.Grounded

variable {env : Env}

theorem start (classes : ClassTable) (offset : Int) : Grounded ⟨.push .empty ∅, classes, offset⟩ :=
  ⟨∅, rfl, Frame.all_empty _⟩

theorem push (h : env.Grounded) (frame : Frame) (offset : Int) :
    Grounded { env with scopes := env.scopes.push frame, nextOffset := offset } := by
  obtain ⟨ground, hlast, hground⟩ := h
  refine ⟨ground, ?_, hground⟩
  rw [Scopes.push, List.getLast?_cons, hlast]
  rfl

theorem declare (h : env.Grounded) {e : Entry} (he : e.level = env.level) (site : Site)
    (x : String) : (env.declare site x e).1.Grounded := by
  rw [Env.declare]
  split
  · rename_i scopes hscopes
    obtain ⟨frame, rest, hframes, -, hframes'⟩ := Scopes.frames_of_declare? hscopes
    obtain ⟨ground, hlast, hground⟩ := h
    rw [Env.level, Scopes.nestingLevel, hframes] at he
    rw [hframes] at hlast
    cases rest with
    | nil =>
      cases hlast
      exact ⟨_, congrArg List.getLast? hframes', hground.insert he x⟩
    | cons frame' rest => exact ⟨ground, (congrArg List.getLast? hframes').trans hlast, hground⟩
  · exact h

theorem declareNext (h : env.Grounded) (site : Site) (x : String) (ty : Ty) :
    (env.declareNext site x ty).1.Grounded :=
  let next : Env := { env with nextOffset := env.nextOffset - 1 }
  @declare next h ⟨env.level, ty, env.nextOffset⟩ rfl site x

theorem declareParams (h : env.Grounded) (offset : Int) (bs : List Binder) :
    (env.declareParams offset bs).1.Grounded := by
  induction bs generalizing env offset with
  | nil => exact h
  | cons b bs ih => exact ih (h.declare (by rfl) _ _) _

theorem classHead (h : env.Grounded) (c : ClassDecl) : (env.classHead c).1.Grounded := by
  have hregistered : ∀ s i, (env.register c.name s i).Grounded := fun s i ↦ by
    rw [Env.register_eq]
    exact h
  rw [Env.classHead_fst, Env.declareClass]
  split
  · exact (hregistered _ _).declareNext _ _ _
  · exact h

theorem resolve (h : env.Grounded) (d : Decl) : (d.resolve env).1.Grounded := by
  cases d with
  | var site x ty e => exact h.declareNext _ _ _
  | func f => exact h.declareNext _ _ _
  | cls c =>
    rw [Decl.resolve, ClassDecl.resolve_eq]
    exact h.classHead c

theorem resolveAll (h : env.Grounded) (ds : List Decl) : (Decl.resolveAll env ds).1.Grounded := by
  induction ds generalizing env with
  | nil => exact h
  | cons d ds ih => exact ih (h.resolve d)

theorem visitsAll (h : env.Grounded) {ds : List Decl}
    (ih : ∀ d ∈ ds, ∀ env : Env, env.Grounded → ∀ v ∈ d.visits env, v.1.Grounded) :
    ∀ v ∈ Decl.visitsAll env ds, v.1.Grounded := by
  induction ds generalizing env with
  | nil => nofun
  | cons d ds ih' =>
    rw [List.forall_mem_cons] at ih
    rw [Decl.visitsAll, List.forall_mem_append]
    exact ⟨ih.1 env h, ih' (h.resolve d) ih.2⟩

theorem visitsBody (h : env.Grounded) {f : FunDecl}
    (ih : ∀ d ∈ f.locals, ∀ env : Env, env.Grounded → ∀ v ∈ d.visits env, v.1.Grounded) :
    ∀ v ∈ f.visits env, v.1.Grounded := by
  have hinside : (env.enter.declareParams firstParamOffset f.params).1.Grounded :=
    declareParams (h.push ∅ firstDeclOffset) _ _
  rw [FunDecl.visits_eq, List.forall_mem_append, List.forall_mem_singleton]
  exact ⟨hinside.visitsAll ih, hinside.resolveAll _⟩

/-- Name analysis goes through a declaration with the global scope as the outermost one. -/
theorem visits (d : Decl) : ∀ env : Env, env.Grounded → ∀ v ∈ d.visits env, v.1.Grounded := by
  induction d using Decl.induction with
  | var site x ty e => exact fun env h v hv ↦ List.mem_singleton.1 hv ▸ h
  | func f ih => exact fun env h ↦ (h.declareNext _ _ _).visitsBody ih
  | cls c ih =>
    intro env h v hv
    rw [Decl.visits, ClassDecl.visits_eq, List.mem_flatMap] at hv
    obtain ⟨f, hf, hv⟩ := hv
    refine visitsBody ?_ (ih f hf) v hv
    rw [Env.classHead_inside]
    exact (h.classHead c).push _ _

/-- A class that can be used has a global entry. -/
theorem lookupClass? (h : env.Grounded) {cls : String} {e : Entry}
    (he : env.lookupClass? cls = some e) : e.level = 0 ∧ ∃ shape, e.ty = .cls shape := by
  obtain ⟨hlook, hshape, -⟩ := Env.lookupClass?_eq_some he
  obtain ⟨ground, hlast, hground⟩ := h
  rw [Scopes.lookupGlobal?, hlast] at hlook
  exact ⟨hground cls e hlook, hshape⟩

end Env.Grounded

end ObjectLet
