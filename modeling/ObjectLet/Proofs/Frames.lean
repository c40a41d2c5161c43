import ObjectLet.Proofs.Annotations
import ObjectLet.Proofs.Visibility

/-!
# Frames

Each block of a program, which is the global one or that of a function or method, has its places:
one for each parameter and one for each declaration, counted from the frame in opposite directions.
What is declared in between inside of functions does not count.

Name analysis hands what is in scope from one part of a program to the next one, so that nothing
has to be put back.  It could as well keep all this in one place, enter and leave scopes there, and
remember the count of declarations around each body.  `Decl.walk` goes about it in this way.

* `Decl.gains_resolve`: what one declaration does to the frames and the count.
* `Decl.walk_eq`: **going through with a state comes to the same**, as what a body changes is put
  back behind it.
* `Program.frames_kept`: **where everything in a block is kept**, and that nothing else in scope is
  changed.
-/

set_option autoImplicit false

namespace ObjectLet

/-! ## What is left of a scope -/

section Scopes

theorem Env.tail_declare (env : Env) (site : Site) (x : String) (e : Entry) :
    (env.declare site x e).1.scopes.frames.tail = env.scopes.frames.tail := by
  rw [declare]
  split
  · rename_i scopes hscopes
    obtain ⟨frame, rest, hframes, -, hframes'⟩ := Scopes.frames_of_declare? hscopes
    rw [hframes, hframes', List.tail_cons, List.tail_cons]
  · rfl

theorem Env.tail_declareNext (env : Env) (site : Site) (x : String) (ty : Ty) :
    (env.declareNext site x ty).1.scopes.frames.tail = env.scopes.frames.tail :=
  tail_declare { env with nextOffset := env.nextOffset - 1 } site x _

theorem Env.tail_declareParams (env : Env) (offset : Int) (bs : List Binder) :
    (env.declareParams offset bs).1.scopes.frames.tail = env.scopes.frames.tail := by
  induction bs generalizing env offset with
  | nil => rfl
  | cons b bs ih => exact (ih _ _).trans (env.tail_declare _ _ _)

theorem Decl.tail_resolve (env : Env) (d : Decl) :
    (d.resolve env).1.scopes.frames.tail = env.scopes.frames.tail := by
  cases d with
  | var site x ty e => exact env.tail_declareNext _ _ _
  | func f => exact env.tail_declareNext _ _ _
  | cls c =>
    rw [Decl.resolve, ClassDecl.resolve_eq, Env.classHead_eq, Env.declareClass]
    split
    · rw [Env.register_eq]
      exact Env.tail_declareNext _ _ _ _
    · rfl

theorem Decl.tail_resolveAll (env : Env) (ds : List Decl) :
    (Decl.resolveAll env ds).1.scopes.frames.tail = env.scopes.frames.tail := by
  induction ds generalizing env with
  | nil => rfl
  | cons d ds ih => exact (ih _).trans (d.tail_resolve env)

/-- Inside a function there is one more frame. -/
theorem Env.length_enterBody (env : Env) (f : FunDecl) :
    (env.enter.declareParams firstParamOffset f.params).1.scopes.frames.length
      = env.scopes.frames.length + 1 :=
  env.enter.length_declareParams firstParamOffset f.params

/-- Leaving the scope of a function gives back what was in scope before, if the declarations are
counted on. -/
theorem Env.leave_body (env : Env) (h : env.scopes.frames ≠ []) (f : FunDecl) :
    (⟨⟨(Decl.resolveAll (env.enter.declareParams firstParamOffset f.params).1
        f.locals).1.scopes.frames.tail⟩,
      (Decl.resolveAll (env.enter.declareParams firstParamOffset f.params).1 f.locals).1.classes,
      env.nextOffset⟩ : Env) = env := by
  have hlevel : (env.enter.declareParams firstParamOffset f.params).1.level ≠ 0 := by
    have hlength := env.length_enterBody f
    have hpos := List.length_pos_iff.2 h
    rw [level, Scopes.nestingLevel]
    omega
  rw [Decl.tail_resolveAll, tail_declareParams, Decl.classes_resolveAll_of_level_ne hlevel,
    classes_declareParams]
  rfl

end Scopes

/-! ## Going through with a state -/

/-- What is in scope and what has been found.  This is the state of an analysis that enters and
leaves scopes as it goes. -/
structure Pass extends Env where
  /-- The findings so far. -/
  found : List Finding

/-- Going through something, with what is in scope as a state. -/
abbrev Walk := StateM Pass

/-- The state after what is in scope has changed and something has been found. -/
def Pass.after (s : Pass) (r : Env × List Finding) : Pass := ⟨r.1, s.found ++ r.2⟩

namespace Walk

/-- Changes what is in scope, and takes note of what is found. -/
def move (f : Env → Env × List Finding) : Walk Unit := modify fun s ↦ s.after (f s.toEnv)

/-- Only takes note of what is found. -/
def note (f : Env → List Finding) : Walk Unit := move fun env ↦ (env, f env)

/-- Leaves the innermost scope. -/
def pop : Walk Unit := modify fun s ↦
  match s.scopes.pop? with
  | some (_, scopes) => { s with scopes }
  | none => s

end Walk

mutual

/-- Goes through an expression, which only adds to what has been found. -/
def Expr.walk : Expr → Walk Unit
  | .int _ _ | .bool _ _ | .null _ => pure ()
  | .arith _ _ l r | .compare _ _ l r | .logic _ _ l r => do
    l.walk
    r.walk
  | .not _ e | .print _ e => e.walk
  | .cond _ c t e => do
    c.walk
    t.walk
    e.walk
  | .ident site name => .note (·.useName site name)
  | .call site callee args => do
    .note (·.useName site callee)
    Expr.walkAll args
  | .field site object member => .note (·.useMember site object member)
  | .invoke site object method args => do
    .note (·.useMember site object method)
    Expr.walkAll args
  | .new site cls args => do
    .note (·.useClass site cls)
    Expr.walkAll args
termination_by structural e => e

/-- Goes through several expressions. -/
def Expr.walkAll : List Expr → Walk Unit
  | [] => pure ()
  | e :: es => do
    e.walk
    Expr.walkAll es
termination_by structural es => es

end

mutual

/-- Goes through a declaration.  The scopes inside it are entered and left again on the way. -/
def Decl.walk : Decl → Walk Unit
  | .var site name ty init => do
    init.walk
    .note fun env ↦ env.annotation site ty
    .move (·.declareNext site name ty)
  | .func f => do
    .note (·.signature f)
    .move (·.declareNext f.site f.name (.arrow f.signature))
    f.walkBody
  | .cls c => c.walk
termination_by structural d => d

/-- Goes through what is inside a function: enters a scope, leaves it in the end, and counts the
declarations on from where the count was. -/
def FunDecl.walkBody : FunDecl → Walk Unit
  | ⟨_, _, _, params, locals, body⟩ => do
    let saved := (← get).nextOffset
    .move fun env ↦ (env.enter, [])
    .move (·.declareParams firstParamOffset params)
    Decl.walkAll locals
    body.walk
    .pop
    modify fun s ↦ { s with nextOffset := saved }
termination_by structural f => f

/-- Goes through a class: enters the scope of its members, and leaves it in the end. -/
def ClassDecl.walk : ClassDecl → Walk Unit
  | ⟨site, name, superclass, fields, methods⟩ => do
    .move fun env ↦ (env.classHead ⟨site, name, superclass, fields, methods⟩).2
    FunDecl.walkBodies methods
    .pop
termination_by structural c => c

/-- Goes through several declarations. -/
def Decl.walkAll : List Decl → Walk Unit
  | [] => pure ()
  | d :: ds => do
    d.walk
    Decl.walkAll ds
termination_by structural ds => ds

/-- Goes through what is inside several methods. -/
def FunDecl.walkBodies : List FunDecl → Walk Unit
  | [] => pure ()
  | f :: fs => do
    f.walkBody
    FunDecl.walkBodies fs
termination_by structural fs => fs

end

/-- Goes through a program.  A bare expression enters no scope. -/
def Program.walk : Program → Walk Unit
  | .letIn _ decls body => do
    .move fun env ↦ (env.enter, [])
    Decl.walkAll decls
    body.walk
    .pop
  | .bare body => body.walk

/-- The state at the beginning, given the classes known before. -/
def Pass.start (classes : ClassTable) : Pass := ⟨⟨.empty, classes, firstDeclOffset⟩, []⟩

/-! ### It comes to the same -/

section Walks

variable {s : Pass}

@[simp] theorem walk_bind {α β : Type} (x : Walk α) (f : α → Walk β) (s : Pass) :
    (x >>= f) s = f (x s).1 (x s).2 := rfl

@[simp] theorem walk_get (s : Pass) : (get : Walk Pass) s = (s, s) := rfl

@[simp] theorem walk_modify (f : Pass → Pass) (s : Pass) :
    (modify f : Walk Unit) s = ((), f s) := rfl

@[simp] theorem walk_move (f : Env → Env × List Finding) (s : Pass) :
    Walk.move f s = ((), s.after (f s.toEnv)) := rfl

@[simp] theorem walk_note (f : Env → List Finding) (s : Pass) :
    Walk.note f s = ((), s.after (s.toEnv, f s.toEnv)) := rfl

@[simp] theorem walk_pop (s : Pass) :
    Walk.pop s = ((), { s with scopes := ⟨s.scopes.frames.tail⟩ }) := by
  obtain ⟨⟨⟨frames⟩, classes, nextOffset⟩, found⟩ := s
  cases frames <;> rfl

@[simp] theorem Pass.toEnv_after (s : Pass) (r : Env × List Finding) :
    (s.after r).toEnv = r.1 := rfl

@[simp] theorem Pass.after_after (s : Pass) (r r' : Env × List Finding) :
    (s.after r).after r' = s.after (r'.1, r.2 ++ r'.2) := by
  simp only [after, List.append_assoc]

theorem Pass.after_nil (s : Pass) : s.after (s.toEnv, []) = s := by
  rw [after, List.append_nil]

mutual

/-- Going through an expression only takes note of what is found. -/
theorem Expr.walk_eq : ∀ (e : Expr) (s : Pass),
    e.walk s = ((), s.after (s.toEnv, e.resolve s.toEnv))
  | .int _ _, s | .bool _ _, s | .null _, s => congrArg _ s.after_nil.symm
  | .arith _ _ l r, s | .compare _ _ l r, s | .logic _ _ l r, s => by
    simp only [Expr.walk, Expr.resolve, walk_bind, l.walk_eq, r.walk_eq, Pass.toEnv_after,
      Pass.after_after]
  | .not _ e, s | .print _ e, s => e.walk_eq s
  | .cond _ c t e, s => by
    simp only [Expr.walk, Expr.resolve, walk_bind, c.walk_eq, t.walk_eq, e.walk_eq,
      Pass.toEnv_after, Pass.after_after]
  | .ident _ _, s | .field _ _ _, s => rfl
  | .call _ _ args, s | .invoke _ _ _ args, s | .new _ _ args, s => by
    simp only [Expr.walk, Expr.resolve, walk_bind, walk_note, Expr.walkAll_eq args,
      Pass.toEnv_after, Pass.after_after]
termination_by structural e => e

theorem Expr.walkAll_eq : ∀ (es : List Expr) (s : Pass),
    Expr.walkAll es s = ((), s.after (s.toEnv, Expr.resolveAll s.toEnv es))
  | [], s => congrArg _ s.after_nil.symm
  | e :: es, s => by
    simp only [Expr.walkAll, Expr.resolveAll, walk_bind, e.walk_eq, Expr.walkAll_eq es,
      Pass.toEnv_after, Pass.after_after]
termination_by structural es => es

end

/-- Going through a declaration with a state comes to the same. -/
def Decl.WalksAlike (d : Decl) : Prop :=
  ∀ s : Pass, s.scopes.frames ≠ [] → d.walk s = ((), s.after (d.resolve s.toEnv))

theorem Decl.walkAll_eq {ds : List Decl} (h : ∀ d ∈ ds, d.WalksAlike) (s : Pass)
    (hs : s.scopes.frames ≠ []) :
    Decl.walkAll ds s = ((), s.after (Decl.resolveAll s.toEnv ds)) := by
  induction ds generalizing s with
  | nil => exact congrArg _ s.after_nil.symm
  | cons d ds ih =>
    rw [List.forall_mem_cons] at h
    have hne : (d.resolve s.toEnv).1.scopes.frames ≠ [] := d.frames_resolve_ne_nil hs
    simp only [Decl.walkAll, Decl.resolveAll, walk_bind, h.1 s hs]
    rw [ih h.2 _ hne, Pass.after_after, Pass.toEnv_after]

/-- **Behind a body everything is as it was before**, apart from what has been found.  The scope
that is left is the one that was entered. -/
theorem FunDecl.walkBody_eq {f : FunDecl} (h : ∀ d ∈ f.locals, d.WalksAlike) (s : Pass)
    (hs : s.scopes.frames ≠ []) :
    f.walkBody s = ((), s.after (s.toEnv, f.resolveBody s.toEnv)) := by
  have hne : (s.toEnv.enter.declareParams firstParamOffset f.params).1.scopes.frames ≠ [] :=
    List.ne_nil_of_length_eq_add_one (s.toEnv.length_enterBody f)
  have hleave := s.toEnv.leave_body hs f
  obtain ⟨site, name, ret, params, locals, body⟩ := f
  have hlocals : ∀ found : List Finding, Decl.walkAll locals (s.after
      ((s.toEnv.enter.declareParams firstParamOffset params).1, found)) = ((), s.after
        ((Decl.resolveAll (s.toEnv.enter.declareParams firstParamOffset params).1 locals).1, found
          ++ (Decl.resolveAll (s.toEnv.enter.declareParams firstParamOffset params).1 locals).2)) :=
    fun found ↦ (Decl.walkAll_eq h _ hne).trans (congrArg _ (Pass.after_after _ _ _))
  simp only [FunDecl.walkBody, FunDecl.resolveBody, walk_bind, walk_get, walk_modify, walk_move,
    Pass.toEnv_after, Pass.after_after, hlocals, Expr.walk_eq, walk_pop]
  simp only [Pass.after, List.nil_append]
  rw [hleave]

theorem FunDecl.walkBodies_eq {fs : List FunDecl} (h : ∀ f ∈ fs, ∀ d ∈ f.locals, d.WalksAlike)
    (s : Pass) (hs : s.scopes.frames ≠ []) :
    FunDecl.walkBodies fs s = ((), s.after (s.toEnv, FunDecl.resolveBodies s.toEnv fs)) := by
  induction fs generalizing s with
  | nil => exact congrArg _ s.after_nil.symm
  | cons f fs ih =>
    rw [List.forall_mem_cons] at h
    simp only [FunDecl.walkBodies, FunDecl.resolveBodies, walk_bind, FunDecl.walkBody_eq h.1 s hs]
    rw [ih h.2 (s.after (s.toEnv, f.resolveBody s.toEnv)) hs, Pass.after_after, Pass.toEnv_after]

/-- **Going through a declaration with a state comes to the same** as handing on what is in
scope. -/
theorem Decl.walk_eq (d : Decl) : d.WalksAlike := by
  induction d using Decl.induction with
  | var site x ty e =>
    intro s _
    simp only [Decl.walk, Decl.resolve, walk_bind, walk_note, walk_move, e.walk_eq,
      Pass.toEnv_after, Pass.after_after]
  | func f ih =>
    intro s hs
    have hne : (s.toEnv.declareNext f.site f.name (.arrow f.signature)).1.scopes.frames ≠ [] :=
      Env.frames_declareNext_ne_nil hs _ _ _
    simp only [Decl.walk, Decl.resolve, walk_bind, walk_note, walk_move, Pass.toEnv_after,
      Pass.after_after]
    rw [FunDecl.walkBody_eq ih _ hne, Pass.after_after, Pass.toEnv_after]
  | cls c ih =>
    intro s hs
    have hne : (s.toEnv.classHead c).2.1.scopes.frames ≠ [] := by
      rw [Env.classHead_inside]
      exact List.cons_ne_nil _ _
    -- behind the methods the frame of the members is taken off again
    have hleave : (⟨⟨(s.toEnv.classHead c).2.1.scopes.frames.tail⟩,
        (s.toEnv.classHead c).2.1.classes, (s.toEnv.classHead c).2.1.nextOffset⟩ : Env)
          = (s.toEnv.classHead c).1 := by
      rw [Env.classHead_inside]
      rfl
    obtain ⟨site, x, superclass, fields, methods⟩ := c
    have hbodies := FunDecl.walkBodies_eq ih (s.after (s.toEnv.classHead _).2) hne
    simp only [Decl.walk, Decl.resolve, ClassDecl.walk, ClassDecl.resolve, walk_bind, walk_move,
      hbodies, walk_pop, Pass.after_after, Pass.toEnv_after]
    simp only [Pass.after]
    rw [hleave]

/-- A program can be gone through with a state. -/
theorem Program.walk_eq (p : Program) (classes : ClassTable) :
    (p.walk (.start classes)).2.classes = (p.resolve classes).1 ∧
      (p.walk (.start classes)).2.found = (p.resolve classes).2 := by
  cases p with
  | letIn line ds body =>
    have hdecls := Decl.walkAll_eq (fun (d : Decl) (_ : d ∈ ds) ↦ d.walk_eq)
      ((Pass.start classes).after ((Pass.start classes).enter, [])) (List.cons_ne_nil _ _)
    simp only [Program.walk, walk_bind, walk_move, walk_pop, hdecls, Expr.walk_eq, Pass.after_after,
      Pass.toEnv_after]
    exact ⟨rfl, rfl⟩
  | bare body =>
    rw [Program.walk, Expr.walk_eq]
    exact ⟨rfl, rfl⟩

end Walks

/-! ## One declaration -/

/-- A name has been declared: it is entered into the innermost frame, unless it is there already,
and one place is taken.  All other frames are as before. -/
structure Env.Gains (env : Env) (x : String) (e : Entry) (env' : Env) : Prop where
  /-- The entry is at the level of the scope. -/
  level : e.level = env.level
  /-- It has the next place. -/
  offset : e.offset = env.nextOffset
  /-- Only the innermost frame is changed. -/
  frames : ∃ frame rest, env.scopes.frames = frame :: rest ∧
    env'.scopes.frames = frame.insertNew x e :: rest
  /-- One place is taken. -/
  nextOffset : env'.nextOffset = env.nextOffset - 1

section Declared

variable {env : Env}

theorem Env.nextOffset_declare (env : Env) (site : Site) (x : String) (e : Entry) :
    (env.declare site x e).1.nextOffset = env.nextOffset := by
  rw [declare]
  split <;> rfl

theorem Env.nextOffset_declareParams (env : Env) (offset : Int) (bs : List Binder) :
    (env.declareParams offset bs).1.nextOffset = env.nextOffset := by
  induction bs generalizing env offset with
  | nil => rfl
  | cons b bs ih => exact (ih _ _).trans (env.nextOffset_declare _ _ _)

theorem Env.gains_declareNext (h : env.scopes.frames ≠ []) (site : Site) (x : String) (ty : Ty) :
    env.Gains x ⟨env.level, ty, env.nextOffset⟩ (env.declareNext site x ty).1 := by
  obtain ⟨frame, rest, hframes⟩ := List.exists_cons_of_ne_nil h
  refine ⟨rfl, rfl, ⟨frame, rest, hframes, ?_⟩, ?_⟩
  · simp only [declareNext, declare, Scopes.declare?, hframes, Table.insertNew]
    by_cases hx : frame.contains x = true
    · rw [if_pos hx, if_pos hx]
      exact hframes
    · rw [if_neg hx, if_neg hx]
  · exact nextOffset_declare { env with nextOffset := env.nextOffset - 1 } site x _

theorem Env.layout_declare (site : Site) (x : String) (e : Entry) :
    .layout site.id e ∈ (env.declare site x e).2 := by
  rw [declare]
  split <;> exact List.mem_cons_self

/-- **What one declaration does to what is in scope.**  A class does so in the global scope only. -/
theorem Decl.gains_resolve {d : Decl} (h : env.scopes.frames ≠ [])
    (hd : env.level ≠ 0 → ∀ c, d ≠ .cls c) :
    env.Gains d.name ⟨env.level, d.declaredTy env.classes, env.nextOffset⟩ (d.resolve env).1 ∧
      .layout d.site.id ⟨env.level, d.declaredTy env.classes, env.nextOffset⟩
        ∈ (d.resolve env).2 := by
  cases d with
  | var site x ty e =>
    exact ⟨env.gains_declareNext h site x ty, List.mem_append_right _ (Env.layout_declare _ _ _)⟩
  | func f =>
    exact ⟨env.gains_declareNext h f.site f.name _, List.mem_append_left _
      (List.mem_append_right _ (Env.layout_declare _ _ _))⟩
  | cls c =>
    have hlevel : env.level = 0 := by
      by_contra hne
      exact hd hne c rfl
    have hhead : env.declareClass c (env.superclass c).1
        (ClassLayout.ofDecl (env.superclass c).2.1 c).1.info
        = ({ env with classes := env.classes.declare c } : Env).declareNext c.site c.name
          (.cls (env.classes.layout c).shape) := by
      rw [Env.superclass_fst, Env.superclass_snd, Env.declareClass, if_pos hlevel]
      exact congrArg (fun e : Env ↦ e.declareNext c.site c.name _) (Env.register_eq env c.name _ _)
    rw [Decl.resolve, ClassDecl.resolve_eq, Env.classHead_eq, hhead]
    have hregistered : ({ env with classes := env.classes.declare c } : Env).scopes.frames ≠ [] := h
    obtain ⟨hl, ho, hframes, hnext⟩ := Env.gains_declareNext hregistered c.site c.name
      (.cls (env.classes.layout c).shape)
    refine ⟨⟨hl, ho, hframes, hnext⟩, ?_⟩
    simp only [List.mem_append]
    exact .inl (.inl (.inr (Env.layout_declare _ _ _)))

end Declared

/-! ## Blocks -/

/-- What stands in one scope: parameters and declarations.  Each function has such a block, and
so has the program. -/
structure Block where
  /-- How deep it is nested. -/
  level : Nat
  /-- Its parameters. -/
  params : List Binder
  /-- Its declarations. -/
  decls : List Decl

/-- What stands in a function. -/
def FunDecl.block (level : Nat) (f : FunDecl) : Block := ⟨level, f.params, f.locals⟩

/-- The global declarations. -/
def Program.block (p : Program) : Block := ⟨0, [], p.decls⟩

/-- A block is the same as another one, or inside of it at any depth.  The members of a class are
one scope more around its methods. -/
inductive Block.Contains : Block → Block → Prop
  | refl (b : Block) : Contains b b
  | func {b b' : Block} {f : FunDecl} (hf : .func f ∈ b.decls)
    (h : Contains (f.block (b.level + 1)) b') : Contains b b'
  | method {b b' : Block} {c : ClassDecl} {f : FunDecl} (hc : .cls c ∈ b.decls)
    (hf : f ∈ c.methods) (h : Contains (f.block (b.level + 2)) b') : Contains b b'

/-- Classes are declared in the global block only.  Others are errors, and take no
place in a block. -/
structure Block.Placed (b : Block) : Prop where
  /-- There are none inside of functions. -/
  inside : ∀ d ∈ b.decls, d.ClassFreeInside
  /-- There are none here, unless the block is the global one. -/
  here : b.level ≠ 0 → ∀ d ∈ b.decls, d.ClassFree

/-- Every parameter and every declaration of a block has been given its place, as far as it is
`noted` for their nodes. -/
structure Block.LaidOut (b : Block) (noted : NodeId → Entry → Prop) : Prop where
  /-- The declarations, also those of names that are taken. -/
  decls : ∀ (i : Nat) (d : Decl), b.decls[i]? = some d →
    ∃ e, noted d.site.id e ∧ e.level = b.level ∧ e.offset = -(i : Int) - 2
  /-- The parameters. -/
  params : ∀ (j : Nat) (q : Binder), b.params[j]? = some q →
    ∃ e, noted q.site.id e ∧ e.level = b.level ∧ e.offset = (j : Int) + 1

theorem Block.LaidOut.mono {b : Block} {noted noted' : NodeId → Entry → Prop}
    (h : b.LaidOut noted) (himp : ∀ n e, noted n e → noted' n e) : b.LaidOut noted' := by
  refine ⟨fun i d hd ↦ ?_, fun j q hq ↦ ?_⟩
  · obtain ⟨e, he, hplace⟩ := h.decls i d hd
    exact ⟨e, himp _ _ he, hplace⟩
  · obtain ⟨e, he, hplace⟩ := h.params j q hq
    exact ⟨e, himp _ _ he, hplace⟩

section Blocks

variable {env : Env} {b b' : Block} {found : List Finding}

theorem Block.Placed.block {f : FunDecl} (h : ∀ d ∈ f.locals, d.ClassFree) (k : Nat) :
    (f.block k).Placed :=
  ⟨fun d hd ↦ (h d hd).inside, fun _ ↦ h⟩

theorem Block.Contains.placed (h : b.Contains b') (hb : b.Placed) : b'.Placed := by
  induction h with
  | refl => exact hb
  | func hf _ ih => exact ih (.block (hb.inside _ hf) _)
  | method hc hf _ ih => exact ih (.block (hb.inside _ hc _ hf) _)

theorem Block.Placed.not_cls (h : b.Placed) {d : Decl} (hd : d ∈ b.decls) (hk : b.level ≠ 0)
    (c : ClassDecl) : d ≠ .cls c := by
  rintro rfl
  cases h.here hk _ hd

theorem Env.level_of_length {k : Nat} (h : env.scopes.frames.length = k + 1) : env.level = k := by
  rw [Env.level, Scopes.nestingLevel, h]
  rfl

/-- The declarations of a scope are given one place after the other. -/
theorem Decl.layout_resolveAll {ds : List Decl} (h : env.scopes.frames ≠ [])
    (hds : env.level ≠ 0 → ∀ d ∈ ds, ∀ c, d ≠ .cls c) (i : Nat) (d : Decl) (hd : ds[i]? = some d) :
    ∃ e, .layout d.site.id e ∈ (Decl.resolveAll env ds).2 ∧ e.level = env.level ∧
      e.offset = env.nextOffset - i := by
  induction ds generalizing env i with
  | nil => cases hd
  | cons a ds ih =>
    obtain ⟨hgains, hlayout⟩ := Decl.gains_resolve h fun hne ↦ hds hne a List.mem_cons_self
    cases i with
    | zero =>
      cases hd
      exact ⟨_, List.mem_append_left _ hlayout, rfl, (Int.sub_zero _).symm⟩
    | succ i =>
      obtain ⟨e, he, hlevel, hoffset⟩ := ih (a.frames_resolve_ne_nil h)
        (fun hne d hd ↦ hds (a.level_resolve env ▸ hne) d (List.mem_cons_of_mem _ hd)) i hd
      refine ⟨e, List.mem_append_right _ he, hlevel.trans (a.level_resolve env), ?_⟩
      rw [hoffset, hgains.nextOffset]
      omega

theorem Env.layout_declareParams {bs : List Binder} {offset : Int} (j : Nat) (q : Binder)
    (hq : bs[j]? = some q) :
    ∃ e, .layout q.site.id e ∈ (env.declareParams offset bs).2 ∧ e.level = env.level ∧
      e.offset = offset + j := by
  induction bs generalizing env offset j with
  | nil => cases hq
  | cons b bs ih =>
    cases j with
    | zero =>
      cases hq
      exact ⟨_, List.mem_append_left _ (Env.layout_declare _ _ _), rfl, (Int.add_zero _).symm⟩
    | succ j =>
      obtain ⟨e, he, hlevel, hoffset⟩ := @ih (env.declare b.site b.name _).1 (offset + 1) j hq
      refine ⟨e, List.mem_append_right _ he, hlevel.trans (env.level_declare _ _ _), ?_⟩
      rw [hoffset]
      omega

theorem Decl.subset_resolveAll {ds : List Decl} {d : Decl} (hd : d ∈ ds) (env : Env) :
    ∃ env' : Env, env'.scopes.frames.length = env.scopes.frames.length ∧
      (d.resolve env').2 ⊆ (Decl.resolveAll env ds).2 := by
  induction ds generalizing env with
  | nil => cases hd
  | cons a ds ih =>
    rcases List.mem_cons.1 hd with rfl | hd
    · exact ⟨env, rfl, List.subset_append_left _ _⟩
    · obtain ⟨env', hlength, hsub⟩ := ih hd (a.resolve env).1
      exact ⟨env', hlength.trans (a.length_resolve env),
        List.Subset.trans hsub (List.subset_append_right _ _)⟩

/-- Where name analysis begins with a block: its parameters have been laid out, and its declarations
are about to be. -/
structure Env.Opens (env : Env) (b : Block) (found : List Finding) : Prop where
  /-- It has the depth of the block. -/
  length : env.scopes.frames.length = b.level + 1
  /-- The first place is free. -/
  nextOffset : env.nextOffset = firstDeclOffset
  /-- The declarations are gone through from there. -/
  decls : (Decl.resolveAll env b.decls).2 ⊆ found
  /-- The parameters have their places. -/
  params : ∀ (j : Nat) (q : Binder), b.params[j]? = some q →
    ∃ e, .layout q.site.id e ∈ found ∧ e.level = b.level ∧ e.offset = (j : Int) + 1

/-- Inside a function a new block begins, one level deeper and with its first place free. -/
theorem FunDecl.opens {f : FunDecl} {k : Nat} (hk : env.scopes.frames.length = k)
    (hsub : f.resolveBody env ⊆ found) :
    (env.enter.declareParams firstParamOffset f.params).1.Opens (f.block k) found := by
  rw [FunDecl.resolveBody_eq, List.append_subset, List.append_subset] at hsub
  have hlength : env.enter.scopes.frames.length = k + 1 := congrArg (· + 1) hk
  refine ⟨(env.length_enterBody f).trans hlength, Env.nextOffset_declareParams _ _ _, hsub.1.2,
    fun j q hq ↦ ?_⟩
  obtain ⟨e, he, hlevel, hoffset⟩ := Env.layout_declareParams j q hq
  refine ⟨e, hsub.1.1 he, hlevel.trans (Env.level_of_length hlength), ?_⟩
  rw [hoffset, firstParamOffset]
  omega

/-- **Every block is laid out by itself**, from its first place on, whatever is around it.  What is
gone through inside a declaration takes no place from it. -/
theorem Block.Contains.laidOut (h : b.Contains b') (hb : b.Placed) (hopens : env.Opens b found) :
    b'.LaidOut fun n e ↦ .layout n e ∈ found := by
  induction h generalizing env with
  | refl b =>
    have hlevel := Env.level_of_length hopens.length
    refine ⟨fun i d hd ↦ ?_, hopens.params⟩
    obtain ⟨e, he, hk, hoffset⟩ := Decl.layout_resolveAll
      (List.ne_nil_of_length_eq_add_one hopens.length)
      (fun hne d hd ↦ hb.not_cls hd (hlevel ▸ hne)) i d hd
    refine ⟨e, hopens.decls he, hk.trans hlevel, ?_⟩
    rw [hoffset, hopens.nextOffset, firstDeclOffset]
    omega
  | @func b b' f hf h ih =>
    obtain ⟨env₁, hlength, hsub⟩ := Decl.subset_resolveAll hf env
    have hinside : (env₁.declareNext f.site f.name (.arrow f.signature)).1.scopes.frames.length
        = b.level + 1 :=
      (Env.length_declareNext _ _ _ _).trans (hlength.trans hopens.length)
    exact ih (.block (hb.inside _ hf) _)
      (FunDecl.opens hinside (List.Subset.trans (List.append_subset.1 hsub).2 hopens.decls))
  | @method b b' c f hc hf h ih =>
    obtain ⟨env₁, hlength, hsub⟩ := Decl.subset_resolveAll hc env
    have hhead := (Decl.length_resolve env₁ (.cls c)).trans (hlength.trans hopens.length)
    rw [Decl.resolve, ClassDecl.resolve_eq] at hhead hsub
    have hinside : (env₁.classHead c).2.1.scopes.frames.length = b.level + 2 := by
      rw [Env.classHead_inside]
      exact congrArg (· + 1) hhead
    refine ih (.block (hb.inside _ hc f hf) _) (FunDecl.opens hinside fun x hx ↦ ?_)
    refine hopens.decls (hsub (List.mem_append_right _ ?_))
    rw [FunDecl.resolveBodies_eq]
    exact List.mem_flatMap.2 ⟨f, hf, hx⟩

end Blocks

/-! ## Programs -/

/-- A program begins with the global block, which has no parameters. -/
theorem Program.opens (p : Program) (classes : ClassTable) :
    Env.Opens ⟨.push .empty ∅, classes, firstDeclOffset⟩ p.block (p.resolve classes).2 := by
  refine ⟨rfl, rfl, ?_, nofun⟩
  cases p with
  | letIn line ds body => exact List.subset_append_left _ _
  | bare body => exact List.nil_subset _

/-- Going through a part of a program with a state comes to the same as handing on what is in scope,
and leaves everything there as it is, except that a declaration has been made. -/
structure Program.Restores (p : Program) : Prop where
  /-- An expression changes nothing. -/
  exprs : ∀ (e : Expr) (s : Pass), e.walk s = ((), s.after (s.toEnv, e.resolve s.toEnv))
  /-- A declaration adds its name and takes one place.  It is gone through at the depth of its
  block. -/
  decls : ∀ b, p.block.Contains b → ∀ d ∈ b.decls, ∀ s : Pass,
    s.scopes.frames.length = b.level + 1 → d.walk s = ((), s.after (d.resolve s.toEnv)) ∧
      ∃ e, s.toEnv.Gains d.name e (d.resolve s.toEnv).1

/-- **Every block of a program has its own places, and nothing that is done inside of a declaration
counts for those around it.**  The `i`-th declaration of a block, also of a name that is taken, is
kept at `-(i + 2)` and the `j`-th parameter at `j + 1`, both at the level of the block.  Analysing
the names with a state comes to the same as handing on what is in scope, and puts everything back
that it changes.  All this holds if the classes are declared globally, and nodes have different
numbers as in any tree; there may be other errors. -/
theorem Program.frames_kept {p : Program} (hids : p.ids.Nodup) (hclasses : p.ClassesGlobal)
    (ctx : Context) :
    (∀ b, p.block.Contains b →
      b.LaidOut fun n e ↦ (ctx.resolve p).layouts.find? n = some e) ∧
    ((p.walk (.start ctx.classes)).2.classes, (p.walk (.start ctx.classes)).2.found)
      = p.resolve ctx.classes ∧
    p.Restores := by
  have hplaced : p.block.Placed := ⟨hclasses, fun hne ↦ absurd rfl hne⟩
  have hnoted : ∀ n e, .layout n e ∈ (p.resolve ctx.classes).2 →
      (ctx.resolve p).layouts.find? n = some e := fun n e he ↦
    noted_addFindings (nodup_slots_resolve ctx.classes hids) he rfl
  refine ⟨fun b hb ↦ ?_, Prod.ext (p.walk_eq _).1 (p.walk_eq _).2, Expr.walk_eq,
    fun b hb d hd s hs ↦ ?_⟩
  · exact (hb.laidOut hplaced (p.opens ctx.classes)).mono hnoted
  · have hne : s.scopes.frames ≠ [] := List.ne_nil_of_length_eq_add_one hs
    have hlevel : s.toEnv.level = b.level := Env.level_of_length hs
    have hgains := Decl.gains_resolve hne fun hk ↦
      (hb.placed hplaced).not_cls hd (hlevel ▸ hk)
    exact ⟨d.walk_eq s hne, _, hgains.1⟩

namespace Stacking

/-- A function with two local variables of one name. -/
def f : FunDecl := ⟨⟨6, 2⟩, "f", .int, [⟨⟨1, 2⟩, "a", .int⟩],
  [.var ⟨3, 2⟩ "y" .int (.int ⟨2, 2⟩ 1), .var ⟨5, 2⟩ "y" .int (.int ⟨4, 2⟩ 2)], .ident ⟨0, 2⟩ "y"⟩

/-- A method with a local variable. -/
def m : FunDecl := ⟨⟨11, 3⟩, "m", .int, [⟨⟨7, 3⟩, "b", .int⟩],
  [.var ⟨9, 3⟩ "z" .int (.int ⟨8, 3⟩ 3)], .ident ⟨10, 3⟩ "z"⟩

/-- A class with that method. -/
def c : ClassDecl := ⟨⟨12, 3⟩, "C", none, [], [m]⟩

/-- A program with the function, the class, and a variable after them that uses a name which is not
declared. -/
def program : Program :=
  .letIn 1 [.func f, .cls c, .var ⟨14, 4⟩ "x" .int (.ident ⟨13, 4⟩ "none")] (.int ⟨15, 5⟩ 0)

/-- The variable after the function and the class is in the third place, and that in the method in
the first one of its own scope. -/
theorem program_kept : program.ids.Nodup ∧ program.ClassesGlobal ∧
    (∃ e, (Context.resolve {} program).layouts.find? 14 = some e ∧ e.level = 0 ∧ e.offset = -4) ∧
    (∃ e, (Context.resolve {} program).layouts.find? 9 = some e ∧ e.level = 2 ∧ e.offset = -2) ∧
    program.Restores := by
  have hids : program.ids.Nodup := by decide
  have hvar : ∀ (ds : List Decl), (∀ d ∈ ds, ∃ s x ty e, d = .var s x ty e) →
      ∀ d ∈ ds, d.ClassFree := by
    intro ds h d hd
    obtain ⟨s, x, ty, e, rfl⟩ := h d hd
    exact .var s x ty e
  have hclasses : program.ClassesGlobal := by
    intro d hd
    simp only [program, Program.decls, List.mem_cons, List.not_mem_nil, or_false] at hd
    rcases hd with rfl | rfl | rfl
    · exact hvar _ (by simp [f])
    · intro g hg
      obtain rfl := List.mem_singleton.1 hg
      exact hvar _ (by simp [m])
    · trivial
  obtain ⟨hlaid, -, hrestores⟩ := Program.frames_kept hids hclasses {}
  have hmethod : program.block.Contains (m.block 2) :=
    .method (c := c) (by simp [program, Program.block, Program.decls]) (List.mem_singleton_self _)
      (.refl _)
  exact ⟨hids, hclasses, (hlaid _ (.refl _)).decls 2 _ rfl, (hlaid _ hmethod).decls 0 _ rfl,
    hrestores⟩

end Stacking

end ObjectLet
