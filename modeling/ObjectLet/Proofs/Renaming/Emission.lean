import ObjectLet.Emission
import ObjectLet.Proofs.Renaming.Context

/-!
# Code is emitted alike

Instructions contain neither names nor lines nor numbers of nodes, and so the code of a renamed
program is the code of the program.  What is renamed is what is kept on the way: the dispatch tables
are found under the new names of the classes, and the log speaks of the new names.

* `Expr.emit_rename`: **the code of an expression is the same.**
* `Program.emit_alike`: **the code of a program is the same**, or there is none for the same reason.
-/

set_option autoImplicit false

namespace ObjectLet

variable (r : Renaming)

/-- Why there is no code, renamed. -/
def CompileError.rename : CompileError → CompileError
  | .frontEnd counts => .frontEnd counts
  | .unresolved line => .unresolved (r.lines line)
  | .missingLayout x line => .missingLayout (r.names x) (r.lines line)
  | .assembly e => .assembly e

/-- Something that is logged, renamed. -/
def Event.rename : Event → Event
  | .scopeError e => .scopeError (e.rename r)
  | .scopesResolved errors classes => .scopesResolved errors classes
  | .typeError e => .typeError (e.rename r)
  | .declarationSkipped d e => .declarationSkipped (r.names d) (e.rename r)
  | .declarationUnresolved d line => .declarationUnresolved (r.names d) (r.lines line)
  | .methodSkipped c m e => .methodSkipped (r.names c) (r.names m) (e.rename r)
  | .typesChecked errors t => .typesChecked errors (t.map (Ty.rename r.names))
  | .analysed counts => .analysed counts
  | .emittingFunction x entry => .emittingFunction (r.names x) entry
  | .dispatchTable c methods => .dispatchTable (r.names c) methods
  | .codeGenerated main total classes => .codeGenerated main total classes
  | .executed stats => .executed stats
  | .faulted f ip steps => .faulted f ip steps

/-! ## Expressions -/

namespace Emit

variable {α β : Type}

/-- Emitting the code of an expression, with the errors renamed. -/
def rename (x : Emit α) : Emit α := fun n ↦ mapBoth (CompileError.rename r) id (x n)

theorem rename_pure (a : α) : rename r (pure a : Emit α) = pure a := rfl

theorem rename_bind (x : Emit α) (k : α → Emit β) :
    rename r (x >>= k) = rename r x >>= fun a ↦ rename r (k a) := by
  funext n
  show mapBoth _ id (x n >>= fun p ↦ k p.1 p.2)
    = mapBoth _ id (x n) >>= fun p ↦ rename r (k p.1) p.2
  cases x n <;> rfl

theorem rename_fresh (kind : Label.Kind) : rename r (Label.fresh kind) = Label.fresh kind := rfl

end Emit

namespace Target

variable (t : Target) (site : Site) (u : Resolution)

/-- What code is emitted for, renamed. -/
def rename : Target := ⟨t.ctx.rename r, t.base⟩

theorem resolution_rename :
    (t.rename r).resolution (r.relabelling.site site)
      = Resolution.rename r.names <$> Emit.rename r (t.resolution site) := by
  simp only [resolution, rename, Context.rename, Renaming.id_site, Table.find?_map]
  cases t.ctx.resolutions.find? site.id <;> rfl

theorem memberOffset_rename :
    (t.rename r).memberOffset (r.relabelling.site site)
      = Emit.rename r (t.memberOffset site) := by
  simp only [memberOffset, rename, Context.rename, Renaming.id_site, Table.find?_map]
  cases t.ctx.members.find? site.id <;> rfl

@[simp] theorem address_rename : (t.rename r).address (u.rename r.names) = t.address u := rfl

@[simp] theorem callNamed_rename : (t.rename r).callNamed (u.rename r.names) = t.callNamed u := by
  simp only [callNamed, Resolution.entry_rename, Entry.ty_rename, Ty.isMethod_rename]
  rfl

@[simp] theorem callMethod_rename (offset : Int) :
    (t.rename r).callMethod (u.rename r.names) offset = t.callMethod u offset := rfl

@[simp] theorem construct_rename (fields : Nat) :
    (t.rename r).construct (u.rename r.names) fields = t.construct u fields := rfl

end Target

mutual

/-- **The code of an expression is the same**, since labels are numbered without regard to names. -/
theorem Expr.emit_rename (t : Target) : ∀ e : Expr,
    (e.relabel r).emit (t.rename r) = Emit.rename r (e.emit t)
  | .int _ _ | .bool _ _ | .null _ => rfl
  | .arith _ _ a b => by
    simp only [Expr.relabel, Expr.emit, Expr.emit_rename t a, Expr.emit_rename t b,
      Emit.rename_bind, Emit.rename_pure]
  | .compare _ op a b => by
    cases op <;> simp only [Expr.relabel, Expr.emit, Expr.emit_rename t a, Expr.emit_rename t b,
      Emit.rename_bind, Emit.rename_pure, Emit.rename_fresh]
  | .logic _ _ a b => by
    simp only [Expr.relabel, Expr.emit, Expr.emit_rename t a, Expr.emit_rename t b,
      Emit.rename_bind, Emit.rename_pure, Emit.rename_fresh]
  | .not _ e => by
    simp only [Expr.relabel, Expr.emit, Expr.emit_rename t e, Emit.rename_bind, Emit.rename_pure]
  | .cond _ c a b => by
    simp only [Expr.relabel, Expr.emit, Expr.emit_rename t c, Expr.emit_rename t a,
      Expr.emit_rename t b, Emit.rename_bind, Emit.rename_pure, Emit.rename_fresh]
  | .print _ e => by
    simp only [Expr.relabel, Expr.emit, Expr.emit_rename t e, Emit.rename_bind, Emit.rename_pure]
  | .ident s _ => by
    simp only [Expr.relabel, Expr.emit, Target.resolution_rename, bind_map_left,
      Target.address_rename, Emit.rename_bind, Emit.rename_pure]
  | .call s _ args => by
    simp only [Expr.relabel, Expr.emit, Target.resolution_rename, bind_map_left,
      Expr.emit_rename_backwards t args, Target.callNamed_rename, Emit.rename_bind,
      Emit.rename_pure]
  | .field s _ _ => by
    simp only [Expr.relabel, Expr.emit, Target.resolution_rename, Target.memberOffset_rename,
      bind_map_left, Target.address_rename, Emit.rename_bind, Emit.rename_pure]
  | .invoke s _ _ args => by
    simp only [Expr.relabel, Expr.emit, Target.resolution_rename, Target.memberOffset_rename,
      bind_map_left, Expr.emit_rename_backwards t args, Target.callMethod_rename,
      Emit.rename_bind, Emit.rename_pure]
  | .new s _ args => by
    have hlen : (Expr.relabelAll r args).length = args.length := by
      rw [Expr.relabelAll_eq, List.length_map]
    simp only [Expr.relabel, Expr.emit, Target.resolution_rename, bind_map_left,
      Expr.emit_rename_all t args, hlen, Target.construct_rename, Emit.rename_bind,
      Emit.rename_pure]
termination_by structural e => e

theorem Expr.emit_rename_all (t : Target) : ∀ es : List Expr,
    Expr.emitAll (t.rename r) (Expr.relabelAll r es) = Emit.rename r (Expr.emitAll t es)
  | [] => rfl
  | e :: es => by
    simp only [Expr.relabelAll, Expr.emitAll, Expr.emit_rename t e, Expr.emit_rename_all t es,
      Emit.rename_bind, Emit.rename_pure]
termination_by structural es => es

theorem Expr.emit_rename_backwards (t : Target) : ∀ es : List Expr,
    Expr.emitBackwards (t.rename r) (Expr.relabelAll r es)
      = Emit.rename r (Expr.emitBackwards t es)
  | [] => rfl
  | e :: es => by
    simp only [Expr.relabelAll, Expr.emitBackwards, Expr.emit_rename t e,
      Expr.emit_rename_backwards t es, Emit.rename_bind, Emit.rename_pure]
termination_by structural es => es

end

/-! ## Declarations -/

/-- What has been emitted, with the dispatch tables and the log renamed.  Instructions contain no
names, so they stay as they are. -/
def Emission.rename (s : Emission) : Emission :=
  ⟨s.nextLabel, s.dispatch.map r.names id, s.functions, s.log.map (Event.rename r)⟩

/-- How emitting something ends, renamed. -/
def renameEnd {α : Type} :
    EStateM.Result CompileError Emission α → EStateM.Result CompileError Emission α
  | .ok a s => .ok a (s.rename r)
  | .error e s => .error (e.rename r) (s.rename r)

/-- Two ways to emit something that come to the same, after one has been renamed. -/
def Emitter.Alike {α : Type} (x' x : Emitter α) : Prop := ∀ s, x' (s.rename r) = renameEnd r (x s)

namespace Emitter.Alike

variable {r} {α β : Type} {x' x : Emitter α} {k' k : α → Emitter β}

theorem bind (hx : Alike r x' x) (hk : ∀ a, Alike r (k' a) (k a)) :
    Alike r (x' >>= k') (x >>= k) := by
  intro s
  show EStateM.bind x' k' (s.rename r) = renameEnd r (EStateM.bind x k s)
  rw [EStateM.bind, hx s, EStateM.bind]
  cases x s with
  | ok a u => exact hk a u
  | error e u => rfl

/-- What is read off the state may be renamed. -/
theorem get_bind {l' l : Emission → Emitter β}
    (hl : ∀ s, l' (s.rename r) (s.rename r) = renameEnd r (l s s)) :
    Alike r (get >>= l') (get >>= l) := hl

theorem modify {g' g : Emission → Emission} (hg : ∀ s, g' (s.rename r) = (g s).rename r) :
    Alike r (modify g') (modify g) := fun s ↦ congrArg (EStateM.Result.ok ()) (hg s)

end Emitter.Alike

section Steps

variable {α : Type}

theorem alike_pure (a : α) : Emitter.Alike r (pure a) (pure a) := fun _ ↦ rfl

theorem alike_throw (e : CompileError) :
    Emitter.Alike r (throw (e.rename r) : Emitter α) (throw e) := fun _ ↦ rfl

theorem alike_labels (x : Emit α) :
    Emitter.Alike r (.labels (Emit.rename r x)) (.labels x) := by
  intro s
  have hx : Emit.rename r x (s.rename r).nextLabel
      = mapBoth (CompileError.rename r) id (x s.nextLabel) := rfl
  rw [Emitter.labels, hx, Emitter.labels]
  cases x s.nextLabel <;> rfl

theorem alike_fresh (kind : Label.Kind) :
    Emitter.Alike r (.labels (Label.fresh kind)) (.labels (Label.fresh kind)) :=
  alike_labels r (Label.fresh kind)

theorem alike_note (e : Event) : Emitter.Alike r (.note (e.rename r)) (.note e) :=
  .modify fun s ↦ by simp only [Emission.rename, List.map_append, List.map_singleton]

theorem alike_addFunction (code : List Instr) :
    Emitter.Alike r (.addFunction code) (.addFunction code) := .modify fun _ ↦ rfl

theorem alike_inheritedDispatch (t : Target) (c : String) :
    Emitter.Alike r ((t.rename r).inheritedDispatch (r.names c)) (t.inheritedDispatch c) := by
  refine .get_bind fun s ↦ ?_
  have htable :
      (((t.rename r).ctx.classes.superclass? (r.names c)).bind (s.rename r).dispatch.find?)
        = (t.ctx.classes.superclass? c).bind s.dispatch.find? := by
    simp only [Target.rename, Context.classes_rename, ClassTable.superclass?_rename]
    cases t.ctx.classes.superclass? c with
    | none => rfl
    | some d => simp [Emission.rename]
  rw [htable]
  rfl

theorem alike_methodOffset (t : Target) (site : Site) (x : String) :
    Emitter.Alike r ((t.rename r).methodOffset (r.relabelling.site site) (r.names x))
      (t.methodOffset site x) := by
  have hfind : (t.rename r).ctx.layouts.find? (r.relabelling.site site).id
      = (t.ctx.layouts.find? site.id).map (Entry.rename r.names) :=
    Table.find?_map r.ids (Entry.rename r.names) t.ctx.layouts site.id
  rw [Target.methodOffset, hfind, Target.methodOffset]
  cases t.ctx.layouts.find? site.id with
  | none => exact alike_throw r (.missingLayout x site.line)
  | some e =>
    show Emitter.Alike r
      (if 0 ≤ e.offset then pure e.offset
        else throw (.missingLayout (r.names x) (r.lines site.line)))
      (if 0 ≤ e.offset then pure e.offset else throw (.missingLayout x site.line))
    split
    · exact alike_pure r e.offset
    · exact alike_throw r (.missingLayout x site.line)

theorem alike_finishDispatch (c : String) (table : List Label) :
    Emitter.Alike r (finishDispatch (r.names c) table) (finishDispatch c table) := by
  refine .bind (alike_note r (.dispatchTable c table.length)) fun _ ↦
    .bind (.modify fun s ↦ ?_) fun _ ↦ alike_pure r _
  simp only [Emission.rename, Table.map_insert, id]

end Steps

mutual

/-- **The code of a declaration is the same**, and so is what it adds to the functions; the dispatch
tables are kept under other names. -/
theorem Decl.emit_alike (t : Target) : ∀ d : Decl,
    Emitter.Alike r ((d.relabel r).emit (t.rename r)) (d.emit t)
  | .var _ _ _ e => by
    simp only [Decl.relabel, Decl.emit, Expr.emit_rename]
    exact alike_labels r (e.emit t)
  | .func f => by
    simp only [Decl.relabel, Decl.emit]
    exact .bind (alike_fresh r .function) fun entry ↦
      .bind (FunDecl.emit_alike t f entry) fun _ ↦ alike_pure r _
  | .cls c => ClassDecl.emit_alike t c
termination_by structural d => d

theorem FunDecl.emit_alike (t : Target) : ∀ (f : FunDecl) (entry : Label),
    Emitter.Alike r ((f.relabel r).emit (t.rename r) entry) (f.emit t entry)
  | ⟨_, x, _, params, locals, body⟩, entry => by
    have hlocals : (Decl.relabelAll r locals).length = locals.length := by
      rw [Decl.relabelAll_eq, List.length_map]
    simp only [FunDecl.relabel, FunDecl.emit, Expr.emit_rename, hlocals, List.length_map]
    exact .bind (alike_note r (.emittingFunction x entry)) fun _ ↦
      .bind (Decl.emit_alike_all t locals) fun declared ↦
        .bind (alike_labels r (body.emit t)) fun result ↦ alike_addFunction r _
termination_by structural f => f

theorem ClassDecl.emit_alike (t : Target) : ∀ c : ClassDecl,
    Emitter.Alike r ((c.relabel r).emit (t.rename r)) (c.emit t)
  | ⟨_, x, _, _, methods⟩ => by
    simp only [ClassDecl.relabel, ClassDecl.emit]
    exact .bind (alike_inheritedDispatch r t x) fun table ↦
      .bind (FunDecl.emit_alike_methods t methods table) fun table ↦ alike_finishDispatch r x table
termination_by structural c => c

theorem Decl.emit_alike_all (t : Target) : ∀ ds : List Decl,
    Emitter.Alike r (Decl.emitAll (t.rename r) (Decl.relabelAll r ds)) (Decl.emitAll t ds)
  | [] => alike_pure r _
  | d :: ds => by
    simp only [Decl.relabelAll, Decl.emitAll]
    exact .bind (Decl.emit_alike t d) fun first ↦
      .bind (Decl.emit_alike_all t ds) fun rest ↦ alike_pure r _
termination_by structural ds => ds

theorem FunDecl.emit_alike_methods (t : Target) : ∀ (fs : List FunDecl) (table : List Label),
    Emitter.Alike r (FunDecl.emitMethods (t.rename r) table (FunDecl.relabelAll r fs))
      (FunDecl.emitMethods t table fs)
  | [], table => alike_pure r table
  | f :: fs, table => by
    simp only [FunDecl.relabelAll, FunDecl.emitMethods, FunDecl.site_relabel, FunDecl.name_relabel]
    refine .bind (alike_methodOffset r t f.site f.name) fun offset ↦
      .bind (alike_fresh r .method) fun entry ↦ .bind (FunDecl.emit_alike t f entry) fun _ ↦ ?_
    cases placeEntry? table offset entry with
    | some table => exact FunDecl.emit_alike_methods t fs table
    | none => exact alike_throw r (.missingLayout f.name f.site.line)
termination_by structural fs => fs

end

/-! ## Programs -/

theorem Program.emitMain_alike (t : Target) (p : Program) :
    Emitter.Alike r ((p.relabel r).emitMain (t.rename r)) (p.emitMain t) := by
  cases p with
  | letIn line ds e =>
    simp only [Program.relabel, Program.emitMain, Expr.emit_rename]
    exact .bind (Decl.emit_alike_all r t ds) fun declared ↦
      .bind (alike_labels r (e.emit t)) fun result ↦ alike_pure r _
  | bare e =>
    simp only [Program.relabel, Program.emitMain, Expr.emit_rename]
    exact .bind (alike_labels r (e.emit t)) fun result ↦ alike_pure r _

/-- **The code of a program is the same**, or there is none for the same reason. -/
theorem Program.emit_alike (t : Target) (p : Program) :
    Emitter.Alike r ((p.relabel r).emit (t.rename r)) (p.emit t) := by
  refine .bind (Program.emitMain_alike r t p) fun main ↦ .get_bind fun s ↦ ?_
  have hsize : (s.rename r).dispatch.size = s.dispatch.size := Table.size_map r.names id s.dispatch
  rw [hsize]
  exact Emitter.Alike.bind (alike_note r (.codeGenerated _ _ _)) (fun _ ↦ alike_pure r _) s

end ObjectLet
