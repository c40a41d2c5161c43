import ObjectLet.Proofs.Checking
import ObjectLet.Proofs.Registry
import ObjectLet.Proofs.Values

/-!
# Known types

A type is known if the classes that it refers to are registered (`Ty.Known`).  Name analysis looks
at every type that is written in a program, so if it finds no error, all types of what is in scope
are known (`Env.Known`), anywhere in the program.

* `Program.settled_nodes`: **every expression in a program is gone through where all types are
  known.**
* `Expr.Settled.known_check`: **the type of such an expression is known.**
-/

set_option autoImplicit false

namespace ObjectLet

/-! ## Types -/

/-- The classes that a type refers to are registered. -/
def Ty.Known (t : ClassTable) (ty : Ty) : Prop := ty.unknownClasses t = []

/-- The classes that a signature refers to are registered. -/
def Signature.Known (t : ClassTable) (s : Signature) : Prop := s.unknownClasses t = []

section Types

variable {t u : ClassTable} {ty : Ty} {s : Signature} {c : String}

theorem Ty.known_ref : (Ty.ref c).Known t ↔ t.contains c = true := by
  simp [Ty.Known, Ty.unknownClasses]

theorem Ty.known_arrow (h : s.Known t) : (Ty.arrow s).Known t := h

theorem Ty.known_method (h : s.Known t) : (Ty.method s).Known t := h

theorem Ty.known_cls (shape : Shape) : (Ty.cls shape).Known t := rfl

theorem Ty.unknownClassesIn_eq (t : ClassTable) (tys : List Ty) :
    Ty.unknownClassesIn t tys = tys.flatMap (Ty.unknownClasses t) := by
  induction tys with
  | nil => rfl
  | cons ty tys ih => rw [Ty.unknownClassesIn, ih, List.flatMap_cons]

theorem Signature.known_iff : s.Known t ↔ (∀ ty ∈ s.params, ty.Known t) ∧ s.ret.Known t := by
  obtain ⟨params, ret⟩ := s
  rw [Signature.Known, Signature.unknownClasses, List.append_eq_nil_iff, Ty.unknownClassesIn_eq,
    List.flatMap_eq_nil_iff]
  rfl

theorem Ty.known_of_callable? (h : ty.Known t) (hs : ty.callable? = some s) : s.Known t := by
  cases ty <;> simp only [Ty.callable?, reduceCtorEq, Option.some.injEq] at hs
  all_goals exact hs ▸ h

theorem Ty.Known.calledSignature {x : String} (hty : ty.Known t)
    (h : calledSignature x ty = .ok s) : s.Known t := by
  rw [ObjectLet.calledSignature] at h
  split at h
  · rename_i s' hs'
    exact Ty.known_of_callable? hty (Except.ok.inj h ▸ hs')
  · cases h

theorem Ty.Known.invokedSignature {x : String} (hty : ty.Known t)
    (h : invokedSignature x ty = .ok s) : s.Known t := by
  unfold ObjectLet.invokedSignature at h
  split at h
  · exact Except.ok.inj h ▸ hty
  · cases h

theorem Ty.Known.valueType {x : String} {ty' : Ty} (hty : ty.Known t)
    (h : valueType x ty = .ok ty') : ty'.Known t := by
  unfold ObjectLet.valueType at h
  split at h
  all_goals first | cases h; done | exact Except.ok.inj h ▸ hty

theorem Ty.Known.fieldType {x : String} {ty' : Ty} (hty : ty.Known t)
    (h : fieldType x ty = .ok ty') : ty'.Known t := by
  rw [ObjectLet.fieldType] at h
  split at h
  · cases h
  · exact Except.ok.inj h ▸ hty

theorem ClassTable.Within.contains (h : t.Within u) (hc : t.contains c = true) :
    u.contains c = true := by
  obtain ⟨i, hi⟩ := Option.isSome_iff_exists.1 hc
  exact Option.isSome_iff_exists.2 ⟨i, h.info hi⟩

mutual

/-- Types stay known when classes are added. -/
theorem Ty.known_of_within (h : t.Within u) : ∀ ty : Ty, ty.Known t → ty.Known u
  | .ref _, hty => Ty.known_ref.2 (h.contains (Ty.known_ref.1 hty))
  | .arrow s, hty | .method s, hty => Signature.known_of_within h s hty
  | .int, _ | .bool, _ | .null, _ | .cls _, _ => rfl
termination_by structural ty => ty

theorem Signature.known_of_within (h : t.Within u) : ∀ s : Signature, s.Known t → s.Known u
  | ⟨params, ret⟩, hs => by
    rw [Signature.known_iff] at hs ⊢
    exact ⟨Ty.known_of_within_all h params hs.1, Ty.known_of_within h ret hs.2⟩
termination_by structural s => s

theorem Ty.known_of_within_all (h : t.Within u) :
    ∀ tys : List Ty, (∀ ty ∈ tys, ty.Known t) → ∀ ty ∈ tys, ty.Known u
  | [], _ => nofun
  | ty :: tys, htys => by
    rw [List.forall_mem_cons] at htys ⊢
    exact ⟨Ty.known_of_within h ty htys.1, Ty.known_of_within_all h tys htys.2⟩
termination_by structural tys => tys

end

theorem Ty.Known.mono (hty : ty.Known t) (h : t.Within u) : ty.Known u :=
  Ty.known_of_within h ty hty

theorem Signature.Known.mono (hs : s.Known t) (h : t.Within u) : s.Known u :=
  Signature.known_of_within h s hs

end Types

/-! ## Annotations -/

section Annotations

variable {ctx : Context} {env : Env} {site : Site} {ty : Ty}

theorem known_of_written (h : Recorded ctx (env.annotation site ty)) :
    ty.Known env.classes := by
  rw [Env.annotation] at h
  cases hu : ty.unknownClasses env.classes with
  | nil => exact hu
  | cons c cs => simp [hu] at h

theorem known_of_signature {f : FunDecl} (h : Recorded ctx (env.signature f)) :
    (∀ b ∈ f.params, b.ty.Known env.classes) ∧ f.signature.Known env.classes := by
  rw [Env.signature, recorded_append, recorded_flatMap] at h
  have hparams : ∀ b ∈ f.params, b.ty.Known env.classes :=
    fun b hb ↦ known_of_written (h.1 b hb)
  refine ⟨hparams, Signature.known_iff.2 ⟨fun ty hty ↦ ?_, known_of_written h.2⟩⟩
  obtain ⟨b, hb, rfl⟩ := List.mem_map.1 hty
  exact hparams b hb

/-- In a class that is registered, its own name is known. -/
theorem known_of_writtenInside {cls : String} (hcls : env.classes.contains cls = true)
    (h : Recorded ctx (env.memberAnnotation cls site ty)) : ty.Known env.classes := by
  rw [Env.memberAnnotation] at h
  split at h
  · rename_i hty
    exact hty ▸ Ty.known_ref.2 hcls
  · exact known_of_written h

/-- The types of what a class declares itself are known.  A class may name itself in them, so this
is about the classes that are known afterwards. -/
structure ClassDecl.Known (t : ClassTable) (c : ClassDecl) : Prop where
  /-- Those of its fields. -/
  fields : ∀ b ∈ c.fields, b.ty.Known t
  /-- Those of the parameters of its methods. -/
  params : ∀ f ∈ c.methods, ∀ b ∈ f.params, b.ty.Known t
  /-- Those of its methods. -/
  methods : ∀ f ∈ c.methods, f.signature.Known t

theorem ClassDecl.Known.mono {t u : ClassTable} {c : ClassDecl} (h : c.Known t) (hw : t.Within u) :
    c.Known u :=
  ⟨fun b hb ↦ (h.fields b hb).mono hw, fun f hf b hb ↦ (h.params f hf b hb).mono hw,
    fun f hf ↦ (h.methods f hf).mono hw⟩

theorem ClassDecl.known_of_recorded {c : ClassDecl} (hcls : env.classes.contains c.name = true)
    (h : Recorded ctx (env.memberAnnotations c)) : c.Known env.classes := by
  simp only [Env.memberAnnotations, recorded_append, recorded_flatMap] at h
  have hparams : ∀ f ∈ c.methods, ∀ b ∈ f.params, b.ty.Known env.classes :=
    fun f hf b hb ↦ known_of_writtenInside hcls ((h.2 f hf).1 b hb)
  refine ⟨fun b hb ↦ known_of_writtenInside hcls (h.1 b hb), hparams, fun f hf ↦ ?_⟩
  refine Signature.known_iff.2 ⟨fun ty hty ↦ ?_, known_of_writtenInside hcls (h.2 f hf).2⟩
  obtain ⟨b, hb, rfl⟩ := List.mem_map.1 hty
  exact hparams f hf b hb

end Annotations

/-! ## Frames -/

/-- The types of all that is declared in a scope or class are known. -/
def Frame.Known (t : ClassTable) (frame : Frame) : Prop := Frame.All (fun e ↦ e.ty.Known t) frame

/-- All types in a class are known, if those of what it inherits and declares are. -/
theorem ClassLayout.known_ofDecl {t : ClassTable} {base : ClassInfo}
    (h : Frame.Known t base.members) {c : ClassDecl} (hc : c.Known t) :
    Frame.Known t (ofDecl base c).1.members :=
  all_ofDecl h (fun b hb _ ↦ hc.fields b hb) fun f hf _ ↦ Ty.known_method (hc.methods f hf)

/-! ## Environments -/

/-- All types of what is in scope, and of the members of the registered classes, are known. -/
structure Env.Known (ctx : Context) (env : Env) : Prop where
  /-- The registered classes are among those that are registered in the end. -/
  within : env.classes.Within ctx.classes
  /-- The types of what is in scope are known. -/
  scopes : ∀ frame ∈ env.scopes.frames, Frame.Known ctx.classes frame
  /-- The types of the members of the registered classes are known. -/
  members : ∀ c i, env.classes.info? c = some i → Frame.Known ctx.classes i.members

namespace Env.Known

variable {ctx : Context} {env : Env}

theorem start (classes : ClassTable) (hclasses : classes.Within ctx.classes)
    (hmembers : ∀ c i, classes.info? c = some i → Frame.Known ctx.classes i.members)
    (offset : Int) : Env.Known ctx ⟨.push .empty ∅, classes, offset⟩ :=
  ⟨hclasses, fun _ h ↦ List.mem_singleton.1 h ▸ Frame.all_empty _, hmembers⟩

theorem lookup? (h : env.Known ctx) {x : String} {e : Entry} (hx : env.scopes.lookup? x = some e) :
    e.ty.Known ctx.classes := by
  obtain ⟨frame, hframe, hx⟩ := List.exists_of_findSome?_eq_some hx
  exact h.scopes frame hframe x e hx

theorem member? (h : env.Known ctx) {c m : String} {e : Entry}
    (hm : env.classes.member? c m = some e) : e.ty.Known ctx.classes := by
  rw [ClassTable.member?, ClassTable.members?] at hm
  cases hi : env.classes.info? c with
  | none => simp [hi] at hm
  | some i => exact h.members c i hi m e (by simpa [hi] using hm)

theorem push (h : env.Known ctx) {frame : Frame} (hframe : Frame.Known ctx.classes frame)
    (offset : Int) :
    Env.Known ctx { env with scopes := env.scopes.push frame, nextOffset := offset } :=
  ⟨h.within, List.forall_mem_cons.2 ⟨hframe, h.scopes⟩, h.members⟩

theorem enter (h : env.Known ctx) : env.enter.Known ctx := h.push (Frame.all_empty _) _

theorem declare (h : env.Known ctx) {e : Entry} (he : e.ty.Known ctx.classes) (site : Site)
    (x : String) : (env.declare site x e).1.Known ctx := by
  rw [Env.declare]
  split
  · rename_i scopes hscopes
    obtain ⟨frame, rest, hframes, -, hframes'⟩ := Scopes.frames_of_declare? hscopes
    have hknown := h.scopes
    rw [hframes, List.forall_mem_cons] at hknown
    refine ⟨h.within, ?_, h.members⟩
    rw [hframes', List.forall_mem_cons]
    exact ⟨Frame.All.insert hknown.1 he x, hknown.2⟩
  · exact h

theorem declareNext (h : env.Known ctx) {ty : Ty} (hty : ty.Known ctx.classes) (site : Site)
    (x : String) : (env.declareNext site x ty).1.Known ctx :=
  let next : Env := { env with nextOffset := env.nextOffset - 1 }
  @declare ctx next ⟨h.within, h.scopes, h.members⟩ ⟨env.level, ty, env.nextOffset⟩ hty site x

theorem declareParams (h : env.Known ctx) {bs : List Binder}
    (hbs : ∀ b ∈ bs, b.ty.Known ctx.classes) (offset : Int) :
    (env.declareParams offset bs).1.Known ctx := by
  induction bs generalizing env offset with
  | nil => exact h
  | cons b bs ih =>
    rw [List.forall_mem_cons] at hbs
    exact ih (h.declare hbs.1 _ _) hbs.2 _

theorem base (h : env.Known ctx) (c : ClassDecl) :
    Frame.Known ctx.classes (env.classes.base c).members :=
  ClassTable.forall_base (P := fun i ↦ Frame.Known ctx.classes i.members) (Frame.all_empty _)
    h.members c

/-- The types of what a class without errors brings into scope are known. -/
theorem classHead (h : env.Known ctx) {c : ClassDecl}
    (hrec : Recorded ctx (env.classHead c).2.2)
    (hw : (env.classHead c).1.classes.Within ctx.classes) :
    c.Known ctx.classes ∧ (env.classHead c).1.Known ctx ∧ (env.classHead c).2.1.Known ctx := by
  have hann : Recorded ctx ((env.classHead c).1.memberAnnotations c) := by
    rw [Env.classHead_eq] at hrec ⊢
    exact (recorded_append.1 hrec).2
  obtain ⟨hlevel, -, -, hdecl, hinside⟩ := Env.classHead_of_recorded hrec
  have hclasses : (env.classHead c).1.classes = env.classes.declare c :=
    (env.classes_classHead c).2.trans (if_pos hlevel)
  have hregistered : (env.classHead c).1.classes.contains c.name = true := by
    rw [hclasses, ClassTable.contains_eq_isSome, ClassTable.info?_declare, if_pos rfl]
    cases env.classes.info? c.name <;> rfl
  have hc := (ClassDecl.known_of_recorded hregistered hann).mono hw
  have hlayout : Frame.Known ctx.classes (env.classes.layout c).members :=
    ClassLayout.known_ofDecl (h.base c) hc
  have hknown : (env.classHead c).1.Known ctx := by
    refine ⟨hw, ?_, fun x i hi ↦ ?_⟩
    · obtain ⟨frame, rest, hframes, -, hframes'⟩ := hdecl.frames_eq
      have hscopes := h.scopes
      rw [show env.scopes.frames = _ from hframes, List.forall_mem_cons] at hscopes
      rw [hframes', List.forall_mem_cons]
      exact ⟨Frame.All.insert hscopes.1 (Ty.known_cls _) _, hscopes.2⟩
    · rw [hclasses, ClassTable.info?_declare, Option.or_eq_some_iff] at hi
      rcases hi with hi | ⟨-, hi⟩
      · exact h.members x i hi
      · split at hi
        · rw [← Option.some.inj hi]
          exact hlayout
        · cases hi
  refine ⟨hc, hknown, ?_⟩
  rw [hinside]
  exact hknown.push hlayout _

end Env.Known

/-! ## Declarations -/

section Declarations

variable {ctx : Context} {env : Env}

theorem Decl.within_resolve (env : Env) (d : Decl) :
    env.classes.Within (d.resolve env).1.classes := by
  cases d with
  | var site x ty e => rw [Decl.resolve, Env.classes_declareNext]; exact .refl _
  | func f => rw [Decl.resolve, Env.classes_declareNext]; exact .refl _
  | cls c =>
    rw [Decl.resolve, ClassDecl.resolve_eq, (env.classes_classHead c).2]
    split
    · exact ClassTable.within_declare _ _
    · exact .refl _

theorem Decl.within_resolveAll (env : Env) (ds : List Decl) :
    env.classes.Within (Decl.resolveAll env ds).1.classes := by
  induction ds generalizing env with
  | nil => exact .refl _
  | cons d ds ih => exact (d.within_resolve env).trans (ih _)

theorem Env.Known.resolve (h : env.Known ctx) {d : Decl} (hrec : Recorded ctx (d.resolve env).2)
    (hw : (d.resolve env).1.classes.Within ctx.classes) : (d.resolve env).1.Known ctx := by
  cases d with
  | var site x ty e =>
    simp only [Decl.resolve, recorded_append] at hrec ⊢
    exact h.declareNext ((known_of_written hrec.1.2).mono h.within) site x
  | func f =>
    simp only [Decl.resolve, recorded_append] at hrec ⊢
    have hs := (known_of_signature hrec.1.1).2.mono h.within
    exact h.declareNext (Ty.known_arrow hs) f.site f.name
  | cls c =>
    simp only [Decl.resolve, ClassDecl.resolve_eq, recorded_append] at hrec hw ⊢
    exact (h.classHead hrec.1 hw).2.1

theorem Env.Known.resolveAll (h : env.Known ctx) {ds : List Decl}
    (hrec : Recorded ctx (Decl.resolveAll env ds).2)
    (hw : (Decl.resolveAll env ds).1.classes.Within ctx.classes) :
    (Decl.resolveAll env ds).1.Known ctx := by
  induction ds generalizing env with
  | nil => exact h
  | cons d ds ih =>
    simp only [Decl.resolveAll, recorded_append] at hrec hw ⊢
    exact ih (h.resolve hrec.1 ((Decl.within_resolveAll _ ds).trans hw)) hrec.2 hw

/-- An expression has been gone through where all types of what is in scope are known, and
everything that was found in it is known. -/
def Expr.Settled (ctx : Context) (e : Expr) : Prop :=
  ∃ env : Env, env.Known ctx ∧ Recorded ctx (e.resolve env)

/-- Name analysis settles the initial values and bodies in a declaration: if all that it finds there
is recorded and no class is lost later, every type that matters for them is known. -/
def Decl.Settles (ctx : Context) (d : Decl) : Prop :=
  ∀ env : Env, env.Known ctx → env.scopes.frames ≠ [] → Recorded ctx (d.resolve env).2 →
    (d.resolve env).1.classes.Within ctx.classes → ∀ e ∈ d.roots, e.Settled ctx

theorem Env.length_declare (env : Env) (site : Site) (x : String) (e : Entry) :
    (env.declare site x e).1.scopes.frames.length = env.scopes.frames.length := by
  rw [declare]
  split
  · rename_i scopes hscopes
    obtain ⟨frame, rest, hframes, -, hframes'⟩ := Scopes.frames_of_declare? hscopes
    rw [hframes, hframes', List.length_cons, List.length_cons]
  · rfl

theorem Env.length_declareNext (env : Env) (site : Site) (x : String) (ty : Ty) :
    (env.declareNext site x ty).1.scopes.frames.length = env.scopes.frames.length :=
  length_declare { env with nextOffset := env.nextOffset - 1 } site x _

theorem Env.frames_declareNext_ne_nil {env : Env} (h : env.scopes.frames ≠ []) (site : Site)
    (x : String) (ty : Ty) : (env.declareNext site x ty).1.scopes.frames ≠ [] := by
  rwa [← List.length_pos_iff, length_declareNext, List.length_pos_iff]

theorem Env.length_declareParams (env : Env) (offset : Int) (bs : List Binder) :
    (env.declareParams offset bs).1.scopes.frames.length = env.scopes.frames.length := by
  induction bs generalizing env offset with
  | nil => rfl
  | cons b bs ih => exact (ih _ _).trans (env.length_declare _ _ _)

theorem Env.classes_declareParams (env : Env) (offset : Int) (bs : List Binder) :
    (env.declareParams offset bs).1.classes = env.classes := by
  induction bs generalizing env offset with
  | nil => rfl
  | cons b bs ih => exact (ih _ _).trans (env.classes_declare _ _ _)

theorem Decl.length_resolve (env : Env) (d : Decl) :
    (d.resolve env).1.scopes.frames.length = env.scopes.frames.length := by
  cases d with
  | var site x ty e => exact env.length_declareNext _ _ _
  | func f => exact env.length_declareNext _ _ _
  | cls c =>
    rw [Decl.resolve, ClassDecl.resolve_eq, Env.classHead_eq, Env.declareClass]
    split
    · rw [Env.register_eq]
      exact Env.length_declareNext _ _ _ _
    · rfl

theorem Decl.frames_resolve_ne_nil {env : Env} (h : env.scopes.frames ≠ []) (d : Decl) :
    (d.resolve env).1.scopes.frames ≠ [] := by
  rwa [← List.length_pos_iff, length_resolve, List.length_pos_iff]

theorem Decl.classes_resolveAll_of_level_ne (h : env.level ≠ 0) (ds : List Decl) :
    (Decl.resolveAll env ds).1.classes = env.classes := by
  induction ds generalizing env with
  | nil => rfl
  | cons d ds ih =>
    exact (ih ((d.level_resolve env).trans_ne h)).trans
      ((d.classes_resolve_eq env).trans (if_neg h))

theorem Decl.settled_all {ds : List Decl} (ih : ∀ d ∈ ds, d.Settles ctx) (h : env.Known ctx)
    (hne : env.scopes.frames ≠ []) (hrec : Recorded ctx (Decl.resolveAll env ds).2)
    (hw : (Decl.resolveAll env ds).1.classes.Within ctx.classes) :
    ∀ e ∈ ds.flatMap Decl.roots, e.Settled ctx := by
  induction ds generalizing env with
  | nil => nofun
  | cons d ds ih' =>
    rw [List.forall_mem_cons] at ih
    simp only [Decl.resolveAll, recorded_append] at hrec hw
    have hw₁ := (Decl.within_resolveAll (d.resolve env).1 ds).trans hw
    rw [List.flatMap_cons, List.forall_mem_append]
    exact ⟨ih.1 env h hne hrec.1 hw₁,
      ih' ih.2 (h.resolve hrec.1 hw₁) (d.frames_resolve_ne_nil hne) hrec.2 hw⟩

theorem FunDecl.settled {f : FunDecl} (ih : ∀ d ∈ f.locals, d.Settles ctx) (h : env.Known ctx)
    (hne : env.scopes.frames ≠ []) (hparams : ∀ b ∈ f.params, b.ty.Known ctx.classes)
    (hrec : Recorded ctx (f.resolveBody env)) : ∀ e ∈ f.roots, e.Settled ctx := by
  rw [FunDecl.resolveBody_eq, recorded_append, recorded_append] at hrec
  have hinside := h.enter.declareParams hparams firstParamOffset
  have hlength := Env.length_declareParams env.enter firstParamOffset f.params
  have hclasses := Env.classes_declareParams env.enter firstParamOffset f.params
  generalize (env.enter.declareParams firstParamOffset f.params).1 = inside at *
  have henter : inside.scopes.frames.length = env.scopes.frames.length + 1 := hlength
  have hpos := List.length_pos_iff.2 hne
  have hlevel : inside.level ≠ 0 := by
    rw [Env.level, Scopes.nestingLevel]
    omega
  have hw : (Decl.resolveAll inside f.locals).1.classes.Within ctx.classes := by
    rw [Decl.classes_resolveAll_of_level_ne hlevel, hclasses]
    exact h.within
  rw [FunDecl.roots_eq, List.forall_mem_append, List.forall_mem_singleton]
  exact ⟨Decl.settled_all ih hinside (List.length_pos_iff.1 (by omega)) hrec.1.2 hw,
    _, hinside.resolveAll hrec.1.2 hw, hrec.2⟩

/-- **Name analysis settles all initial values and bodies in a declaration**, if it finds no error
there. -/
theorem Decl.settles (d : Decl) : d.Settles ctx := by
  induction d using Decl.induction with
  | var site x ty e =>
    intro env h hne hrec hw
    simp only [Decl.resolve, recorded_append] at hrec
    rw [Decl.roots, List.forall_mem_singleton]
    exact ⟨env, h, hrec.1.1⟩
  | func f ih =>
    intro env h hne hrec hw
    simp only [Decl.resolve, recorded_append] at hrec
    obtain ⟨hparams, hs⟩ := known_of_signature hrec.1.1
    rw [Decl.roots]
    exact FunDecl.settled ih (h.declareNext (Ty.known_arrow (hs.mono h.within)) f.site f.name)
      (Env.frames_declareNext_ne_nil hne _ _ _) (fun b hb ↦ (hparams b hb).mono h.within) hrec.2
  | cls c ih =>
    intro env h hne hrec hw
    simp only [Decl.resolve, ClassDecl.resolve_eq, recorded_append] at hrec hw
    obtain ⟨hc, -, hinside⟩ := h.classHead hrec.1 hw
    intro e he
    rw [Decl.roots, ClassDecl.roots_eq, List.mem_flatMap] at he
    obtain ⟨f, hf, he⟩ := he
    refine FunDecl.settled (ih f hf) hinside ?_ (hc.params f hf)
      (recorded_resolveBodies hrec.2 f hf) e he
    rw [Env.classHead_eq]
    exact List.cons_ne_nil _ _

end Declarations

/-! ## Expressions -/

section Expressions

variable {ctx : Context} {env : Env}

theorem Expr.Settled.parts {e : Expr} (h : e.Settled ctx) : ∀ d ∈ e.parts, d.Settled ctx := by
  obtain ⟨env, hknown, hrec⟩ := h
  exact fun d hd ↦ ⟨env, hknown, Expr.recorded_parts hrec d hd⟩

/-- The superclass of a registered class is registered, so that a way up never leaves the table. -/
def ClassTable.Upward (t : ClassTable) : Prop :=
  ∀ c s, t.contains c = true → t.superclass? c = some s → t.contains s = true

theorem ClassTable.upward_declareAll (cs : List ClassDecl) : (empty.declareAll cs).Upward := by
  intro c s hc hs
  obtain ⟨i, hi⟩ := Option.isSome_iff_exists.1 hc
  obtain ⟨d, -, rfl, base, hstands⟩ := exists_stands hi
  exact Option.isSome_iff_exists.2 ⟨base, (hstands.base_of_superclass? hs).2⟩

theorem ClassTable.Below.contains {t : ClassTable} {c d : String} (h : t.Below c d)
    (hup : t.Upward) (hc : t.contains c = true) : t.contains d = true := by
  induction h with
  | refl c => exact hc
  | up hs _ ih => exact ih (hup _ _ hc hs)

theorem Ty.known_of_commonAncestor? {t : ClassTable} (hup : t.Upward) {u v w : Ty}
    (hu : u.Known t) (hv : v.Known t)
    (h : Ty.commonAncestor? t.hierarchy u v = some w) : w.Known t := by
  unfold Ty.commonAncestor? at h
  split at h
  · exact Option.some.inj h ▸ hu
  · exact Option.some.inj h ▸ hv
  · exact Option.some.inj h ▸ hu
  · rename_i c d
    obtain ⟨x, hx, rfl⟩ := List.mem_map.1 (List.mem_of_find?_eq_some h)
    have hbelow : t.Below c x := .of_mem_ancestors hx
    exact Ty.known_ref.2 (hbelow.contains hup (Ty.known_ref.1 hu))
  all_goals first | exact Option.some.inj h ▸ rfl | cases h

open Checked

theorem Context.known_of_condType (hup : ctx.classes.Upward) {u v w : Ty}
    (hu : u.Known ctx.classes) (hv : v.Known ctx.classes) (h : ctx.condType u v = .ok w) :
    w.Known ctx.classes := by
  rw [Context.condType] at h
  split at h
  · exact Except.ok.inj h ▸ hv
  · split at h
    · exact Except.ok.inj h ▸ hu
    · split at h
      · rename_i x hx
        exact Except.ok.inj h ▸ Ty.known_of_commonAncestor? hup hu hv hx
      · cases h

/-- Operators give integers and booleans, which are known in any case. -/
theorem Context.known_of_operator {t u : Ty} :
    (∀ op w, ctx.arithType op t u = .ok w → w.Known ctx.classes) ∧
    (∀ op w, ctx.compareType op t u = .ok w → w.Known ctx.classes) ∧
    (∀ op w, ctx.logicType op t u = .ok w → w.Known ctx.classes) ∧
    ∀ w, ctx.notType t = .ok w → w.Known ctx.classes := by
  simp only [Context.arithType, Context.compareType, Context.logicType, Context.notType]
  refine ⟨fun op w h ↦ ?_, fun op w h ↦ ?_, fun op w h ↦ ?_, fun w h ↦ ?_⟩
  all_goals
    split at h
    · exact Except.ok.inj h ▸ rfl
    · cases h

/-- What a name in an expression refers to is in scope, and its type is known. -/
theorem Env.Known.resolution (hknown : env.Known ctx) {site : Site} {x : String}
    (hrec : Recorded ctx (env.useName site x)) {r : Resolution}
    (hr : (ctx.resolution site).result = .ok r) : r.entry.ty.Known ctx.classes := by
  obtain ⟨e, he, hfound⟩ := recorded_useName hrec
  rw [Context.resolution, result_resolved, hfound] at hr
  exact Option.some.inj hr ▸ hknown.lookup? he

/-- The member of an object belongs to a registered class, and its type is known. -/
theorem Env.Known.member (hknown : env.Known ctx) {site : Site} {x m : String}
    (hrec : Recorded ctx (env.useMember site x m)) {u : Unit} {e : Entry}
    (hu : (ctx.checkReceiver site x).result = .ok u) (he : (ctx.member site).result = .ok e) :
    e.ty.Known ctx.classes := by
  obtain ⟨_, _, e', -, -, -, he', hfound⟩ := recorded_receiver hrec hu
  rw [Context.member, result_resolved, hfound] at he
  exact Option.some.inj he ▸ hknown.member? he'

/-- **The type of an expression is known**, if those of what is in scope are.  A choice between two
classes gets the type of a third one, which is above both and therefore known, too. -/
theorem Expr.Settled.known_check (hup : ctx.classes.Upward) {e : Expr} (hset : e.Settled ctx)
    {ty : Ty} (h : (e.check ctx).result = .ok ty) : ty.Known ctx.classes := by
  induction e using Expr.parts_induction generalizing ty with
  | step e ih =>
    have hparts : ∀ d ∈ e.parts, ∀ u, (d.check ctx).result = .ok u → u.Known ctx.classes :=
      fun d hd u hu ↦ ih d hd (hset.parts d hd) hu
    obtain ⟨env, hknown, hrec⟩ := hset
    cases e with
    | int site v | bool site v | null site => exact Except.ok.inj h ▸ rfl
    | arith site op l r =>
      obtain ⟨t, -, h⟩ := result_bind.1 h
      obtain ⟨u, -, h⟩ := result_bind.1 h
      exact Context.known_of_operator.1 op ty (result_judge.1 h)
    | compare site op l r =>
      obtain ⟨t, -, h⟩ := result_bind.1 h
      obtain ⟨u, -, h⟩ := result_bind.1 h
      exact Context.known_of_operator.2.1 op ty (result_judge.1 h)
    | logic site op l r =>
      obtain ⟨t, -, h⟩ := result_bind.1 h
      obtain ⟨u, -, h⟩ := result_bind.1 h
      exact Context.known_of_operator.2.2.1 op ty (result_judge.1 h)
    | not site e =>
      obtain ⟨t, -, h⟩ := result_bind.1 h
      exact (Context.known_of_operator (u := t)).2.2.2 ty (result_judge.1 h)
    | print site e =>
      obtain ⟨t, ht, h⟩ := result_bind.1 h
      exact Except.ok.inj h ▸ hparts e (by simp [Expr.parts]) t ht
    | cond site c a b =>
      obtain ⟨s, -, h⟩ := result_bind.1 h
      obtain ⟨v, -, h⟩ := result_bind.1 h
      obtain ⟨t, ht, h⟩ := result_bind.1 h
      obtain ⟨u, hu, h⟩ := result_bind.1 h
      exact Context.known_of_condType hup (hparts a (by simp [Expr.parts]) t ht)
        (hparts b (by simp [Expr.parts]) u hu) (result_judge.1 h)
    | ident site x =>
      obtain ⟨r, hr, h⟩ := result_bind.1 h
      exact (hknown.resolution hrec hr).valueType (result_judge.1 h)
    | field site x f =>
      obtain ⟨u, hu, h⟩ := result_bind.1 h
      obtain ⟨m, hm, h⟩ := result_bind.1 h
      exact (hknown.member hrec hu hm).fieldType (result_judge.1 h)
    | call site f args =>
      obtain ⟨r, hr, h⟩ := result_bind.1 h
      obtain ⟨s, hs, h⟩ := result_bind.1 h
      obtain ⟨-, -, h⟩ := result_bind.1 h
      obtain ⟨-, -, h⟩ := result_bind.1 h
      rw [Expr.resolve, recorded_append] at hrec
      have hsig := (hknown.resolution hrec.1 hr).calledSignature (result_signature.1 hs)
      exact Except.ok.inj h ▸ (Signature.known_iff.1 hsig).2
    | invoke site x m args =>
      obtain ⟨u, hu, h⟩ := result_bind.1 h
      obtain ⟨e, he, h⟩ := result_bind.1 h
      obtain ⟨s, hs, h⟩ := result_bind.1 h
      obtain ⟨-, -, h⟩ := result_bind.1 h
      obtain ⟨-, -, h⟩ := result_bind.1 h
      rw [Expr.resolve, recorded_append] at hrec
      have hsig := (hknown.member hrec.1 hu he).invokedSignature (result_signature.1 hs)
      exact Except.ok.inj h ▸ (Signature.known_iff.1 hsig).2
    | new site c args =>
      obtain ⟨s, hs, h⟩ := result_bind.1 h
      obtain ⟨-, -, h⟩ := result_bind.1 h
      obtain ⟨-, -, h⟩ := result_bind.1 h
      rw [Context.constructor] at hs
      obtain ⟨r, -, hs⟩ := result_bind.1 hs
      obtain ⟨shape, hshape, hs⟩ := result_bind.1 hs
      rw [← Except.ok.inj h, ← Except.ok.inj hs]
      rw [result_resolved, ClassTable.shape?, Option.map_eq_some_iff] at hshape
      obtain ⟨i, hi, -⟩ := hshape
      exact Ty.known_ref.2 (Option.isSome_iff_exists.2 ⟨i, hi⟩)

end Expressions

/-! ## Programs -/

/-- **Name analysis settles all expressions in a program**, if it finds no error.  Unknown class
names in declared types are errors, so there are none in scope. -/
theorem Program.settled_nodes {ctx : Context} {p : Program}
    (hrec : Recorded ctx (p.resolve .empty).2) (hclasses : ctx.classes = (p.resolve .empty).1) :
    ∀ u ∈ p.nodes, u.Settled ctx := by
  have hnone : ∀ {c i}, ClassTable.empty.info? c ≠ some i := fun h ↦ by cases h
  have hempty : ClassTable.empty.Within ctx.classes := fun _ _ h ↦ absurd h hnone
  have hroots : ∀ e ∈ p.roots, e.Settled ctx := by
    cases p with
    | letIn line ds body =>
      simp only [Program.resolve, recorded_append] at hrec hclasses
      have hstart := Env.Known.start .empty hempty (fun _ _ h ↦ absurd h hnone) firstDeclOffset
      have hw : (Decl.resolveAll ⟨.push .empty ∅, .empty, firstDeclOffset⟩ ds).1.classes.Within
          ctx.classes := hclasses ▸ .refl _
      rw [Program.roots, List.forall_mem_append, List.forall_mem_singleton]
      exact ⟨Decl.settled_all (fun d _ ↦ d.settles) hstart (List.cons_ne_nil _ _) hrec.1 hw,
        _, hstart.resolveAll hrec.1 hw, hrec.2⟩
    | bare body =>
      rw [Program.roots, List.forall_mem_append, List.forall_mem_singleton]
      exact ⟨fun _ h ↦ absurd h List.not_mem_nil, ⟨.empty, .empty, firstDeclOffset⟩,
        ⟨hempty, fun _ h ↦ absurd h List.not_mem_nil, fun _ _ h ↦ absurd h hnone⟩, hrec⟩
  intro u hu
  obtain ⟨e, he, hu⟩ := List.mem_flatMap.1 hu
  exact Expr.forall_nodes (fun e he ↦ he.parts) (hroots e he) u hu

end ObjectLet
