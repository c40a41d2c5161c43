import ObjectLet.Proofs.Compiling
import ObjectLet.Proofs.Pieces
import ObjectLet.Proofs.Values

/-!
# Scopes at run time

A name is looked up in three ways: name analysis finds an entry in an `Env`, the evaluator finds a
binding in some `Bindings`, and the machine follows links from the current frame and loads what lies
at an offset.  `Setting.Scoped` relates the three.  It is built up as the scopes are: the global
declarations one after the other (`Setting.Globals`), the members of an object around its methods,
and a frame for each function with its parameters and local declarations.

* `Setting.ObjectAt` says what lies on the heap for an object: its fields, and the dispatch table of
  its class, in which the entries of its methods are found.
* `Setting.Globals.find`, `Setting.Scoped.find`: **what name analysis has found for a name is what
  the evaluator finds, and it is kept where the code looks for it**.

All of this stays true when stack and heap grow (`Setting.Scoped.mono`).
-/

set_option autoImplicit false

namespace ObjectLet

open Table (insertIn insertAll lookupIn)

/-! ## The setting -/

/-- An accepted program and what it is compiled to.  All that follows is about one such
program in one machine. -/
structure Setting where
  /-- What is known about the program. -/
  ctx : Context
  /-- What code is emitted for. -/
  target : Target
  /-- The program in its machine. -/
  image : Image
  /-- Its code. -/
  code : Bytecode
  /-- What has been emitted apart from the main code. -/
  emission : Emission
  /-- The classes, newest first. -/
  classes : List ClassDecl
  /-- Code is emitted for what is known. -/
  knows : target.Knows ctx
  /-- Global declarations are counted from the top of the memory. -/
  base_eq : target.base = Int32.ofInt image.top
  /-- The program and the memory can be addressed. -/
  sized : image.Sized code
  /-- The functions are part of the program. -/
  functions : ∃ a, CodeAt image.prog a emission.functions
  /-- The classes are laid out as they are declared. -/
  laid : Classes ctx ctx.classes classes
  /-- The offsets of fields can be written as words. -/
  narrow : ∀ c i, ctx.classes.info? c = some i → i.shape.fields.length < 2 ^ 31

/-- The part of the memory that does not go away: the global declarations so far, and the heap with
the objects on it. -/
structure Space where
  /-- The cells of the global declarations. -/
  globals : List Int32
  /-- The cells of the heap. -/
  heap : List Int32
  /-- The objects. -/
  objects : Int32 → Option Object

/-- There is more in one space than in another one.  Nothing that was there has changed, so what was
found there once is found again. -/
structure Space.Within (w w' : Space) : Prop where
  /-- More global declarations. -/
  globals : w.globals <:+ w'.globals
  /-- A longer heap. -/
  heap : w.heap <+: w'.heap
  /-- More objects. -/
  objects : ∀ v o, w.objects v = some o → w'.objects v = some o

theorem Space.Within.refl (w : Space) : w.Within w :=
  ⟨List.suffix_rfl, List.prefix_rfl, fun _ _ h ↦ h⟩

theorem Space.Within.trans {w w' w'' : Space} (h : w.Within w') (h' : w'.Within w'') :
    w.Within w'' :=
  ⟨h.globals.trans h'.globals, h.heap.trans h'.heap, fun v o ho ↦
    h'.objects v o (h.objects v o ho)⟩

namespace Setting

variable {S : Setting} {w w' : Space} {env env' : Env} {L : Layer} {x : String} {ty : Ty}
  {v : Int32} {f : FunDecl} {c : ClassDecl} {l : Label}

/-- What a word loaded from a global address or from the heap is. -/
def Kept (S : Setting) (w : Space) (a v : Int32) : Prop := S.image.Loads w.globals w.heap a v

theorem Kept.mono {a : Int32} (h : S.Kept w a v) (hw : w.Within w') : S.Kept w' a v :=
  Image.Loads.mono h hw.globals hw.heap

/-- A global address or one of the heap is as good when there is more on the stack. -/
theorem Kept.loads {a : Int32} {st : List Int32} (h : S.Kept w a v) (hst : w.globals <:+ st) :
    S.image.Loads st w.heap a v :=
  Image.Loads.mono h hst List.prefix_rfl

/-- A value has a type, as far as the objects in a space are concerned. -/
def Typed (S : Setting) (w : Space) (v : Int32) (ty : Ty) : Prop :=
  HasType S.ctx.classes w.objects v ty

theorem Typed.mono (h : S.Typed w v ty) (hw : w.Within w') : S.Typed w' v ty :=
  HasType.mono h hw.objects

theorem Typed.subtype {u : Ty} (h : S.Typed w v ty) (hs : S.ctx.subtype ty u = true) :
    S.Typed w v u :=
  HasType.subtype h hs

/-- A function has been accepted in an environment, and emitted with an entry.  This says nothing
about any state of the machine. -/
structure Func (S : Setting) (env : Env) (f : FunDecl) (l : Label) : Prop where
  /-- There is a scope around it. -/
  frames : env.scopes.frames ≠ []
  /-- What name analysis has found in it is known. -/
  recorded : Recorded S.ctx (f.resolveBody env)
  /-- Type checking has found no error in it. -/
  checked : typeErrors (f.check S.ctx).remarks = []
  /-- The classes around it are known. -/
  within : env.classes.Within S.ctx.classes
  /-- Its code is part of the program. -/
  emitted : EmittedAs S.target S.emission f l

/-! ## Global declarations -/

/-- The dispatch table of a class lies on the heap, with the addresses of its entries
one after the other. -/
structure TableAt (S : Setting) (w : Space) (c : ClassDecl) (older : List ClassDecl)
    (p : Int32) : Prop where
  /-- It has the entries of the class. -/
  entries : ∃ entries, EntriesOf S.target S.emission (c :: older) c.name entries ∧
    ∀ i l, (entries.map Prod.snd)[i]? = some l → S.Kept w (p + Int32.ofNat i) (S.image.entry l)

/-- The global declarations up to some point: how name analysis sees them, what they are bound to,
and where they are kept. -/
inductive Globals (S : Setting) (w : Space) : Env → Layer → Prop
  /-- There is nothing. -/
  | nil : S.Globals w ⟨.push .empty ∅, .empty, firstDeclOffset⟩ []
  /-- A variable. -/
  | var {env env' : Env} {L : Layer} {x : String} {ty : Ty} {v : Int32} (older : S.Globals w env L)
      (declares : env.Declares x ty env')
      (kept : S.Kept w (S.target.base + Int32.ofInt env.nextOffset) v) (typed : S.Typed w v ty) :
      S.Globals w env' ((x, .value v) :: L)
  /-- A function. -/
  | func {env env' : Env} {L : Layer} {f : FunDecl} {l : Label} (older : S.Globals w env L)
      (declares : env.Declares f.name (.arrow f.signature) env')
      (kept : S.Kept w (S.target.base + Int32.ofInt env.nextOffset) (S.image.entry l))
      (func : S.Func env' f l) : S.Globals w env' ((f.name, .func f) :: L)
  /-- A class. -/
  | cls {env : Env} {L : Layer} {c : ClassDecl} {p : Int32} (older : S.Globals w env L)
      (accepts : env.Accepts S.ctx c) (dispatched : c.Dispatched (S.ctx.inheritedMembers c))
      (kept : S.Kept w (S.target.base + Int32.ofInt env.nextOffset) p)
      (table : S.TableAt w c L.classes p) : S.Globals w (c.resolve env).1 ((c.name, .cls c) :: L)

theorem TableAt.mono {older : List ClassDecl} {p : Int32} (h : S.TableAt w c older p)
    (hw : w.Within w') : S.TableAt w' c older p := by
  obtain ⟨entries, he, hcells⟩ := h.entries
  exact ⟨entries, he, fun i l hl ↦ (hcells i l hl).mono hw⟩

namespace Globals

theorem mono (h : S.Globals w env L) (hw : w.Within w') : S.Globals w' env L := by
  induction h with
  | nil => exact .nil
  | var _ declares kept typed ih => exact .var ih declares (kept.mono hw) (typed.mono hw)
  | func _ declares kept func ih => exact .func ih declares (kept.mono hw) func
  | cls _ accepts dispatched kept table ih =>
    exact .cls ih accepts dispatched (kept.mono hw) (table.mono hw)

/-- The global scope is the only one, and the classes are registered. -/
theorem global (h : S.Globals w env L) : env.Global S.ctx L.classes := by
  induction h with
  | nil => exact .start S.ctx
  | var _ declares _ _ ih => exact ⟨ih.top.declares declares, declares.classes_eq ▸ ih.classes⟩
  | func _ declares _ _ ih => exact ⟨ih.top.declares declares, declares.classes_eq ▸ ih.classes⟩
  | cls _ accepts dispatched _ _ ih =>
    rw [Env.Accepts.resolve_fst]
    have hbase := accepts.base_members ih
    exact ih.extend accepts.head (accepts.sound ih) (hbase ▸ dispatched)

theorem within (h : S.Globals w env L) : env.classes.Within S.ctx.classes := by
  induction h with
  | nil => exact fun _ _ h ↦ nomatch h
  | var _ declares _ _ ih => exact declares.classes_eq ▸ ih
  | func _ declares _ _ ih => exact declares.classes_eq ▸ ih
  | cls _ accepts _ _ _ _ => exact accepts.within

/-- The offsets of global declarations are used up one after the other. -/
theorem nextOffset_eq (h : S.Globals w env L) : env.nextOffset = -(L.length : Int) - 2 := by
  induction h with
  | nil => rfl
  | var _ declares _ _ ih =>
    rw [declares.nextOffset_eq, ih, List.length_cons]
    omega
  | func _ declares _ _ ih =>
    rw [declares.nextOffset_eq, ih, List.length_cons]
    omega
  | cls _ accepts _ _ _ ih =>
    obtain ⟨-, -, -, hd, -⟩ := Env.classHead_of_recorded accepts.head
    rw [Env.Accepts.resolve_fst, hd.nextOffset_eq, List.length_cons]
    simp only [ih]
    omega

end Globals

/-! ## Objects -/

/-- The global declarations around the methods of a class, as they were when the class was declared.
Later ones are not visible in its methods. -/
structure Home (S : Setting) (w : Space) (env : Env) (cls : String) (info : ClassInfo)
    (home : Layer) : Prop where
  /-- They are in place. -/
  globals : S.Globals w env home
  /-- The class is known. -/
  known : S.ctx.classes.info? cls = some info
  /-- The members that the evaluator finds are those that have been laid out. -/
  laid : ∃ fields methods, Laid info fields methods ∧
    home.fieldNames cls = fields.map Prod.fst ∧ home.methodNames cls = methods.map Prod.fst

/-- A method of an object, with its entry.  The scopes around its body are that of its own members
and the global one, whatever the class of the object. -/
structure MethodAt (S : Setting) (w : Space) (o : Object) (m : Method) (l : Label) : Prop where
  /-- It has been accepted and emitted in the scope of its class. -/
  func : ∃ env outer info, S.Home w outer m.cls info m.home ∧
    env.scopes = outer.scopes.push info.members ∧ S.Func env m.decl l
  /-- The class is that of the object or comes above it. -/
  below : S.ctx.classes.Below o.cls m.cls

/-- What is found for a member of an object.  The offset tells which it is: fields lie below the
object, methods are counted from 0. -/
inductive MemberAt (S : Setting) (w : Space) (v : Int32) (o : Object) (x : String) (e : Entry) :
    Prop
  /-- A field lies below the object. -/
  | field {u : Int32} (neg : e.offset < 0) (value : o.field? x = some u)
      (kept : S.Kept w (v + Int32.ofInt e.offset) u) (typed : S.Typed w u e.ty)
  /-- A method is entered in the dispatch table. -/
  | method {p : Int32} {l : Label} {m : Method} (nonneg : 0 ≤ e.offset)
      (ty : e.ty = .method m.decl.signature) (table : S.Kept w v p)
      (kept : S.Kept w (p + Int32.ofInt e.offset) (S.image.entry l))
      (found : o.home.method? x o.cls = some m) (method : S.MethodAt w o m l)

/-- What lies on the heap for an object.  Its class decides what is there, not the class that it
is referred to by. -/
structure ObjectAt (S : Setting) (w : Space) (v : Int32) (o : Object) : Prop where
  /-- It has an address on the heap. -/
  address : ∃ a, a < w.heap.length ∧ v = Int32.ofNat a
  /-- All members of its class are there. -/
  members : ∃ i, S.ctx.classes.info? o.cls = some i ∧
    ∀ x e, i.members.find? x = some e → S.MemberAt w v o x e

section Mono

variable {o : Object} {info : ClassInfo} {cls : String} {m : Method} {e : Entry}

theorem Home.mono (h : S.Home w env cls info L) (hw : w.Within w') : S.Home w' env cls info L :=
  ⟨h.globals.mono hw, h.known, h.laid⟩

theorem MethodAt.mono (h : S.MethodAt w o m l) (hw : w.Within w') : S.MethodAt w' o m l := by
  obtain ⟨env, outer, info, hhome, hscopes, hfunc⟩ := h.func
  exact ⟨⟨env, outer, info, hhome.mono hw, hscopes, hfunc⟩, h.below⟩

theorem MemberAt.mono (h : S.MemberAt w v o x e) (hw : w.Within w') : S.MemberAt w' v o x e := by
  cases h with
  | field neg value kept typed => exact .field neg value (kept.mono hw) (typed.mono hw)
  | method nonneg ty table kept found method =>
    exact .method nonneg ty (table.mono hw) (kept.mono hw) found (method.mono hw)

theorem ObjectAt.mono (h : S.ObjectAt w v o) (hw : w.Within w') : S.ObjectAt w' v o := by
  obtain ⟨a, ha, hv⟩ := h.address
  obtain ⟨i, hi, hmembers⟩ := h.members
  exact ⟨⟨a, Nat.lt_of_lt_of_le ha hw.heap.length_le, hv⟩, i, hi, fun x e he ↦
    (hmembers x e he).mono hw⟩

/-- A member of a class above that of the object. -/
theorem ObjectAt.member (h : S.ObjectAt w v o) (hb : S.ctx.classes.Below o.cls cls)
    (hi : S.ctx.classes.info? cls = some info) (he : info.members.find? x = some e) :
    ∃ e', S.MemberAt w v o x e' ∧ e'.offset = e.offset ∧ e'.ty.Stands S.ctx e.ty := by
  obtain ⟨i, hi', hmembers⟩ := h.members
  obtain ⟨j, hj, hall⟩ := S.laid.members_below hb hi'
  obtain rfl := Option.some.inj (hi.symm.trans hj)
  obtain ⟨e', he', hoffset, hstands⟩ := hall x e he
  exact ⟨e', hmembers x e' he', hoffset, hstands⟩

end Mono

/-! ## Scopes -/

/-- How what is in scope at a point of the program is found at run time, from the address of the
innermost frame. -/
inductive Scoped (S : Setting) (w : Space) (st : List Int32) : Env → Bindings → Int32 → Prop
  /-- There is no scope. -/
  | bare {env : Env} {a : Int32} (h : env.scopes.frames = []) : S.Scoped w st env [] a
  /-- The global scope. -/
  | globals {env : Env} {L : Layer} (h : S.Globals w env L) : S.Scoped w st env [L] S.target.base
  /-- The members of an object. -/
  | members {env outer : Env} {home : Layer} {cls : String} {info : ClassInfo} {v : Int32}
      {o : Object} (h : S.Home w outer cls info home)
      (scopes : env.scopes = outer.scopes.push info.members) (object : S.ObjectAt w v o)
      (below : S.ctx.classes.Below o.cls cls) (known : w.objects v = some o) :
      S.Scoped w st env [o.members v cls home, home] v
  /-- The frame of a function, at first without any declarations. -/
  | enter {env : Env} {ρ : Bindings} {a : Int32} {above below : List Int32}
      (outer : S.Scoped w st env ρ a) (inner : ρ ≠ []) (link : st = above ++ a :: below) :
      S.Scoped w st env.enter ([] :: ρ) (S.image.sp (a :: below))
  /-- A parameter or a variable in the frame of a function. -/
  | value {env env' : Env} {l : Layer} {ρ : Bindings} {a v : Int32} {x : String} {ty : Ty}
      {offset : Int} (older : S.Scoped w st env (l :: ρ) a) (inner : ρ ≠ [])
      (declare : env.scopes.declare? x ⟨env.level, ty, offset⟩ = some env'.scopes)
      (kept : S.image.Loads st w.heap (a + Int32.ofInt offset) v) (typed : S.Typed w v ty) :
      S.Scoped w st env' (((x, .value v) :: l) :: ρ) a
  /-- A function in the frame of a function. -/
  | func {env env' : Env} {L : Layer} {ρ : Bindings} {a : Int32} {f : FunDecl} {l : Label}
      {offset : Int} (older : S.Scoped w st env (L :: ρ) a) (inner : ρ ≠ [])
      (declare : env.scopes.declare? f.name ⟨env.level, .arrow f.signature, offset⟩
        = some env'.scopes)
      (kept : S.image.Loads st w.heap (a + Int32.ofInt offset) (S.image.entry l))
      (func : S.Func env' f l) : S.Scoped w st env' (((f.name, .func f) :: L) :: ρ) a

/-- What is found where an entry says, from the frame of the scope that has the entry. -/
inductive Binds (S : Setting) (w : Space) (st : List Int32) (x : String) (a : Int32) (e : Entry) :
    Binding → Bindings → Prop
  /-- A value. -/
  | value {v : Int32} {ρ : Bindings}
      (kept : S.image.Loads st w.heap (a + Int32.ofInt e.offset) v) (typed : S.Typed w v e.ty) :
      S.Binds w st x a e (.value v) ρ
  /-- A function. -/
  | func {f : FunDecl} {l : Label} {env : Env} {ρ : Bindings} (ty : e.ty = .arrow f.signature)
      (kept : S.image.Loads st w.heap (a + Int32.ofInt e.offset) (S.image.entry l))
      (func : S.Func env f l) (scope : S.Scoped w st env ρ a) : S.Binds w st x a e (.func f) ρ
  /-- A class. -/
  | cls {c : ClassDecl} {env : Env} {L : Layer} {p : Int32} (older : S.Globals w env L)
      (home : S.Globals w (c.resolve env).1 ((c.name, .cls c) :: L))
      (accepts : env.Accepts S.ctx c) (ty : e.ty = .cls (env.classes.layout c).shape)
      (kept : S.image.Loads st w.heap (a + Int32.ofInt e.offset) p)
      (table : S.TableAt w c L.classes p) : S.Binds w st x a e (.cls c) [(c.name, .cls c) :: L]
  /-- A method of the object whose members are in scope. -/
  | method {o : Object} {e' : Entry} {s : Signature} {ρ : Bindings} (ty : e.ty = .method s)
      (object : w.objects a = some o) (at' : S.ObjectAt w a o) (member : S.MemberAt w a o x e')
      (nonneg : 0 ≤ e.offset)
      (offset : e'.offset = e.offset) (stands : e'.ty.Stands S.ctx e.ty) :
      S.Binds w st x a e (.method a) ρ

section Find

variable {st st' : List Int32} {ρ : Bindings} {a : Int32} {e : Entry} {b : Binding}

theorem Scoped.mono (h : S.Scoped w st env ρ a) (hw : w.Within w') (hs : st <:+ st') :
    S.Scoped w' st' env ρ a := by
  induction h with
  | bare h => exact .bare h
  | globals h => exact .globals (h.mono hw)
  | members h scopes object below known =>
    exact .members (h.mono hw) scopes (object.mono hw) below (hw.objects _ _ known)
  | @enter env ρ a above below _ inner link ih =>
    obtain ⟨more, rfl⟩ := hs
    have link' : more ++ st = (more ++ above) ++ a :: below := by rw [link, List.append_assoc]
    exact .enter ih inner link'
  | value _ inner declare kept typed ih =>
    exact .value ih inner declare (kept.mono hs hw.heap) (typed.mono hw)
  | func _ inner declare kept func ih => exact .func ih inner declare (kept.mono hs hw.heap) func

/-- There are as many scopes as layers of bindings. -/
theorem Scoped.length_frames (h : S.Scoped w st env ρ a) :
    env.scopes.frames.length = ρ.length := by
  induction h with
  | bare h => exact congrArg List.length h
  | globals h =>
    obtain ⟨frame, hframe, -⟩ := h.global.top.scope
    rw [hframe]
    rfl
  | members h scopes object below known =>
    obtain ⟨frame, hframe, -⟩ := h.globals.global.top.scope
    rw [scopes, Scopes.push, hframe]
    rfl
  | enter _ inner link ih => exact congrArg (· + 1) ih
  | value _ inner declare kept typed ih =>
    obtain ⟨frame, rest, hf, -, hf'⟩ := Scopes.frames_of_declare? declare
    rw [hf'] at *
    rw [hf] at ih
    exact ih
  | func _ inner declare kept func ih =>
    obtain ⟨frame, rest, hf, -, hf'⟩ := Scopes.frames_of_declare? declare
    rw [hf']
    rw [hf] at ih
    exact ih

theorem Scoped.level_eq (h : S.Scoped w st env ρ a) : env.level = ρ.length - 1 := by
  rw [Env.level, Scopes.nestingLevel, h.length_frames]

theorem lookup?_of_declare? {s t : Scopes} {y : String} (h : s.declare? y e = some t) (x : String) :
    t.lookup? x = if y = x then some e else s.lookup? x := by
  obtain ⟨frame, rest, hs, -, ht⟩ := Scopes.frames_of_declare? h
  simp only [Scopes.lookup?, hs, ht, List.findSome?_cons, Table.find?_insert]
  by_cases hy : y = x
  · simp [hy]
  · simp [hy]

/-- A global declaration is found under its name, and everything else as it was before. -/
theorem find_declared {s : Scopes} {y : String} {e₀ : Entry} {c : Binding}
    (declare : env.scopes.declare? y e₀ = some s) (hlevel : e₀.level = 0)
    (new : S.Binds w st y S.target.base e₀ c [(y, c) :: L])
    (older : env.scopes.lookup? x = some e → ∃ b L', L.bound? x = some (b, L') ∧
      e.level = 0 ∧ S.Binds w st x S.target.base e b [L'])
    (he : s.lookup? x = some e) :
    ∃ b L', Layer.bound? x ((y, c) :: L) = some (b, L') ∧ e.level = 0 ∧
      S.Binds w st x S.target.base e b [L'] := by
  rw [lookup?_of_declare? declare] at he
  rw [Layer.bound?]
  split at he
  · rename_i hy
    obtain rfl := Option.some.inj he
    subst hy
    rw [if_pos rfl]
    exact ⟨c, _, rfl, hlevel, new⟩
  · rename_i hy
    rw [if_neg hy]
    exact older he

/-- **Global declarations** are found by the evaluator as they are by name analysis: by name,
the newest first. -/
theorem Globals.find (h : S.Globals w env L) (hst : w.globals <:+ st)
    (he : env.scopes.lookup? x = some e) :
    ∃ b L', L.bound? x = some (b, L') ∧ e.level = 0 ∧ S.Binds w st x S.target.base e b [L'] := by
  induction h with
  | nil => simp [Scopes.lookup?, Scopes.push, Scopes.empty] at he
  | @var env env' L y ty v older declares kept typed ih =>
    obtain ⟨scopes, hs, rfl⟩ := declares
    exact find_declared hs older.global.top.level_eq (.value (kept.loads hst) typed) ih he
  | @func env env' L f l older declares kept func ih =>
    have hall : S.Globals w env' ((f.name, .func f) :: L) := .func older declares kept func
    obtain ⟨scopes, hs, rfl⟩ := declares
    exact find_declared hs older.global.top.level_eq
      (.func rfl (kept.loads hst) func (.globals hall)) ih he
  | @cls env L c p older accepts dispatched kept table ih =>
    have hall : S.Globals w (c.resolve env).1 ((c.name, .cls c) :: L) :=
      .cls older accepts dispatched kept table
    obtain ⟨hlevel, -, -, ⟨scopes, hs, henv⟩, -⟩ := Env.classHead_of_recorded accepts.head
    rw [Env.Accepts.resolve_fst, henv] at he
    exact find_declared hs hlevel (.cls older hall accepts rfl (kept.loads hst) table) ih he

/-- The values of fields are found under their names. -/
theorem bound?_fields {o : Object} {names : List String} {u : Int32} (rest : Layer)
    (hx : x ∈ names) (hu : o.field? x = some u) :
    ∃ L', Layer.bound? x (names.filterMap (fun y ↦ (o.field? y).map fun v ↦ (y, .value v)) ++ rest)
      = some (.value u, L') := by
  induction names with
  | nil => cases hx
  | cons y names ih =>
    by_cases hy : y = x
    · subst hy
      rw [List.filterMap_cons, hu]
      exact ⟨_, if_pos rfl⟩
    · have hx' : x ∈ names := (List.mem_cons.1 hx).resolve_left fun h ↦ hy h.symm
      rw [List.filterMap_cons]
      cases o.field? y with
      | none => exact ih hx'
      | some v =>
        obtain ⟨L', hL⟩ := ih hx'
        exact ⟨L', (if_neg hy).trans hL⟩

theorem bound?_fields_of_not_mem {o : Object} {names : List String} (rest : Layer)
    (hx : x ∉ names) :
    Layer.bound? x (names.filterMap (fun y ↦ (o.field? y).map fun v ↦ (y, .value v)) ++ rest)
      = Layer.bound? x rest := by
  induction names with
  | nil => rfl
  | cons y names ih =>
    rw [List.mem_cons, not_or] at hx
    rw [List.filterMap_cons]
    cases o.field? y with
    | none => exact ih hx.2
    | some v =>
      simp only [Option.map_some, List.cons_append, Layer.bound?]
      rw [if_neg (Ne.symm hx.1), ih hx.2]

theorem bound?_methods (names : List String) (x : String) (v : Int32) :
    (x ∈ names → ∃ L', Layer.bound? x (names.map fun y ↦ (y, .method v)) = some (.method v, L')) ∧
      (x ∉ names → Layer.bound? x (names.map fun y ↦ (y, .method v)) = none) := by
  induction names with
  | nil => exact ⟨nofun, fun _ ↦ rfl⟩
  | cons y names ih =>
    rw [List.map_cons, Layer.bound?]
    by_cases hy : y = x
    · rw [if_pos hy]
      exact ⟨fun _ ↦ ⟨_, rfl⟩, fun hx ↦ absurd (List.mem_cons.2 (.inl hy.symm)) hx⟩
    · rw [if_neg hy]
      refine ⟨fun hx ↦ ih.1 ((List.mem_cons.1 hx).resolve_left fun h ↦ hy h.symm), fun hx ↦ ih.2 ?_⟩
      exact fun h ↦ hx (List.mem_cons_of_mem _ h)

/-- **The members of an object** are found by the evaluator as they are by name analysis.  The class
around the method says which members there are, and the object where they are. -/
theorem Home.find {outer : Env} {cls : String} {info : ClassInfo} {home : Layer} {o : Object}
    (h : S.Home w outer cls info home) (hst : w.globals <:+ st) (object : S.ObjectAt w v o)
    (below : S.ctx.classes.Below o.cls cls) (known : w.objects v = some o) (x : String) :
    (∀ e, info.members.find? x = some e → ∃ b L', (o.members v cls home).bound? x = some (b, L') ∧
      e.level = 1 ∧ S.Binds w st x v e b [L', home]) ∧
    (info.members.find? x = none → (o.members v cls home).bound? x = none) := by
  obtain ⟨fields, methods, hlaid, hfields, hmethods⟩ := h.laid
  rw [Object.members, hfields, hmethods]
  refine ⟨fun e he ↦ ?_, fun hnone ↦ ?_⟩
  · obtain ⟨e', hmember, hoffset, hstands⟩ := object.member below h.known he
    by_cases hneg : e.offset < 0
    · obtain ⟨hlook, hentry⟩ := hlaid.of_offset_neg he hneg
      cases hmember with
      | field neg value kept typed =>
        obtain ⟨L', hL⟩ := bound?_fields
          ((methods.map Prod.fst).map fun y ↦ (y, Binding.method v))
          (Table.mem_keys_of_lookupIn hlook) value
        refine ⟨_, L', hL, by rw [hentry], .value ?_ (hstands.value _ _ typed)⟩
        exact hoffset ▸ kept.loads hst
      | method nonneg => omega
    · obtain ⟨s, hlook, hentry⟩ := hlaid.of_offset_nonneg he (by omega)
      have hx := Table.mem_keys_of_lookupIn hlook
      obtain ⟨L', hL⟩ := (bound?_methods (methods.map Prod.fst) x v).1 hx
      refine ⟨_, L', ?_, by rw [hentry],
        .method (congrArg Entry.ty hentry) known object hmember (by omega) hoffset hstands⟩
      rw [bound?_fields_of_not_mem _ fun hf ↦ hlaid.disjoint x hf hx]
      exact hL
  · obtain ⟨hf, hm⟩ := hlaid.find_eq_none hnone
    rw [bound?_fields_of_not_mem _ hf]
    exact (bound?_methods (methods.map Prod.fst) x v).2 hm

/-- A name is bound by the evaluator to what name analysis has found for it, and this is kept in the
frame where the code looks for it. -/
def Finds (S : Setting) (w : Space) (st : List Int32) (env : Env) (ρ : Bindings) (a : Int32)
    (x : String) (e : Entry) : Prop :=
  ∃ b ρ' a', ρ.bound? x = some (b, ρ') ∧
    (e.level = 0 ∧ a' = S.target.base ∨
      e.level ≠ 0 ∧ e.level ≤ env.level ∧ S.image.Links st w.heap (env.level - e.level) a a') ∧
    S.Binds w st x a' e b ρ'

/-- A declaration in the frame of a function is found there, and everything else as it was
before. -/
theorem Scoped.finds_declared {env env' : Env} {y : String} {ty : Ty} {offset : Int} {c : Binding}
    (older : S.Scoped w st env (L :: ρ) a) (inner : ρ ≠ [])
    (declare : env.scopes.declare? y ⟨env.level, ty, offset⟩ = some env'.scopes)
    (new : S.Binds w st y a ⟨env.level, ty, offset⟩ c (((y, c) :: L) :: ρ))
    (ih : env.scopes.lookup? x = some e → S.Finds w st env (L :: ρ) a x e)
    (he : env'.scopes.lookup? x = some e) : S.Finds w st env' (((y, c) :: L) :: ρ) a x e := by
  have hlevel : env'.level = env.level := Scopes.nestingLevel_of_declare? declare
  have hpos : env.level ≠ 0 := by
    have := List.length_pos_iff.2 inner
    rw [older.level_eq, List.length_cons]
    omega
  rw [lookup?_of_declare? declare] at he
  rw [Finds, Bindings.bound?, Layer.bound?]
  split at he
  · rename_i hy
    obtain rfl := Option.some.inj he
    subst hy
    rw [if_pos rfl]
    refine ⟨_, _, a, rfl, .inr ⟨hpos, by simp only; omega, ?_⟩, new⟩
    rw [hlevel, Nat.sub_self]
    exact .zero a
  · rename_i hy
    rw [if_neg hy, hlevel]
    rw [Finds, Bindings.bound?] at ih
    exact ih he

/-- **What name analysis has found for a name is what the evaluator finds**, and it is kept where
the code looks for it. -/
theorem Scoped.find (h : S.Scoped w st env ρ a) (hst : w.globals <:+ st)
    (he : env.scopes.lookup? x = some e) : S.Finds w st env ρ a x e := by
  induction h with
  | bare h => simp [Scopes.lookup?, h] at he
  | globals h =>
    obtain ⟨b, L', hb, hlevel, hbinds⟩ := h.find hst he
    exact ⟨b, _, _, by rw [Bindings.bound?, hb], .inl ⟨hlevel, rfl⟩, hbinds⟩
  | @members env outer home cls info v o h scopes object below known =>
    have hall : S.Scoped w st env [o.members v cls home, home] v :=
      .members h scopes object below known
    have hlevel : env.level = 1 := hall.level_eq
    obtain ⟨hfound, hnone⟩ := h.find hst object below known x
    rw [scopes, Scopes.lookup?_push] at he
    cases hf : info.members.find? x with
    | some e' =>
      rw [hf, Option.some_or] at he
      obtain rfl := Option.some.inj he
      obtain ⟨b, L', hb, hl, hbinds⟩ := hfound e' hf
      refine ⟨b, _, v, by rw [Bindings.bound?, hb], .inr ⟨by omega, by omega, ?_⟩, hbinds⟩
      rw [hl, hlevel]
      exact .zero v
    | none =>
      rw [hf, Option.none_or] at he
      obtain ⟨b, L', hb, hl, hbinds⟩ := h.globals.find hst he
      exact ⟨b, _, _, by rw [Bindings.bound?, hnone hf, Bindings.bound?, hb], .inl ⟨hl, rfl⟩,
        hbinds⟩
  | @enter env ρ a above below outer inner link ih =>
    have hne : env.scopes.frames ≠ [] := by
      intro hnil
      have := outer.length_frames
      rw [hnil] at this
      exact inner (List.length_eq_zero_iff.1 this.symm)
    rw [Env.enter, Scopes.lookup?_push, Table.find?_empty, Option.none_or] at he
    obtain ⟨b, ρ', a', hb, hframe, hbinds⟩ := ih he
    refine ⟨b, ρ', a', by rw [Bindings.bound?, Layer.bound?, hb], hframe.imp id ?_, hbinds⟩
    rintro ⟨hl, hle, hlinks⟩
    rw [Env.level_enter hne]
    refine ⟨hl, by omega, ?_⟩
    rw [show env.level + 1 - e.level = env.level - e.level + 1 by omega]
    exact .succ (.stack link) hlinks
  | value older inner declare kept typed ih =>
    exact older.finds_declared inner declare (.value kept typed) ih he
  | func older inner declare kept func ih =>
    exact older.finds_declared inner declare
      (.func rfl kept func (.func older inner declare kept func)) ih he

theorem getLast?_of_declare? {s t : Scopes} {y : String} (h : s.declare? y e = some t)
    (hlen : 2 ≤ s.frames.length) : t.frames.getLast? = s.frames.getLast? := by
  obtain ⟨frame, rest, hs, -, ht⟩ := Scopes.frames_of_declare? h
  rw [hs, List.length_cons] at hlen
  have hne : rest ≠ [] := List.length_pos_iff.1 (by omega)
  obtain ⟨frame', rest, rfl⟩ := List.exists_cons_of_ne_nil hne
  rw [hs, ht, List.getLast?_cons_cons, List.getLast?_cons_cons]

/-- The outermost scope is the global one, for the evaluator as for name analysis. -/
theorem Scoped.outermost (h : S.Scoped w st env ρ a) (hne : ρ ≠ []) :
    ∃ env₀ L frame, S.Globals w env₀ L ∧ ρ.getLast? = some L ∧
      env.scopes.frames.getLast? = some frame ∧ env₀.scopes.frames = [frame] := by
  have inner : ∀ {l l' : Layer} {ρ : Bindings}, ρ ≠ [] →
      (l :: ρ).getLast? = (l' :: ρ).getLast? := by
    intro l l' ρ hρ
    obtain ⟨l'', ρ, rfl⟩ := List.exists_cons_of_ne_nil hρ
    rw [List.getLast?_cons_cons, List.getLast?_cons_cons]
  have deep : ∀ {env : Env} {l : Layer} {ρ : Bindings} {a : Int32}, ρ ≠ [] →
      S.Scoped w st env (l :: ρ) a → 2 ≤ env.scopes.frames.length := by
    intro env l ρ a hρ h
    have := List.length_pos_iff.2 hρ
    rw [h.length_frames, List.length_cons]
    omega
  induction h with
  | bare h => exact absurd rfl hne
  | globals h =>
    obtain ⟨frame, hframe, -⟩ := h.global.top.scope
    exact ⟨_, _, frame, h, rfl, by rw [hframe]; rfl, hframe⟩
  | members h scopes object below known =>
    obtain ⟨frame, hframe, -⟩ := h.globals.global.top.scope
    refine ⟨_, _, frame, h.globals, rfl, ?_, hframe⟩
    rw [scopes, Scopes.push, hframe]
    rfl
  | @enter env ρ a above below outer hρ link ih =>
    obtain ⟨env₀, L, frame, hglobals, hlast, hframe, hframe₀⟩ := ih hρ
    refine ⟨env₀, L, frame, hglobals, ?_, ?_, hframe₀⟩
    · rw [List.getLast?_cons, hlast]
      rfl
    · rw [Env.enter, Scopes.push, List.getLast?_cons, hframe]
      rfl
  | value older hρ declare kept typed ih =>
    obtain ⟨env₀, L, frame, hglobals, hlast, hframe, hframe₀⟩ := ih (List.cons_ne_nil _ _)
    exact ⟨env₀, L, frame, hglobals, (inner hρ).trans hlast,
      (getLast?_of_declare? declare (deep hρ older)).trans hframe, hframe₀⟩
  | func older hρ declare kept func ih =>
    obtain ⟨env₀, L, frame, hglobals, hlast, hframe, hframe₀⟩ := ih (List.cons_ne_nil _ _)
    exact ⟨env₀, L, frame, hglobals, (inner hρ).trans hlast,
      (getLast?_of_declare? declare (deep hρ older)).trans hframe, hframe₀⟩

theorem bound?_eq_some {L' : Layer} (h : Layer.bound? x L = some (b, L')) :
    ∃ L'', L' = (x, b) :: L'' := by
  induction L with
  | nil => cases h
  | cons p L ih =>
    obtain ⟨y, b'⟩ := p
    rw [Layer.bound?] at h
    split at h
    · rename_i hy
      cases h
      exact ⟨L, by rw [hy]⟩
    · exact ih h

/-- **What name analysis has found for a class is what the evaluator finds.** Both look in the
global scope only. -/
theorem Scoped.findClass {cls : String} (h : S.Scoped w st env ρ a) (hst : w.globals <:+ st)
    (he : env.lookupClass? cls = some e) :
    ∃ c home, ρ.class? cls = some home ∧ c.name = cls ∧ e.level = 0 ∧
      S.Binds w st cls S.target.base e (.cls c) [home] := by
  obtain ⟨hlook, ⟨shape, hty⟩, -⟩ := Env.lookupClass?_eq_some he
  by_cases hne : ρ = []
  · have hlen := h.length_frames
    rw [hne] at hlen
    simp [Scopes.lookupGlobal?, List.length_eq_zero_iff.1 hlen] at hlook
  · obtain ⟨env₀, L, frame, hglobals, hlast, hframe, hframe₀⟩ := h.outermost hne
    have hlook₀ : env₀.scopes.lookup? cls = some e := by
      rw [Scopes.lookupGlobal?, hframe, Option.bind_some] at hlook
      simp [Scopes.lookup?, hframe₀, hlook]
    obtain ⟨b, home, hb, hlevel, hbinds⟩ := hglobals.find hst hlook₀
    cases hbinds with
    | value kept typed => rw [hty] at typed; exact typed.elim
    | func ty => rw [hty] at ty; cases ty
    | method ty => rw [hty] at ty; cases ty
    | @cls c env L' p older all accepts ty kept table =>
      obtain ⟨L'', hL⟩ := bound?_eq_some hb
      refine ⟨c, _, ?_, congrArg Prod.fst (List.cons.inj hL).1, hlevel,
        .cls older all accepts ty kept table⟩
      rw [Bindings.class?, hlast, Option.bind_some, hb]

end Find

end Setting

end ObjectLet
