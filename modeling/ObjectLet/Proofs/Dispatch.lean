import ObjectLet.Proofs.Overriding
import ObjectLet.Proofs.Pieces

/-!
# Dispatch tables

The layout of a class and its dispatch table are made independently of each other: the one from the
declarations, by name analysis, the other from the offsets that have been noted for the methods, by
the code generator.  Here both are followed side by side.

* `Nearest` says which declaration of a method counts for a class.
* `Entered` says which entry the code generator has given to a method.
* `FillsIn` is what emitting the methods of a class does to its dispatch table, and `Tabled` what is
  known about a class from then on.  `Decl.emitAll_tabled` takes it through all declarations.
* `Bytecode.Builds` says that a piece of code builds a table on the heap of the machine.
* `Toolchain.dispatch_tables`: **the dispatch table of a class has the entries of the nearest
  declarations at the offsets of the methods, and is what the code of the class builds.**

Offsets are noted under the numbers of the methods, so these have to be different.  Otherwise one
method can lose its entry to another one (`twins_tables`).
-/

set_option autoImplicit false

namespace ObjectLet

/-! ## Methods and their entries -/

/-- The declaration of a method that counts for a class, among global declarations: that of the
nearest class upwards from it that declares the name. -/
inductive Nearest (ds : List Decl) (x : String) : String → FunDecl → Prop
  /-- The class declares the method itself. -/
  | own {c : ClassDecl} {f : FunDecl} (hc : .cls c ∈ ds) (hf : f ∈ c.methods) (hx : f.name = x) :
      Nearest ds x c.name f
  /-- The class inherits the method. -/
  | above {c : ClassDecl} {s : String} {f : FunDecl} (hc : .cls c ∈ ds)
      (hno : ∀ g ∈ c.methods, g.name ≠ x) (hs : c.superclass = some s) (h : Nearest ds x s f) :
      Nearest ds x c.name f

/-- Some methods of a class are emitted, from the state `s` on, and one of them gets an entry: it
comes after some others, and the entry has the next number then.  What is emitted with it is part of
all that has been emitted in the end. -/
def EntersAmong (t : Target) (inherited : List Label) (fs : List FunDecl) (s last : Emission)
    (f : FunDecl) (l : Label) : Prop :=
  ∃ before after table s₁, fs = before ++ f :: after ∧
    FunDecl.emitMethods t inherited before s = .ok table s₁ ∧ l = ⟨.method, s₁.nextLabel⟩ ∧
    ∃ s₂, f.emit t l { s₁ with nextLabel := s₁.nextLabel + 1 } = .ok () s₂ ∧
      s₂.functions <+: last.functions

/-- A method of one of the classes among some declarations, emitted from the beginning, gets an
entry. -/
def Entered (t : Target) (ds : List Decl) (last : Emission) (f : FunDecl) (l : Label) : Prop :=
  ∃ before c after is s inherited, ds = before ++ .cls c :: after ∧
    Decl.emitAll t before {} = .ok is s ∧ t.inheritedDispatch c.name s = .ok inherited s ∧
    EntersAmong t inherited c.methods s last f l

/-- An entry in its place in the dispatch table. -/
theorem placeEntry?_eq_some {table table' : List Label} {offset : Int} {l : Label}
    (h : placeEntry? table offset l = some table') :
    table'[offset.toNat]? = some l ∧
      (∀ k < table.length, k ≠ offset.toNat → table'[k]? = table[k]?) ∧
      ((offset < table.length ∧ table'.length = table.length) ∨
        (offset = table.length ∧ table'.length = table.length + 1)) := by
  rw [ placeEntry?] at h
  split at h
  · cases h
  · split at h
    · rename_i hlt
      obtain rfl := Option.some.inj h
      exact ⟨List.getElem?_set_self hlt, fun k _ hne ↦ List.getElem?_set_ne (Ne.symm hne),
        .inl ⟨by omega, List.length_set⟩⟩
    · split at h
      · rename_i heq
        obtain rfl := Option.some.inj h
        refine ⟨heq ▸ List.getElem?_concat_length, fun k hk _ ↦ List.getElem?_append_left hk,
          .inr ⟨by omega, by simp⟩⟩
      · cases h

namespace ClassLayout

variable {ctx : Context} {l : ClassLayout} {f : FunDecl}

/-- The methods of a shape grow as the dispatch table does. -/
theorem length_methodPlace (hp : l.info.Placed) (f : FunDecl)
    (hpos : 0 ≤ (l.methodPlace f.name f.signature).1) :
    ((l.methodPlace f.name f.signature).1 < l.shape.methods.length ∧
        (l.methodPlace f.name f.signature).2.length = l.shape.methods.length) ∨
      ((l.methodPlace f.name f.signature).1 = l.shape.methods.length ∧
        (l.methodPlace f.name f.signature).2.length = l.shape.methods.length + 1) := by
  rw [methodPlace] at hpos ⊢
  cases hover : (l.members.find? f.name).filter fun e ↦ e.ty.isMethod with
  | none => exact .inr ⟨rfl, by simp⟩
  | some e =>
    rw [hover] at hpos
    have hpos : 0 ≤ e.offset := hpos
    exact .inl ⟨(hp.bounds _ e (Option.filter_eq_some_iff.1 hover).1).2, by simp [hpos]⟩

theorem methods_addMethod (hnew : f.name ∉ l.declared) :
    (l.addMethod f).1.shape.methods = (l.methodPlace f.name f.signature).2 := by
  rw [addMethod_eq hnew]
  rfl

theorem find?_addMethod_self (hnew : f.name ∉ l.declared) :
    (l.addMethod f).1.members.find? f.name
      = some ⟨1, .method f.signature, (l.methodPlace f.name f.signature).1⟩ := by
  rw [addMethod_eq hnew]
  exact Table.find?_insert_self _ _ _

theorem find?_addMethod_of_ne {x : String} (hx : f.name ≠ x) (l : ClassLayout) :
    (l.addMethod f).1.members.find? x = l.members.find? x := by
  by_cases hnew : f.name ∈ l.declared
  · rw [addMethod_of_mem hnew]
  · rw [addMethod_eq hnew]
    exact Table.find?_insert_of_ne _ _ hx

theorem methods_addFields (l : ClassLayout) (bs : List Binder) :
    (l.addFields bs).1.shape.methods = l.shape.methods := by
  induction bs generalizing l with
  | nil => rfl
  | cons b bs ih =>
    refine (ih (l.addField b).1).trans ?_
    by_cases hnew : b.name ∈ l.declared
    · rw [addField_of_mem hnew]
    · rw [addField_eq hnew]
      rfl

theorem find?_addFields {x : String} {bs : List Binder} (hx : ∀ b ∈ bs, b.name ≠ x)
    (l : ClassLayout) : (l.addFields bs).1.members.find? x = l.members.find? x := by
  induction bs generalizing l with
  | nil => rfl
  | cons b bs ih =>
    refine (ih (fun b hb ↦ hx b (List.mem_cons_of_mem _ hb)) (l.addField b).1).trans ?_
    by_cases hnew : b.name ∈ l.declared
    · rw [addField_of_mem hnew]
    · rw [addField_eq hnew]
      exact Table.find?_insert_of_ne _ _ (hx b List.mem_cons_self)

end ClassLayout

/-- What emitting the methods of a class does, given the layouts of the class and the states of the
code generator before and after it. -/
structure FillsIn (t : Target) (l l' : ClassLayout) (table table' : List Label) (fs : List FunDecl)
    (s s' : Emission) : Prop where
  /-- There is an entry for each method of the shape. -/
  length : table'.length = l'.shape.methods.length
  /-- The tables of other classes stay. -/
  dispatch : s'.dispatch = s.dispatch
  /-- More functions have been emitted. -/
  functions : s.functions <+: s'.functions
  /-- What is not declared anew has the entry that it had. -/
  kept : ∀ x e, (∀ f ∈ fs, f.name ≠ x) → l.members.find? x = some e → 0 ≤ e.offset →
    l'.members.find? x = some e ∧ table'[e.offset.toNat]? = table[e.offset.toNat]?
  /-- What is declared has a new one. -/
  own : ∀ f ∈ fs, ∃ e entry, l'.members.find? f.name = some e ∧ e.ty = .method f.signature ∧
    0 ≤ e.offset ∧ table'[e.offset.toNat]? = some entry ∧ EntersAmong t table fs s s' f entry

section Methods

variable {ctx : Context} {t : Target} {l : ClassLayout}

/-- **The entries of methods get to the offsets that the methods are laid out at.** What the layout
leaves where it was stays in the table, too. -/
theorem emitMethods_fillsIn (hk : t.Knows ctx) {fs : List FunDecl} {table table' : List Label}
    {s s' : Emission} (hp : l.info.Placed) (hrec : Recorded ctx (l.addMethods fs).2)
    (hlen : table.length = l.shape.methods.length)
    (hemit : ∀ f ∈ fs, ∀ entry, (f.emit t entry).Total)
    (h : FunDecl.emitMethods t table fs s = .ok table' s') :
    FillsIn t l (l.addMethods fs).1 table table' fs s s' := by
  induction fs generalizing l table s with
  | nil =>
    rw [FunDecl.emitMethods, emitter_pure] at h
    cases h
    exact ⟨hlen, rfl, List.prefix_rfl, fun x e _ he _ ↦ ⟨he, rfl⟩, nofun⟩
  | cons f fs ih =>
    simp only [ClassLayout.addMethods, recorded_append] at hrec ⊢
    have hnew := ClassLayout.addMethod_new hrec.1
    have hlater := (ClassLayout.addMethods_new hrec.2).2
    have hplaced := ClassLayout.placed_addMethod hp f
    have hmakes := ClassLayout.makes_addMethod hp f
    have hlengths := ClassLayout.length_methodPlace hp f
    have hlayout := hrec.1
    rw [ClassLayout.addMethod_eq hnew] at hlayout hlater
    have hfind := ClassLayout.find?_addMethod_self hnew
    have hothers : ∀ x, f.name ≠ x → (l.addMethod f).1.members.find? x = l.members.find? x :=
      fun x hx ↦ ClassLayout.find?_addMethod_of_ne hx l
    have hshape := ClassLayout.methods_addMethod hnew
    -- the offset that has been noted is that of the layout
    generalize (l.methodPlace f.name f.signature).1 = offset at *
    have hnoted : t.ctx.layouts.find? f.site.id = some ⟨1, .method f.signature, offset⟩ :=
      hk.layouts ▸ (recorded_cons.1 hlayout).1
    obtain ⟨e, s₁, placed, he, hpos, hf, hplace, h⟩ := FunDecl.emitMethods_cons_eq_ok.1 h
    obtain rfl : ⟨1, .method f.signature, offset⟩ = e := Option.some.inj (hnoted.symm.trans he)
    simp only at hpos hplace
    obtain ⟨hentry, hrest, hgrown⟩ := placeEntry?_eq_some hplace
    obtain ⟨hdispatch, hfunctions⟩ := (hemit f List.mem_cons_self _).of_eq_ok hf
    have hlen₁ : placed.length = (l.addMethod f).1.shape.methods.length := by
      have := hlengths hpos
      rw [hshape]
      omega
    have hfills := ih hplaced hrec.2 hlen₁ (fun g hg ↦ hemit g (List.mem_cons_of_mem _ hg)) h
    refine ⟨hfills.length, hfills.dispatch.trans hdispatch, hfunctions.trans hfills.functions,
      fun x e hx he hpos' ↦ ?_, List.forall_mem_cons.2 ⟨?_, fun g hg ↦ ?_⟩⟩
    · have hne : f.name ≠ x := hx f List.mem_cons_self
      obtain ⟨hfind', hkept⟩ := hfills.kept x e (fun g hg ↦ hx g (List.mem_cons_of_mem _ hg))
        ((hothers x hne).trans he) hpos'
      refine ⟨hfind', hkept.trans (hrest _ ?_ fun ho ↦ hne ?_)⟩
      · have := (hp.bounds x e he).2
        simp only [ClassLayout.info] at this
        omega
      · refine (hmakes.free x e he ?_).symm
        show e.offset = offset
        omega
    · obtain ⟨hfind', hkept⟩ := hfills.kept f.name _
        (fun g hg heq ↦ hlater g hg (heq ▸ List.mem_cons_self)) hfind hpos
      exact ⟨_, _, hfind', rfl, hpos, hkept.trans hentry,
        ⟨[], fs, table, s, rfl, rfl, rfl, s₁, hf, hfills.functions⟩⟩
    · obtain ⟨e, entry, he, hty, hpos', hentry', henters⟩ := hfills.own g hg
      obtain ⟨before, after, u, s₂, hfs, hemitted, hl, hmore⟩ := henters
      exact ⟨e, entry, he, hty, hpos', hentry', f :: before, after, u, s₂, by rw [hfs]; rfl,
        FunDecl.emitMethods_cons_eq_ok.2 ⟨_, s₁, placed, hnoted, hpos, hf, hplace, hemitted⟩,
        hl, hmore⟩

end Methods

/-! ## Classes and their tables -/

/-- What is known about a class and its dispatch table, among some declarations, once it has been
emitted. -/
structure Tabled (t : Target) (ds : List Decl) (last : Emission) (c : ClassDecl) (i : ClassInfo)
    (table : List Label) : Prop where
  /-- The class is registered. -/
  info : t.ctx.classes.info? c.name = some i
  /-- The table is kept. -/
  kept : last.dispatch.find? c.name = some table
  /-- There is an entry for each method of the shape. -/
  length : table.length = i.shape.methods.length
  /-- The entry of a method belongs to its nearest declaration. -/
  entries : ∀ x f, Nearest ds x c.name f → ∃ e l, i.members.find? x = some e ∧
    e.ty.isMethod = true ∧ 0 ≤ e.offset ∧ table[e.offset.toNat]? = some l ∧ Entered t ds last f l
  /-- The code of the class builds the table. -/
  code : ∃ before after is s s', ds = before ++ .cls c :: after ∧
    Decl.emitAll t before {} = .ok is s ∧ c.emit t s = .ok (buildDispatch table) s'

section Classes

variable {ctx : Context} {t : Target} {ds : List Decl} {last last' : Emission} {c : ClassDecl}
  {i : ClassInfo} {table : List Label}

theorem EntersAmong.mono {inherited : List Label} {fs : List FunDecl} {s : Emission} {f : FunDecl}
    {l : Label} (h : EntersAmong t inherited fs s last f l)
    (hp : last.functions <+: last'.functions) : EntersAmong t inherited fs s last' f l := by
  obtain ⟨before, after, table, s₁, hfs, hm, hl, s₂, hf, hs₂⟩ := h
  exact ⟨before, after, table, s₁, hfs, hm, hl, s₂, hf, hs₂.trans hp⟩

theorem Entered.mono {f : FunDecl} {l : Label} (h : Entered t ds last f l)
    (hp : last.functions <+: last'.functions) : Entered t ds last' f l := by
  obtain ⟨before, c, after, is, s, inherited, hds, hb, hu, henters⟩ := h
  exact ⟨before, c, after, is, s, inherited, hds, hb, hu, henters.mono hp⟩

theorem Tabled.mono (h : Tabled t ds last c i table)
    (hd : last'.dispatch.find? c.name = last.dispatch.find? c.name)
    (hp : last.functions <+: last'.functions) : Tabled t ds last' c i table where
  info := h.info
  kept := hd.trans h.kept
  length := h.length
  entries x f hn := by
    obtain ⟨e, l, he, hty, hpos, hl, hf⟩ := h.entries x f hn
    exact ⟨e, l, he, hty, hpos, hl, hf.mono hp⟩
  code := h.code

theorem Decl.mem_classes {d : Decl} : c ∈ d.classes ↔ d = .cls c := by
  cases d <;> simp [Decl.classes, eq_comm]

theorem Decl.mem_flatMap_classes : c ∈ ds.flatMap Decl.classes ↔ .cls c ∈ ds := by
  simp [List.mem_flatMap, Decl.mem_classes]

/-- Different classes have different names. -/
theorem Decl.eq_of_name_eq {d : ClassDecl}
    (hnames : ((ds.flatMap Decl.classes).map ClassDecl.name).Nodup) (hc : .cls c ∈ ds)
    (hd : .cls d ∈ ds) (hname : c.name = d.name) : c = d :=
  List.inj_on_of_nodup_map hnames (Decl.mem_flatMap_classes.2 hc) (Decl.mem_flatMap_classes.2 hd)
    hname

theorem Decl.emitAll_append {ds es : List Decl} {s s' : Emission} {is : List Instr} :
    Decl.emitAll t (ds ++ es) s = .ok is s' ↔ ∃ js ks s₁, Decl.emitAll t ds s = .ok js s₁ ∧
      Decl.emitAll t es s₁ = .ok ks s' ∧ is = js ++ ks := by
  induction ds generalizing s s' is with
  | nil => simp [Decl.emitAll, eq_comm]
  | cons d ds ih =>
    simp only [List.cons_append, Decl.emitAll_cons_eq_ok, ih]
    constructor
    · rintro ⟨a, s₁, _, hd, ⟨js, ks, s₂, hds, hes, rfl⟩, rfl⟩
      exact ⟨a ++ js, ks, s₂, ⟨a, s₁, js, hd, hds, rfl⟩, hes, (List.append_assoc a js ks).symm⟩
    · rintro ⟨_, ks, s₂, ⟨a, s₁, js, hd, hds, rfl⟩, hes, rfl⟩
      exact ⟨a, s₁, js ++ ks, hd, ⟨js, ks, s₂, hds, hes, rfl⟩, List.append_assoc a js ks⟩

/-- The names of classes that are declared without an error are different, and free before. -/
theorem Env.AtTop.nodup_classes {env : Env} (h : env.AtTop)
    (hrec : Recorded ctx (Decl.resolveAll env ds).2) :
    ((ds.flatMap Decl.classes).map ClassDecl.name).Nodup ∧
      ∀ c ∈ ds.flatMap Decl.classes, env.classes.info? c.name = none := by
  induction ds generalizing env with
  | nil => exact ⟨List.nodup_nil, nofun⟩
  | cons d ds ih =>
    simp only [Decl.resolveAll, recorded_append] at hrec
    obtain ⟨htop, hwithin⟩ := h.resolve hrec.1
    obtain ⟨hnodup, hfree⟩ := ih htop hrec.2
    have hfree' : ∀ c ∈ ds.flatMap Decl.classes, env.classes.info? c.name = none := by
      intro c hc
      cases hi : env.classes.info? c.name with
      | none => rfl
      | some i => exact absurd (hfree c hc) (by rw [hwithin.info hi]; exact Option.some_ne_none i)
    by_cases hnil : d.classes = []
    · rw [List.flatMap_cons, hnil, List.nil_append]
      exact ⟨hnodup, hfree'⟩
    · cases d with
      | cls c =>
        rw [Decl.resolve, ClassDecl.resolve_eq] at hrec hfree
        obtain ⟨-, -, -, hd, -⟩ := Env.classHead_of_recorded (recorded_append.1 hrec.1).1
        have hnew := h.info?_eq_none hd
        have hreg : (env.classHead c).1.classes.info? c.name = some (env.classes.layout c) := by
          rw [hd.classes_eq, ClassTable.info?_extend hnew, if_pos rfl]
        refine ⟨List.nodup_cons.2 ⟨fun hmem ↦ ?_, hnodup⟩, List.forall_mem_cons.2 ⟨hnew, hfree'⟩⟩
        obtain ⟨c', hc', hname⟩ := List.mem_map.1 hmem
        have := hfree c' hc'
        rw [hname, hreg] at this
        cases this
      | _ => exact absurd rfl hnil

theorem ClassTable.placed_base {cs : List ClassDecl} (c : ClassDecl) :
    ((ClassTable.empty.declareAll cs).base c).Placed :=
  ClassTable.forall_base ClassInfo.placed_empty (fun _ _ ↦ ClassTable.placed_declareAll) c

/-- A registered class stands for its declaration, with the layout that it has been given there. -/
theorem Env.Accepts.stands {env : Env} (h : env.Accepts ctx c) (htop : env.AtTop) :
    ctx.classes.Stands c (env.classes.base c) (env.classes.layout c) := by
  obtain ⟨-, -, -, hd, -⟩ := Env.classHead_of_recorded h.head
  have hlinked : env.classes.Linked := htop.links
  have hclasses : (c.resolve env).1.classes = env.classes.declare c := by
    rw [resolve_fst]
    exact (env.classes_classHead c).2.trans (if_pos htop.level_eq)
  exact (hlinked.stands_declare (htop.info?_eq_none hd)).within (hclasses ▸ h.within)

/-- A class starts with the dispatch table of its superclass, if it has one. -/
theorem Env.Accepts.inherited_table {env : Env} (hk : t.Knows ctx) (h : env.Accepts ctx c)
    (htop : env.AtTop) {s : Emission} {inherited : List Label}
    (hold : ∀ x i, env.classes.info? x = some i →
      ∃ d table, d.name = x ∧ Tabled t ds s d i table)
    (hu : inherited = ((t.ctx.classes.superclass? c.name).bind s.dispatch.find?).getD []) :
    inherited.length = (env.classes.base c).shape.methods.length ∧
      ∀ sup, c.superclass = some sup →
        ∃ d, d.name = sup ∧ Tabled t ds s d (env.classes.base c) inherited := by
  obtain ⟨-, hknown, -, -, -⟩ := Env.classHead_of_recorded h.head
  rw [hk.classes, (h.info_eq htop).2] at hu
  cases hsup : c.superclass with
  | none =>
    rw [hu, ClassTable.base, hsup]
    exact ⟨rfl, fun sup hsup ↦ by cases hsup⟩
  | some sup =>
    obtain ⟨i, hi⟩ := hknown sup hsup
    obtain ⟨d, table, rfl, htable⟩ := hold sup i hi
    rw [hsup, Option.bind_some, htable.kept, Option.getD_some] at hu
    have hbase : env.classes.base c = i := by rw [ClassTable.base, hsup, Option.bind_some, hi]; rfl
    rw [hbase, hu]
    exact ⟨htable.length, fun sup hsup' ↦ ⟨d, Option.some.inj hsup', htable⟩⟩

/-- **A class gets its dispatch table**, if those before it have theirs.  It begins with that of its
superclass, which is one of them. -/
theorem Env.Accepts.tabled {env : Env} (hk : t.Knows ctx) (h : env.Accepts ctx c)
    (htop : env.AtTop) {before after : List Decl} (hds : ds = before ++ .cls c :: after)
    (hclasses : env.classes = ClassTable.empty.declareAll (before.flatMap Decl.classes))
    (hnames : ((ds.flatMap Decl.classes).map ClassDecl.name).Nodup) {s s' : Emission}
    {is js : List Instr} (hbefore : Decl.emitAll t before {} = .ok is s)
    (hold : ∀ d, .cls d ∈ before → ∃ i table, Tabled t ds s d i table)
    (hemit : c.emit t s = .ok js s') :
    (∃ i table, Tabled t ds s' c i table) ∧ s.functions <+: s'.functions ∧
      ∀ x, c.name ≠ x → s'.dispatch.find? x = s.dispatch.find? x := by
  have hemitted := hemit
  obtain ⟨-, hknown, hlaid, -, -⟩ := Env.classHead_of_recorded h.head
  have hstands := h.stands htop
  have hsound := ClassDecl.sound_of_checkOverrides (ClassDecl.typeErrors_check h.checked).2
  have hwithin : env.classes.Within ctx.classes :=
    (htop.resolve (d := .cls c) (by rw [Decl.resolve]; exact h.recorded)).2.trans
      (by rw [Decl.resolve]; exact h.within)
  rw [← ClassTable.base_members hwithin hknown] at hsound
  have hplaced : (env.classes.base c).Placed := by
    rw [hclasses]
    exact ClassTable.placed_base c
  obtain ⟨inherited, table, s₁, hinherited, hu, hmethods, rfl, rfl⟩ := ClassDecl.emit_eq_ok hemit
  obtain ⟨hlen, hsuper⟩ := h.inherited_table hk htop (fun x i hi ↦ by
    obtain ⟨d, hd, rfl, -⟩ := ClassTable.exists_stands (hclasses ▸ hi)
    obtain ⟨j, table, htable⟩ := hold d (Decl.mem_flatMap_classes.1 hd)
    obtain rfl : i = j := Option.some.inj ((hwithin.info hi).symm.trans (hk.classes ▸ htable.info))
    exact ⟨d, table, rfl, htable⟩) hu
  have hlaid := recorded_append.1 hlaid
  have hfills := emitMethods_fillsIn hk
    (ClassLayout.placed_addFields (l := .inherit (env.classes.base c)) hplaced c.fields) hlaid.2
    (by rw [ClassLayout.methods_addFields]; exact hlen) (h.methods_emit hk) hmethods
  have hfind : ∀ x ≠ c.name, (s₁.dispatch.insert c.name table).find? x = s.dispatch.find? x := by
    intro x hx
    rw [Table.find?_insert_of_ne _ _ hx.symm, hfills.dispatch]
  have hc : .cls c ∈ ds := hds ▸ List.mem_append_right _ List.mem_cons_self
  refine ⟨⟨env.classes.layout c, table, ?_, Table.find?_insert_self _ _ _, hfills.length, ?_,
    before, after, is, s, _, hds, hbefore, hemitted⟩, hfills.functions, fun x hx ↦ hfind x hx.symm⟩
  · rw [hk.classes]
    exact hstands.registered
  · intro x f hnearest
    generalize hname : c.name = name at hnearest
    cases hnearest with
    | @own d f hd hf hx =>
      obtain rfl : c = d := Decl.eq_of_name_eq hnames hc hd hname
      obtain ⟨e, l, he, hty, hpos, hl, henters⟩ := hfills.own f hf
      exact ⟨e, l, hx ▸ he, by rw [hty]; rfl, hpos, hl,
        before, _, after, is, s, inherited, hds, hbefore, hinherited, henters.mono List.prefix_rfl⟩
    | @above d sup f hd hno hs hnext =>
      obtain rfl : c = d := Decl.eq_of_name_eq hnames hc hd hname
      obtain ⟨d, rfl, htable⟩ := hsuper _ hs
      obtain ⟨e, l, he, hty, hpos, hl, hentered⟩ := htable.entries x f hnext
      have hfields : ∀ b ∈ c.fields, b.name ≠ x := by
        rintro b hb rfl
        rw [Context.isMethod_of_fieldOverrides (hsound.fields b hb e he)] at hty
        cases hty
      obtain ⟨he', hkept⟩ := hfills.kept x e hno
        ((ClassLayout.find?_addFields hfields _).trans he) hpos
      exact ⟨e, l, he', hty, hpos, hkept.trans hl, hentered.mono hfills.functions⟩

/-- **All classes get their dispatch tables**, one after the other, and none of these
is changed later. -/
theorem Decl.emitAll_tabled (hk : t.Knows ctx) {before rest : List Decl} {env : Env}
    {s s' : Emission} {is js : List Instr} (hds : ds = before ++ rest) (htop : env.AtTop)
    (hclasses : env.classes = ClassTable.empty.declareAll (before.flatMap Decl.classes))
    (hnames : ((ds.flatMap Decl.classes).map ClassDecl.name).Nodup)
    (hrec : Recorded ctx (Decl.resolveAll env rest).2)
    (hcheck : typeErrors (Decl.checkAll ctx rest) = [])
    (hwithin : (Decl.resolveAll env rest).1.classes.Within ctx.classes)
    (hbefore : Decl.emitAll t before {} = .ok is s)
    (hold : ∀ c, .cls c ∈ before → ∃ i table, Tabled t ds s c i table)
    (hemit : Decl.emitAll t rest s = .ok js s') :
    ∀ c, .cls c ∈ ds → ∃ i table, Tabled t ds s' c i table := by
  induction rest generalizing before env s is js with
  | nil =>
    rw [Decl.emitAll, emitter_pure] at hemit
    cases hemit
    rwa [hds, List.append_nil] at *
  | cons d rest ih =>
    simp only [Decl.resolveAll, recorded_append] at hrec hwithin
    rw [Decl.checkAll, typeErrors_append, List.append_eq_nil_iff] at hcheck
    obtain ⟨first, s₁, more, hd, hrest, rfl⟩ := Decl.emitAll_cons_eq_ok.1 hemit
    obtain ⟨htop', -⟩ := htop.resolve hrec.1
    have hwithin' := (htop'.within_resolveAll hrec.2).trans hwithin
    have hone : Decl.emitAll t (before ++ [d]) {} = .ok (is ++ first) s₁ := by
      refine Decl.emitAll_append.2 ⟨is, first, s, hbefore, ?_, rfl⟩
      exact Decl.emitAll_cons_eq_ok.2 ⟨first, s₁, [], hd, rfl, (List.append_nil first).symm⟩
    refine ih (by rw [hds]; simp) htop' ?_ hrec.2 hcheck.2 hwithin hone (fun c hc ↦ ?_) hrest
    · rw [Decl.classes_resolve htop.level_eq, hclasses, List.flatMap_append,
        ClassTable.declareAll_append, List.flatMap_singleton]
    by_cases hnil : d.classes = []
    · obtain ⟨frame, hframes, -⟩ := htop.scope
      obtain ⟨ty, hdecl⟩ := Decl.declares_of_recorded hnil hrec.1
      obtain ⟨hdispatch, hfunctions⟩ := (Decl.emits hk d hnil (hframes ▸ List.cons_ne_nil _ _)
        (hdecl.classes_eq ▸ hwithin') hrec.1 hcheck.1).of_eq_ok hd
      have hc : .cls c ∈ before := (List.mem_append.1 hc).resolve_right fun hmem ↦ by
        obtain rfl := List.mem_singleton.1 hmem
        cases hnil
      obtain ⟨i, table, htable⟩ := hold c hc
      exact ⟨i, table, htable.mono (by rw [hdispatch]) hfunctions⟩
    · cases d with
      | cls c' =>
        rw [Decl.resolve] at hrec hwithin'
        rw [Decl.emit] at hd
        obtain ⟨hnew, hfunctions, hkeeps⟩ := Env.Accepts.tabled hk ⟨hrec.1, hcheck.1, hwithin'⟩ htop
          hds hclasses hnames hbefore hold hd
        rcases List.mem_append.1 hc with hc | hc
        · obtain ⟨i, table, htable⟩ := hold c hc
          refine ⟨i, table, htable.mono (hkeeps c.name fun hname ↦ ?_) hfunctions⟩
          rw [hds, List.flatMap_append, List.map_append, List.nodup_append] at hnames
          exact hnames.2.2 c.name (List.mem_map_of_mem (Decl.mem_flatMap_classes.2 hc)) c'.name
            (List.mem_map_of_mem (Decl.mem_flatMap_classes.2 List.mem_cons_self)) hname.symm
        · cases List.mem_singleton.1 hc
          exact hnew
      | _ => exact absurd rfl hnil

end Classes

/-! ## Building a table -/

/-- One state is what becomes of another one when some words have been put onto the heap, one after
the other, and their address onto the stack. -/
structure State.Gains (s t : State) (words : List Int32) : Prop where
  /-- There is one value more on the stack. -/
  sp : t.sp + 1 = s.sp
  /-- It is the address where the heap ended. -/
  address : t.memory.get t.sp = s.hp
  /-- The heap ends behind the words. -/
  hp : t.hp.toInt = s.hp.toInt + words.length
  /-- The words are there. -/
  words : ∀ i v, words[i]? = some v → t.memory.get (s.hp.toInt.toNat + i) = v
  /-- The rest of the heap stays. -/
  heap : ∀ a : Nat, (a : Int) < s.hp.toInt → t.memory.get a = s.memory.get a
  /-- The rest of the stack stays. -/
  stack : ∀ a, s.sp ≤ a → a < s.memory.size → t.memory.get a = s.memory.get a
  /-- The frame stays. -/
  fp : t.fp = s.fp
  /-- Nothing is printed. -/
  output : t.output.lines = s.output.lines

/-- From one address to another one, the code puts some words onto the heap and their address onto
the stack, whatever the state of the machine is, if there is room for that. -/
def Bytecode.Builds (b : Bytecode) (start stop : Nat) (words : List Int32) : Prop :=
  ∀ s : State, s.Apart → s.output.capacity = none → .emptyStack ∉ s.output.lines.toList →
    s.ip = start → s.hp.toInt + words.length + 2 < s.sp →
    ∃ k t, s.after none b.code k = some t ∧ t.ip = stop ∧ s.Gains t words

section Building

variable {m : Image} {s t : State} {c d : Config} {words : List Int32} {ip : Nat}

theorem State.Gains.of_stores (hs : m.Shows none s c) (ht : m.Shows none t d)
    (htop : m.top < 2 ^ 31) (hlen : c.heap.length = c.hp)
    (h : m.Stores c ip (Int32.ofNat c.hp :: c.stack) words d) :
    s.Gains t words := by
  have hsp := hs.sp
  have hsp' := ht.sp
  rw [h.stack, List.length_cons] at hsp'
  have hhp := hs.toInt_hp htop
  have hhp' := ht.toInt_hp htop
  rw [h.hp] at hhp'
  have haddress := ht.stack 0 (Int32.ofNat c.hp) (by rw [h.stack]; rfl)
  refine ⟨by omega, by rw [hs.hp]; exact haddress, by omega, fun i v hi ↦ ?_, fun a ha ↦ ?_,
    fun a ha hlt ↦ ?_, by rw [ht.fp, hs.fp, h.fp], ?_⟩
  · refine ht.heap _ v ?_
    rw [h.heap, hhp, Int.toNat_natCast, ← hlen, List.getElem?_append_right (Nat.le_add_right _ _),
      Nat.add_sub_cancel_left, hi]
  · have hlt : a < c.heap.length := by omega
    have hcell : c.heap[a]? = some c.heap[a] := List.getElem?_eq_getElem hlt
    rw [hs.heap a _ hcell]
    refine ht.heap a _ ?_
    rw [h.heap, List.getElem?_append_left hlt, hcell]
  · obtain ⟨i, rfl⟩ : ∃ i, a = s.sp + i := ⟨a - s.sp, by omega⟩
    rw [hs.size] at hlt
    have hlt : i < c.stack.length := by omega
    have hcell : c.stack[i]? = some c.stack[i] := List.getElem?_eq_getElem hlt
    rw [hs.stack i _ hcell, show s.sp + i = t.sp + (i + 1) by omega]
    refine ht.stack (i + 1) _ ?_
    rw [h.stack, List.getElem?_cons_succ, hcell]
  · exact Array.toList_inj.1 (by rw [ht.lines, hs.lines, h.printed])

/-- **The code that is made for a dispatch table builds it.** The cells are next to each other, and
the address of the first one is left on the stack. -/
theorem builds_buildDispatch {prog : List Instr} {b : Bytecode} {a : Nat} {table : List Label}
    (hb : assemble prog = .ok b) (hsize : b.code.size < 2 ^ 31)
    (hat : CodeAt prog a (buildDispatch table)) :
    b.Builds a (a + codeSize (buildDispatch table))
      (table.map fun l ↦ Int32.ofNat (addressOf l prog)) := by
  intro s hs hcapacity hlines hip hroom
  obtain ⟨c, hshows, hlen⟩ := Image.exists_shows prog hs hlines
  rw [hcapacity] at hshows
  have hsized : Image.Sized ⟨prog, s.memory.size⟩ b := ⟨hb, Assembled.size_eq hb ▸ hsize, hs.size⟩
  have hhp := hshows.toInt_hp hs.size
  have hsp : s.sp + c.stack.length = s.memory.size := hshows.sp
  rw [← List.append_nil (buildDispatch table), ← hip, hshows.ip] at hat
  rw [← hip, hshows.ip]
  rcases (Image.Leads.buildDispatch hat hlen List.prefix_rfl id).reaches hsized hshows with
    ⟨k, t, d, hk, -, ht, hd⟩ | ⟨_, _, -, hcollides⟩
  · exact ⟨k, t, hk, ht.ip.trans hd.ip, .of_stores hshows ht hs.size hlen hd⟩
  · have hfull : s.memory.size ≤ c.use + table.length + 2 := hcollides.full
    rw [List.length_map] at hroom
    rw [Config.use] at hfull
    omega

end Building

/-! ## Programs -/

/-- At the label stands the code of a function: what it declares and its body, emitted in some
state, between its first and its last instructions. -/
def FunDecl.StandsAt (t : Target) (code : List Instr) (f : FunDecl) (l : Label) : Prop :=
  ∃ declared result s s' n, Decl.emitAll t f.locals s = .ok declared s' ∧
    f.body.emit t s'.nextLabel = .ok (result, n) ∧
    CodeAt code (addressOf l code)
      (prologue l ++ declared ++ result ++ epilogue f.locals.length f.params.length)

/-- What the code generator has made of a class, in the code of a program: a table with the right
entries, and code that builds it where the class is declared. -/
structure Program.Dispatches (p : Program) (t : Target) (code : List Instr) (last : Emission)
    (c : ClassDecl) (i : ClassInfo) (table : List Label) : Prop where
  /-- The class is registered. -/
  registered : t.ctx.classes.info? c.name = some i
  /-- The class has the dispatch table. -/
  generated : last.dispatch.find? c.name = some table
  /-- There is an entry for each method of the shape. -/
  length : table.length = i.shape.methods.length
  /-- Every method of the class or of a class above it has an entry at its offset: that of the
  nearest declaration, whose code stands there. -/
  entries : ∀ (d : ClassDecl) (f : FunDecl), .cls d ∈ p.decls →
    t.ctx.classes.Below c.name d.name → f ∈ d.methods →
    ∃ e g l, i.members.find? f.name = some e ∧ 0 ≤ e.offset ∧ table[e.offset.toNat]? = some l ∧
      Nearest p.decls f.name c.name g ∧ Entered t p.decls last g l ∧ g.StandsAt t code l
  /-- The code of the class builds the table. -/
  builds : ∃ before after is s s', p.decls = before ++ .cls c :: after ∧
    Decl.emitAll t before {} = .ok is s ∧ c.emit t s = .ok (buildDispatch table) s' ∧
    CodeAt code (2 + codeSize is) (buildDispatch table) ∧
    ∀ b, assemble code = .ok b → b.code.size < 2 ^ 31 →
      b.Builds (2 + codeSize is) (2 + codeSize is + codeSize (buildDispatch table))
        (table.map fun l ↦ Int32.ofNat (addressOf l code))

/-- Some declaration of a method counts for a class, if the class or one above it declares it. -/
theorem ClassTable.Below.exists_nearest {u : ClassTable} {ds : List Decl} {x y : String}
    (hu : u = ClassTable.empty.declareAll (ds.flatMap Decl.classes))
    (hnames : ((ds.flatMap Decl.classes).map ClassDecl.name).Nodup) (h : u.Below x y)
    {c d : ClassDecl} (hc : .cls c ∈ ds) (hx : c.name = x) (hi : ∃ i, u.info? x = some i)
    (hd : .cls d ∈ ds) (hy : d.name = y) {f : FunDecl} (hf : f ∈ d.methods) :
    ∃ g, Nearest ds f.name x g := by
  induction h generalizing c with
  | refl x =>
    obtain rfl := Decl.eq_of_name_eq hnames hc hd (hx.trans hy.symm)
    exact ⟨f, hx ▸ .own hc hf rfl⟩
  | @up x s y hs _ ih =>
    subst hx
    by_cases hown : ∃ g ∈ c.methods, g.name = f.name
    · obtain ⟨g, hg, hname⟩ := hown
      exact ⟨g, .own hc hg hname⟩
    · obtain ⟨i, hi⟩ := hi
      subst hu
      obtain ⟨c', hc', hname, base, hstands⟩ := ClassTable.exists_stands hi
      obtain rfl := Decl.eq_of_name_eq hnames (Decl.mem_flatMap_classes.1 hc') hc hname
      obtain ⟨hsuper, hbase⟩ := hstands.base_of_superclass? hs
      obtain ⟨e, he, hes, -⟩ := ClassTable.exists_stands hbase
      obtain ⟨g, hg⟩ := ih (Decl.mem_flatMap_classes.1 he) hes ⟨base, hbase⟩ hy
      exact ⟨g, .above hc (fun g hg hname ↦ hown ⟨g, hg, hname⟩) hsuper hg⟩

section Programs

variable {ctx : Context} {t : Target} {p : Program}

/-- A method that has been emitted stands at its entry. -/
theorem Entered.standsAt {ds : List Decl} {main : List Instr} {last : Emission} {f : FunDecl}
    {l : Label} {b : Bytecode} (h : Entered t ds last f l)
    (hb : assemble (main ++ last.functions) = .ok b) :
    f.StandsAt t (main ++ last.functions) l := by
  obtain ⟨-, -, -, -, -, -, -, -, -, -, -, -, s, -, -, -, s', hf, hpre⟩ := h
  obtain ⟨declared, s₁, result, n, hd, hr, rfl⟩ := FunDecl.emit_eq_ok hf
  obtain ⟨after, hafter⟩ := hpre
  have hat : CodeAt (main ++ last.functions) (codeSize (main ++ s₁.functions))
      (prologue l ++ declared ++ result ++ epilogue f.locals.length f.params.length) :=
    ⟨main ++ s₁.functions, after, by rw [← hafter]; simp only [List.append_assoc], rfl⟩
  have haddress : addressOf l (main ++ last.functions) = codeSize (main ++ s₁.functions) :=
    Assembled.addressOf_eq hb hat
  exact ⟨declared, result, _, s₁, n, hd, hr, haddress ▸ hat⟩

/-- What the declarations of a program have made of a class is what stands in its code. -/
theorem Tabled.dispatches {last s : Emission} {c : ClassDecl} {i : ClassInfo} {table : List Label}
    {code is rest : List Instr} {b : Bytecode} (h : Tabled t p.decls last c i table)
    (hregistry : t.ctx.classes = ClassTable.empty.declareAll (p.decls.flatMap Decl.classes))
    (hnames : ((p.decls.flatMap Decl.classes).map ClassDecl.name).Nodup) (hc : .cls c ∈ p.decls)
    (hb : assemble code = .ok b) (hcode : code = [.push 0] ++ is ++ rest ++ last.functions)
    (hemit : Decl.emitAll t p.decls {} = .ok is s) : p.Dispatches t code last c i table := by
  subst hcode
  refine ⟨h.info, h.kept, h.length, fun d f hd hbelow hf ↦ ?_, ?_⟩
  · obtain ⟨g, hg⟩ := hbelow.exists_nearest hregistry hnames hc rfl ⟨i, h.info⟩ hd rfl hf
    obtain ⟨e, l, he, -, hpos, hl, hentered⟩ := h.entries f.name g hg
    exact ⟨e, g, l, he, hpos, hl, hg, hentered, hentered.standsAt hb⟩
  · obtain ⟨before, after, js, s₁, s₂, hds, hbefore, hcls⟩ := h.code
    rw [hds] at hemit
    obtain ⟨_, ks, _, hbefore', hrest, rfl⟩ := Decl.emitAll_append.1 hemit
    cases hbefore.symm.trans hbefore'
    obtain ⟨_, _, more, hcls', -, rfl⟩ := Decl.emitAll_cons_eq_ok.1 hrest
    rw [Decl.emit] at hcls'
    cases hcls.symm.trans hcls'
    have hat : CodeAt ([.push 0] ++ (js ++ (buildDispatch table ++ more)) ++ rest ++ last.functions)
        (2 + codeSize js) (buildDispatch table) := by
      refine ⟨.push 0 :: js, more ++ rest ++ last.functions, ?_, rfl⟩
      simp only [List.append_assoc, List.cons_append, List.nil_append]
    exact ⟨before, after, js, s₁, s₂, hds, hbefore, hcls, hat,
      fun b hb hsize ↦ builds_buildDispatch hb hsize hat⟩

/-- **All classes of a program get right dispatch tables**, whichever program it is that no
errors are found in. -/
theorem Program.Accepted.dispatches (hk : t.Knows ctx) (hacc : p.Accepted ctx) {code : List Instr}
    {last : Emission} (h : p.emit t {} = .ok code last) :
    ∀ c, .cls c ∈ p.decls → ∃ i table, p.Dispatches t code last c i table := by
  obtain ⟨b, hb⟩ := Program.assembles h
  cases p with
  | bare body => exact fun c hc ↦ absurd hc List.not_mem_nil
  | letIn line ds body =>
    obtain ⟨hrec, hcheck, hclasses, -⟩ := hacc.of_letIn
    obtain ⟨main, s₁, hmain, rfl, rfl⟩ := Program.emit_eq_ok h
    obtain ⟨is, s, result, n, hds, hr, hparts, rfl⟩ := Program.emitMain_letIn_eq_ok hmain
    have hnames := (Env.AtTop.nodup_classes .start hrec).1
    have hall : ∀ c, .cls c ∈ ds → ∃ i table, Tabled t (letIn line ds body).decls s c i table :=
      Decl.emitAll_tabled hk (List.nil_append ds).symm .start rfl hnames hrec hcheck
        (hclasses ▸ .refl _) rfl (fun c hc ↦ absurd hc List.not_mem_nil) hds
    have hregistry : t.ctx.classes = ClassTable.empty.declareAll (ds.flatMap Decl.classes) := by
      rw [hk.classes, hclasses, Decl.classes_resolveAll rfl]
    intro c hc
    obtain ⟨i, table, htable⟩ := hall c hc
    have hcode := hparts.trans (List.append_assoc _ _ _)
    exact ⟨i, table, Tabled.dispatches (p := .letIn line ds body) (htable.mono rfl List.prefix_rfl)
      hregistry hnames hc hb (congrArg (· ++ s.functions) hcode) hds⟩

/-- **The dispatch tables of a program without errors are what its classes are laid out for.**  The
table of a class has as many entries as the class has methods.  At the offset of a method is the
entry of its nearest declaration, upwards from the class, and there stands the code of that method.
The code of the class puts the addresses of these entries onto the heap, one after the other, and
leaves the address of the first one.

The offset of a method is noted under the number of its node, so no two nodes may have the same one:
of two methods with one number, one gets the place of the other, as in the program `twins` below. -/
theorem Toolchain.dispatch_tables {t : Toolchain} {p : Program} (hids : p.ids.Nodup)
    (hclean : (t.analyze p).counts.isClean = true) {code : List Instr}
    (hcode : (generate (t.target (t.analyze p)) p).1 = .ok code) :
    ∃ last, p.emit (t.target (t.analyze p)) {} = .ok code last ∧
      ∀ c, .cls c ∈ p.decls →
        ∃ i table, p.Dispatches (t.target (t.analyze p)) code last c i table := by
  obtain ⟨last, hemit⟩ := generate_eq_ok hcode
  exact ⟨last, hemit, (Toolchain.accepted hids hclean).dispatches (t.knows p) hemit⟩

/-- The dispatch table that the code of a program builds for a class, if there is such code. -/
def Program.table? (t : Target) (p : Program) (cls : String) : Option (List Label) :=
  match p.emit t {} with
  | .ok _ last => last.dispatch.find? cls
  | .error _ _ => none

/-- The class `C` has the entry of `m` in `B`, at the offset that it has in `A`, and one for `n`. -/
theorem narrowing_tables : ∃ code last,
    (generate (({} : Toolchain).target (({} : Toolchain).analyze narrowing)) narrowing).1
        = .ok code ∧
      last.dispatch.find? "C" = some [⟨.method, 1⟩, ⟨.method, 2⟩] ∧
      ∀ c, .cls c ∈ narrowing.decls → ∃ i table,
        narrowing.Dispatches (({} : Toolchain).target (({} : Toolchain).analyze narrowing)) code
          last c i table := by
  have hok : (generate (({} : Toolchain).target (({} : Toolchain).analyze narrowing))
      narrowing).1.isOk = true := by decide +kernel
  have htable : Program.table? (({} : Toolchain).target (({} : Toolchain).analyze narrowing))
      narrowing "C" = some [⟨.method, 1⟩, ⟨.method, 2⟩] := by decide +kernel
  cases hcode : (generate (({} : Toolchain).target (({} : Toolchain).analyze narrowing))
      narrowing).1 with
  | error e =>
    rw [hcode] at hok
    cases hok
  | ok code =>
    obtain ⟨last, hemit, hall⟩ := Toolchain.dispatch_tables (by decide) (by decide +kernel) hcode
    rw [Program.table?, hemit] at htable
    exact ⟨code, last, rfl, htable, hall⟩

/-- The method `b` of `B` and the method `c` of `C` are nodes with the same number. -/
def twins : Program :=
  let a : ClassDecl := ⟨⟨2, 1⟩, "A", none, [], [⟨⟨1, 1⟩, "a", .int, [], [], .int ⟨0, 1⟩ 1⟩]⟩
  let b : ClassDecl := ⟨⟨5, 1⟩, "B", some "A", [], [⟨⟨4, 1⟩, "b", .int, [], [], .int ⟨3, 1⟩ 2⟩]⟩
  let c : ClassDecl := ⟨⟨7, 1⟩, "C", none, [], [⟨⟨4, 1⟩, "c", .int, [], [], .int ⟨6, 1⟩ 3⟩]⟩
  .letIn 1 [.cls a, .cls b, .cls c] (.int ⟨8, 1⟩ 0)

/-- **Nodes with the same number share one offset.**  What is noted for `c` replaces what was noted
for `b`, so the entry of `b` takes the place of the one that `B` has inherited from `A`.  There is
no error, and there is code, but the table of `B` has one entry for two methods. -/
theorem twins_tables : (({} : Toolchain).analyze twins).counts.isClean = true ∧ ∃ code last,
    (generate (({} : Toolchain).target (({} : Toolchain).analyze twins)) twins).1 = .ok code ∧
    twins.emit (({} : Toolchain).target (({} : Toolchain).analyze twins)) {} = .ok code last ∧
    last.dispatch.find? "B" = some [⟨.method, 1⟩] ∧
    ¬ ∀ c, .cls c ∈ twins.decls → ∃ i table,
      twins.Dispatches (({} : Toolchain).target (({} : Toolchain).analyze twins)) code last c i
        table := by
  refine ⟨by decide +kernel, ?_⟩
  have hok : (generate (({} : Toolchain).target (({} : Toolchain).analyze twins))
      twins).1.isOk = true := by decide +kernel
  have htable : Program.table? (({} : Toolchain).target (({} : Toolchain).analyze twins)) twins "B"
      = some [⟨.method, 1⟩] := by decide +kernel
  have hshape : ((({} : Toolchain).target (({} : Toolchain).analyze twins)).ctx.classes.info?
      "B").map (fun i ↦ i.shape.methods.length) = some 2 := by decide +kernel
  cases hcode : (generate (({} : Toolchain).target (({} : Toolchain).analyze twins)) twins).1 with
  | error e =>
    rw [hcode] at hok
    cases hok
  | ok code =>
    obtain ⟨last, hemit⟩ := generate_eq_ok hcode
    rw [Program.table?, hemit] at htable
    refine ⟨code, last, rfl, hemit, htable, fun hall ↦ ?_⟩
    obtain ⟨i, table, h⟩ := hall _ (List.mem_cons_of_mem _ List.mem_cons_self)
    rw [h.registered] at hshape
    have hlength : table.length = 2 := h.length.trans (Option.some.inj hshape)
    rw [Option.some.inj (h.generated.symm.trans htable)] at hlength
    cases hlength

end Programs

end ObjectLet
