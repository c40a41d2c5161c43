import ObjectLet.Proofs.Overriding
import ObjectLet.Proofs.Visibility

/-!
# The members of a class

The table of a class gives an offset to every member, and the shape of the class lists the types of
fields and the signatures of methods in the order of the offsets.  The two are kept in step
whatever errors there are in the declaration: a name that is declared twice, a field in the place of
an inherited method, a method in the place of an inherited field, an unknown superclass.

The one exception is a field whose declared type is that of a method.  To the layout of a subclass
it looks like a method with the offset of a field (`overriddenField`), so here no field is
declared with such a type.

* `ClassInfo.Consistent`: what a table and a shape have to do with each other.
* `ClassInfo.Extends`: what a class has from its superclass.
* `Context.classes_consistent`: **every registered class is consistent, and extends its
  superclass.**
-/

set_option autoImplicit false

namespace ObjectLet

/-! ## Tables and shapes -/

/-- The table of a class agrees with its shape.  Fields have negative offsets and are counted from
-1 downwards, methods are counted from 0 upwards. -/
structure ClassInfo.Consistent (i : ClassInfo) : Prop where
  /-- What is no method has the place of a field, and its type stands there in the shape. -/
  field : ∀ x e, i.members.find? x = some e → e.ty.isMethod = false →
    -(i.shape.fields.length : Int) ≤ e.offset ∧ e.offset ≤ -1 ∧
      i.shape.fields[(-e.offset - 1).toNat]? = some e.ty
  /-- A method has a place in the dispatch table, and its signature stands there in the shape. -/
  method : ∀ x e s, i.members.find? x = some e → e.ty = .method s →
    0 ≤ e.offset ∧ e.offset < i.shape.methods.length ∧
      i.shape.methods[e.offset.toNat]? = some s
  /-- Two members of one sort do not share a place. -/
  apart : ∀ x y d e, i.members.find? x = some d → i.members.find? y = some e → x ≠ y →
    d.ty.isMethod = e.ty.isMethod → d.offset ≠ e.offset

/-- A class has what another one has, except for what its declaration replaces.  So code for the
other class finds everything at its place. -/
structure ClassInfo.Extends (i : ClassInfo) (c : ClassDecl) (base : ClassInfo) : Prop where
  /-- There are as many fields, or more. -/
  fields_le : base.shape.fields.length ≤ i.shape.fields.length
  /-- There are as many methods, or more. -/
  methods_le : base.shape.methods.length ≤ i.shape.methods.length
  /-- A member that is not replaced by one of the other sort keeps its offset and its sort. -/
  offset : ∀ x e, base.members.find? x = some e →
    (∀ ty, Table.lookupIn x c.ownMembers = some ty → ty.isMethod = e.ty.isMethod) →
    ∃ e', i.members.find? x = some e' ∧ e'.offset = e.offset ∧ e'.ty.isMethod = e.ty.isMethod
  /-- A member that is not replaced at all keeps its entry. -/
  entry : ∀ x e, base.members.find? x = some e → Table.lookupIn x c.ownMembers = none →
    i.members.find? x = some e

/-- All methods have places in the dispatch table.  This rules out that one of them has taken over
the place of a field. -/
def ClassInfo.Dispatchable (i : ClassInfo) : Prop :=
  Frame.All (fun e ↦ e.ty.isMethod = true → 0 ≤ e.offset) i.members

/-- A class is consistent if its members are where its shape says they are, and no method is among
the fields. -/
theorem ClassInfo.Placed.consistent {i : ClassInfo} (hp : i.Placed) (hd : i.Dispatchable) :
    i.Consistent := by
  refine ⟨fun x e he hty ↦ ?_, fun x e s he hty ↦ ?_, fun x y d e hd he hne _ ho ↦ ?_⟩
  · obtain ⟨hneg, hslot⟩ := hp.field x e he hty
    exact ⟨(hp.bounds x e he).1, by omega, hslot⟩
  · have hpos : 0 ≤ e.offset := hd x e he (Ty.isMethod_iff.2 ⟨s, hty⟩)
    exact ⟨hpos, (hp.bounds x e he).2, hp.method x e s he hty hpos⟩
  · exact hne (hp.apart x y d e hd he ho)

/-! ## Laying out one more member -/

namespace ClassLayout

variable {l : ClassLayout} {b : Binder} {f : FunDecl} {x : String} {o : Int} {m : Bool}

theorem dispatchable_addField (h : l.info.Dispatchable) (hb : b.ty.isMethod = false) :
    (l.addField b).1.info.Dispatchable :=
  all_addField h fun _ hm ↦ by rw [hb] at hm; cases hm

theorem dispatchable_addMethod (h : l.info.Dispatchable) : (l.addMethod f).1.info.Dispatchable := by
  by_cases hnew : f.name ∈ l.declared
  · rwa [addMethod_of_mem hnew]
  rw [addMethod_eq hnew]
  refine Frame.All.insert h (fun _ ↦ ?_) f.name
  rw [methodPlace]
  cases hover : (l.members.find? f.name).filter fun e ↦ e.ty.isMethod with
  | none => exact Int.natCast_nonneg _
  | some e =>
    obtain ⟨hfind, hty⟩ := Option.filter_eq_some_iff.1 hover
    exact h f.name e hfind hty

theorem dispatchable_addFields {bs : List Binder} (h : l.info.Dispatchable)
    (hbs : ∀ b ∈ bs, b.ty.isMethod = false) : (l.addFields bs).1.info.Dispatchable := by
  induction bs generalizing l with
  | nil => exact h
  | cons b bs ih =>
    rw [List.forall_mem_cons] at hbs
    exact ih (dispatchable_addField h hbs.1) hbs.2

theorem dispatchable_addMethods {fs : List FunDecl} (h : l.info.Dispatchable) :
    (l.addMethods fs).1.info.Dispatchable := by
  induction fs generalizing l with
  | nil => exact h
  | cons f fs ih => exact ih (dispatchable_addMethod h)

theorem dispatchable_ofDecl {base : ClassInfo} {c : ClassDecl} (h : base.Dispatchable)
    (hc : ∀ b ∈ c.fields, b.ty.isMethod = false) : (ofDecl base c).1.info.Dispatchable :=
  dispatchable_addMethods (dispatchable_addFields (l := inherit base) h hc)

/-- A shape never gets smaller, whether a field is new or replaces another one. -/
theorem shape_le_addField (l : ClassLayout) (b : Binder) :
    l.shape.fields.length ≤ (l.addField b).1.shape.fields.length ∧
      l.shape.methods.length ≤ (l.addField b).1.shape.methods.length := by
  by_cases hnew : b.name ∈ l.declared
  · rw [addField_of_mem hnew]
    exact ⟨le_rfl, le_rfl⟩
  rw [addField_eq hnew]
  refine ⟨?_, le_rfl⟩
  simp only [place, fieldPlace]
  split <;> simp

theorem shape_le_addMethod (l : ClassLayout) (f : FunDecl) :
    l.shape.fields.length ≤ (l.addMethod f).1.shape.fields.length ∧
      l.shape.methods.length ≤ (l.addMethod f).1.shape.methods.length := by
  by_cases hnew : f.name ∈ l.declared
  · rw [addMethod_of_mem hnew]
    exact ⟨le_rfl, le_rfl⟩
  rw [addMethod_eq hnew]
  refine ⟨le_rfl, ?_⟩
  simp only [place, methodPlace]
  split
  · split <;> simp
  · simp

theorem shape_le_addFields (l : ClassLayout) (bs : List Binder) :
    l.shape.fields.length ≤ (l.addFields bs).1.shape.fields.length ∧
      l.shape.methods.length ≤ (l.addFields bs).1.shape.methods.length := by
  induction bs generalizing l with
  | nil => exact ⟨le_rfl, le_rfl⟩
  | cons b bs ih =>
    have hfirst := shape_le_addField l b
    have hrest := ih (l.addField b).1
    exact ⟨hfirst.1.trans hrest.1, hfirst.2.trans hrest.2⟩

theorem shape_le_addMethods (l : ClassLayout) (fs : List FunDecl) :
    l.shape.fields.length ≤ (l.addMethods fs).1.shape.fields.length ∧
      l.shape.methods.length ≤ (l.addMethods fs).1.shape.methods.length := by
  induction fs generalizing l with
  | nil => exact ⟨le_rfl, le_rfl⟩
  | cons f fs ih =>
    have hfirst := shape_le_addMethod l f
    have hrest := ih (l.addMethod f).1
    exact ⟨hfirst.1.trans hrest.1, hfirst.2.trans hrest.2⟩

/-! ## Members that keep their offsets -/

/-- A member has an offset, and is of the given sort. -/
def Has (l : ClassLayout) (x : String) (o : Int) (m : Bool) : Prop :=
  ∃ e, l.members.find? x = some e ∧ e.offset = o ∧ e.ty.isMethod = m

/-- Placing another member, or the same one where it was, changes nothing. -/
theorem Has.place (h : l.Has x o m) {y : String} {e : Entry} {shape : Shape}
    (he : y = x → e.offset = o ∧ e.ty.isMethod = m) : (l.place y e shape).Has x o m := by
  obtain ⟨d, hd, ho, hm⟩ := h
  by_cases hxy : y = x
  · subst hxy
    exact ⟨e, Table.find?_insert_self _ _ _, he rfl⟩
  · exact ⟨d, (Table.find?_insert_of_ne _ _ hxy).trans hd, ho, hm⟩

/-- A field that replaces an inherited field takes over its offset. -/
theorem Has.addField (h : l.Has x o m) (hb : b.ty.isMethod = false)
    (hsort : m = true → b.name ≠ x) : (l.addField b).1.Has x o m := by
  by_cases hnew : b.name ∈ l.declared
  · rwa [addField_of_mem hnew]
  rw [addField_eq hnew]
  refine h.place fun hx ↦ ?_
  obtain ⟨e, he, ho, hm⟩ := h
  have hfield : m = false := Bool.eq_false_iff.2 fun hmethod ↦ hsort hmethod hx
  have hty : e.ty.isMethod = false := hm.trans hfield
  refine ⟨?_, hb.trans hfield.symm⟩
  rw [fieldPlace, hx, he, Option.filter_some, hty]
  exact ho

/-- A method that replaces an inherited method takes over its offset. -/
theorem Has.addMethod (h : l.Has x o m) (hsort : m = false → f.name ≠ x ∨ x ∈ l.declared) :
    (l.addMethod f).1.Has x o m := by
  by_cases hnew : f.name ∈ l.declared
  · rwa [addMethod_of_mem hnew]
  rw [addMethod_eq hnew]
  refine h.place fun hx ↦ ?_
  obtain ⟨e, he, ho, hm⟩ := h
  have hmethod : m = true := by
    rw [← Bool.not_eq_false]
    intro hfield
    rcases hsort hfield with hne | hdeclared
    · exact hne hx
    · exact hnew (hx ▸ hdeclared)
  have hty : e.ty.isMethod = true := hm.trans hmethod
  refine ⟨?_, hmethod.symm⟩
  rw [methodPlace, hx, he, Option.filter_some, hty]
  exact ho

theorem Has.addFields {bs : List Binder} (h : l.Has x o m) (hbs : ∀ b ∈ bs, b.ty.isMethod = false)
    (hsort : m = true → ∀ b ∈ bs, b.name ≠ x) : (l.addFields bs).1.Has x o m := by
  induction bs generalizing l with
  | nil => exact h
  | cons b bs ih =>
    rw [List.forall_mem_cons] at hbs
    exact ih (h.addField hbs.1 fun hm ↦ hsort hm b List.mem_cons_self) hbs.2
      fun hm d hd ↦ hsort hm d (List.mem_cons_of_mem _ hd)

/-- What is declared stays so, and keeps its name from being declared again. -/
theorem declared_addMethod (hx : x ∈ l.declared) (f : FunDecl) :
    x ∈ (l.addMethod f).1.declared := by
  by_cases hnew : f.name ∈ l.declared
  · rwa [addMethod_of_mem hnew]
  · rw [addMethod_eq hnew]
    exact List.mem_cons_of_mem _ hx

theorem Has.addMethods {fs : List FunDecl} (h : l.Has x o m)
    (hsort : m = false → (∀ f ∈ fs, f.name ≠ x) ∨ x ∈ l.declared) :
    (l.addMethods fs).1.Has x o m := by
  induction fs generalizing l with
  | nil => exact h
  | cons f fs ih =>
    refine ih (h.addMethod fun hm ↦ ?_) fun hm ↦ ?_
    · exact (hsort hm).imp (fun hne ↦ hne f List.mem_cons_self) id
    · exact (hsort hm).imp (fun hne g hg ↦ hne g (List.mem_cons_of_mem _ hg))
        fun hx ↦ declared_addMethod hx f

/-- **A member keeps its offset unless it is replaced by one of the other sort.**  Of several
declarations of its name the first one counts, and fields come before methods. -/
theorem Has.ofDecl {base : ClassInfo} {c : ClassDecl} (h : (inherit base).Has x o m)
    (hc : ∀ b ∈ c.fields, b.ty.isMethod = false)
    (hsort : ∀ ty, Table.lookupIn x c.ownMembers = some ty → ty.isMethod = m) :
    (ofDecl base c).1.Has x o m := by
  have hlookup := Table.lookupIn_append x (c.fields.map fun b ↦ (b.name, b.ty))
    (c.methods.map fun f ↦ (f.name, Ty.method f.signature))
  have hnil : (inherit base).Overlays [] base.members :=
    ⟨fun _ ↦ Iff.rfl, nofun, keeps_inherit base⟩
  have hdeclared := (hnil.addFields c.fields).declared x
  rw [ClassDecl.ownMembers, hlookup] at hsort
  -- the first of the fields with this name, if there is one
  cases hfield : Table.lookupIn x (c.fields.map fun b ↦ (b.name, b.ty)) with
  | some ty =>
    obtain ⟨b, hb, hpair⟩ := List.mem_map.1 (Table.mem_of_lookupIn hfield)
    obtain ⟨-, rfl⟩ := Prod.mk.inj hpair
    have hm : m = false := (hsort b.ty (by rw [hfield, Option.some_or])).symm.trans (hc b hb)
    refine Has.addMethods (h.addFields hc fun htrue ↦ ?_) fun _ ↦ .inr ?_
    · rw [hm] at htrue
      cases htrue
    · exact hdeclared.2 (Table.mem_keys_of_lookupIn hfield)
  | none =>
    have hfresh : ∀ b ∈ c.fields, b.name ≠ x := by
      intro b hb hx
      have hmem : x ∈ (c.fields.map fun b ↦ (b.name, b.ty)).map Prod.fst :=
        List.mem_map.2 ⟨(b.name, b.ty), List.mem_map.2 ⟨b, hb, rfl⟩, hx⟩
      rw [← Table.lookupIn_isSome_iff, hfield] at hmem
      cases hmem
    refine Has.addMethods (h.addFields hc fun _ ↦ hfresh) fun hm ↦ .inl fun f hf hx ↦ ?_
    have hmem : x ∈ (c.methods.map fun f ↦ (f.name, Ty.method f.signature)).map Prod.fst :=
      List.mem_map.2 ⟨(f.name, .method f.signature), List.mem_map.2 ⟨f, hf, rfl⟩, hx⟩
    obtain ⟨ty, hty⟩ := Option.isSome_iff_exists.1 (Table.lookupIn_isSome_iff.2 hmem)
    obtain ⟨g, -, hpair⟩ := List.mem_map.1 (Table.mem_of_lookupIn hty)
    obtain ⟨-, rfl⟩ := Prod.mk.inj hpair
    have := hsort (.method g.signature) (by rw [hfield, Option.none_or, hty])
    rw [hm] at this
    cases this

/-- **A class extends what it is laid out over.** What it adds goes to the end, and what it
replaces keeps its place. -/
theorem extends_ofDecl {base : ClassInfo} {c : ClassDecl}
    (hc : ∀ b ∈ c.fields, b.ty.isMethod = false) : (ofDecl base c).1.info.Extends c base := by
  have hfields := shape_le_addFields (inherit base) c.fields
  have hmethods := shape_le_addMethods ((inherit base).addFields c.fields).1 c.methods
  have hover := Overlays.ofDecl base c
  refine ⟨hfields.1.trans hmethods.1, hfields.2.trans hmethods.2, fun x e he hsort ↦ ?_,
    fun x e he hnone ↦ ?_⟩
  · exact Has.ofDecl ⟨e, he, rfl, rfl⟩ hc hsort
  · have hown : x ∉ (ofDecl base c).1.declared := by
      rw [hover.declared, ← Table.lookupIn_isSome_iff, hnone]
      simp
    exact (hover.keeps x hown).trans he

end ClassLayout

/-! ## The classes of a program -/

theorem Context.classes_resolve (ctx : Context) (p : Program) :
    (ctx.resolve p).classes = ctx.classes.declareAll (p.decls.flatMap Decl.classes) := by
  rw [resolve, ← p.classes_resolve ctx.classes]
  exact classes_addFindings _ _

/-- **Every registered class is consistent, and extends its superclass**, unless some class has a
field with the type of a method.  The declaration that counts is the first one of its name. -/
theorem Context.classes_consistent {p : Program}
    (hfields : ∀ c ∈ p.decls.flatMap Decl.classes, ∀ b ∈ c.fields, b.ty.isMethod = false)
    {x : String} {i : ClassInfo} (hx : (({} : Context).resolve p).classes.info? x = some i) :
    i.Consistent ∧ ∀ s, (({} : Context).resolve p).classes.superclass? x = some s →
      ∃ c base, (p.decls.flatMap Decl.classes).find? (fun c ↦ c.name = x) = some c ∧
        (({} : Context).resolve p).classes.info? s = some base ∧ i.Extends c base := by
  rw [Context.classes_resolve] at hx ⊢
  constructor
  · have hdispatchable : i.Dispatchable :=
      ClassTable.forall_info_declareAll (Frame.all_empty _)
        (fun c hc _ hbase ↦ ClassLayout.dispatchable_ofDecl hbase (hfields c hc))
        (fun _ _ hi ↦ by cases hi) hx
    exact (ClassTable.placed_declareAll hx).consistent hdispatchable
  · intro s hs
    obtain ⟨c, hc, base, hstands⟩ := ClassTable.exists_stands_first hx
    obtain rfl : c.name = x := by simpa using List.find?_some hc
    refine ⟨c, base, hc, (hstands.base_of_superclass? hs).2, ?_⟩
    rw [hstands.laid]
    exact ClassLayout.extends_ofDecl (hfields c (List.mem_of_find?_eq_some hc))

namespace Careless

/-- A class with a field and two methods. -/
def a : ClassDecl := ⟨⟨5, 1⟩, "A", none, [⟨⟨0, 1⟩, "x", .int⟩],
  [⟨⟨2, 1⟩, "m", .int, [], [], .int ⟨1, 1⟩ 0⟩, ⟨⟨4, 1⟩, "n", .int, [], [], .int ⟨3, 1⟩ 0⟩]⟩

/-- A class that extends it and is declared carelessly: the field `m` replaces a method, and besides
the field `x`, which replaces the inherited one, there are a second field and a method of that
name. -/
def b : ClassDecl := ⟨⟨11, 2⟩, "B", some "A",
  [⟨⟨6, 2⟩, "x", .bool⟩, ⟨⟨7, 2⟩, "m", .int⟩, ⟨⟨8, 2⟩, "x", .int⟩],
  [⟨⟨10, 2⟩, "x", .int, [], [], .int ⟨9, 2⟩ 0⟩]⟩

/-- A program with these classes, and a second class `B`. -/
def program : Program :=
  .letIn 1 [.cls a, .cls b, .cls { b with superclass := none }] (.int ⟨12, 3⟩ 0)

/-- The field `x` keeps the offset that it has in `A`, and the method `n` its whole entry. -/
theorem program_consistent : ∃ i j,
    (({} : Context).resolve program).classes.info? "B" = some i ∧
    (({} : Context).resolve program).classes.info? "A" = some j ∧
    (({} : Context).resolve program).classes.superclass? "B" = some "A" ∧
    i.Consistent ∧ i.Extends b j ∧ (∃ e, i.members.find? "x" = some e ∧ e.offset = -1) ∧
    i.members.find? "n" = some ⟨1, .method ⟨[], .int⟩, 1⟩ := by
  have hfields : ∀ c ∈ program.decls.flatMap Decl.classes, ∀ d ∈ c.fields,
      d.ty.isMethod = false := by decide
  have hb : ((({} : Context).resolve program).classes.info? "B").isSome = true := by
    decide +kernel
  have ha : ((({} : Context).resolve program).classes.info? "A").map
      (fun j ↦ (j.members.find? "x", j.members.find? "n"))
        = some (some ⟨1, .int, -1⟩, some ⟨1, .method ⟨[], .int⟩, 1⟩) := by decide +kernel
  have hs : (({} : Context).resolve program).classes.superclass? "B" = some "A" := by
    decide +kernel
  obtain ⟨i, hi⟩ := Option.isSome_iff_exists.1 hb
  obtain ⟨hconsistent, hextends⟩ := Context.classes_consistent hfields hi
  obtain ⟨c, j, hc, hj, hij⟩ := hextends "A" hs
  obtain rfl : c = b := Option.some.inj (hc.symm.trans rfl)
  rw [hj] at ha
  obtain ⟨hx, hn⟩ := Prod.mk.inj (Option.some.inj ha)
  refine ⟨i, j, hi, hj, hs, hconsistent, hij, ?_, hij.entry "n" _ hn (by decide)⟩
  obtain ⟨e, he, ho, -⟩ := hij.offset "x" _ hx fun ty hty ↦ by
    obtain rfl : Ty.bool = ty := Option.some.inj hty
    rfl
  exact ⟨e, he, ho⟩

end Careless

end ObjectLet
