import ObjectLet.Proofs.Scoping

/-!
# New objects

What lies on the heap for an object depends on its class alone: the values of the fields in the
order in which the class has them, and the dispatch table that was built where the class is
declared.  The evaluator knows nothing of offsets and tables; it looks for a method from the class
of the object upwards.

* `Setting.Globals.nearest`: **the method that the evaluator finds is the one whose entry is in the
  dispatch table**.
* `Setting.ObjectAt.new`: **what the code of `new` puts on the heap is an object of the class**.
-/

set_option autoImplicit false

namespace ObjectLet

open Table (insertIn insertAll lookupIn)

/-! ## Members by position -/

section Positions

variable {α β : Type} {x : String} {names : List String}

/-- What is attached to a name stands at its position. -/
theorem getElem?_position {l : List (String × α)} {v : α} (h : lookupIn x l = some v) :
    (l.map Prod.snd)[position x l]? = some v := by
  induction l with
  | nil => cases h
  | cons p l ih =>
    obtain ⟨y, w⟩ := p
    rw [lookupIn] at h
    rw [position, List.map_cons, List.map_cons, List.idxOf_cons]
    by_cases hy : y = x
    · rw [if_pos hy] at h
      simpa [hy] using h
    · rw [if_neg hy] at h
      rw [beq_false_of_ne hy]
      exact ih h

theorem lookupIn_zip {vs : List α} (h : x ∈ names) :
    lookupIn x (names.zip vs) = vs[names.idxOf x]? := by
  induction names generalizing vs with
  | nil => cases h
  | cons y names ih =>
    cases vs with
    | nil => rfl
    | cons v vs =>
      rw [List.zip_cons_cons, lookupIn, List.idxOf_cons]
      by_cases hy : y = x
      · simp [hy]
      · have hx : x ∈ names := (List.mem_cons.1 h).resolve_left fun h ↦ hy h.symm
        rw [if_neg hy, ih hx, beq_false_of_ne hy]
        rfl

theorem getElem?_of_forall₂ {R : α → β → Prop} {as : List α} {bs : List β} {i : Nat} {b : β}
    (h : List.Forall₂ R as bs) (hb : bs[i]? = some b) : ∃ a, as[i]? = some a ∧ R a b := by
  induction h generalizing i with
  | nil => cases hb
  | @cons a b' as bs hR _ ih =>
    cases i with
    | zero => exact ⟨a, rfl, Option.some.inj hb ▸ hR⟩
    | succ i => exact ih hb

end Positions

/-! ## The nearest declaration of a method -/

/-- A method of a class has the signature of its nearest declaration. -/
theorem lookupIn_membersOf {cs : List ClassDecl} (h : ∀ c ∈ cs, c.methodNames.Nodup)
    (x cls : String) : lookupIn x (membersOf ClassDecl.ownMethods cs cls)
      = (nearestMethod x cs cls).map FunDecl.signature := by
  have hown : ∀ fs : List FunDecl, lookupIn x (fs.map fun f ↦ (f.name, f.signature))
      = (fs.find? fun f ↦ f.name = x).map FunDecl.signature := by
    intro fs
    induction fs with
    | nil => rfl
    | cons f fs ih =>
      rw [List.map_cons, lookupIn, List.find?_cons]
      by_cases hf : f.name = x
      · simp [hf]
      · simp [hf, ih]
  induction cs generalizing cls with
  | nil => rfl
  | cons c older ih =>
    have hold := ih fun d hd ↦ h d (List.mem_cons_of_mem _ hd)
    rw [membersOf_cons, nearestMethod]
    by_cases hc : c.name = cls
    · have hnd : (c.ownMethods.map Prod.fst).Nodup :=
        c.map_fst_ownMethods ▸ h c List.mem_cons_self
      rw [if_pos hc, if_pos hc, Table.lookupIn_insertAll hnd, ClassDecl.ownMethods, hown,
        inheritedOf]
      cases c.methods.find? fun f ↦ f.name = x with
      | some f => rfl
      | none =>
        cases c.superclass with
        | none => rfl
        | some s => exact hold s
    · rw [if_neg hc, if_neg hc]
      exact hold cls

section Names

variable {ctx : Context} {env : Env} {L : Layer}

/-- The fields of a class as the evaluator finds them. -/
theorem Env.Global.fieldNames_eq (h : env.Global ctx L.classes) (cls : String) :
    L.fieldNames cls = (membersOf ClassDecl.ownFields L.classes cls).map Prod.fst := by
  have hnd := h.classes.nodup_names
  rw [map_fst_membersOf fun d hd ↦ d.map_fst_ownFields ▸ (hnd d hd).1]
  simp only [ClassDecl.map_fst_ownFields]
  rfl

/-- The methods of a class as the evaluator finds them. -/
theorem Env.Global.methodNames_eq (h : env.Global ctx L.classes) (cls : String) :
    L.methodNames cls = (membersOf ClassDecl.ownMethods L.classes cls).map Prod.fst := by
  have hnd := h.classes.nodup_names
  rw [map_fst_membersOf fun d hd ↦ d.map_fst_ownMethods ▸ (hnd d hd).2]
  simp only [ClassDecl.map_fst_ownMethods]
  rfl

end Names

namespace Setting

variable {S : Setting} {w : Space} {env : Env} {L : Layer} {c : ClassDecl} {x : String}

/-- The global declarations up to that of a class are what is around its methods. -/
theorem Globals.home (older : S.Globals w env L)
    (all : S.Globals w (c.resolve env).1 ((c.name, .cls c) :: L)) (accepts : env.Accepts S.ctx c) :
    S.Home w (c.resolve env).1 c.name (env.classes.layout c) ((c.name, .cls c) :: L) := by
  have hinfo := (accepts.info_eq older.global.top).1
  exact ⟨all, accepts.within.info hinfo, _, _, all.global.classes.laid hinfo,
    all.global.fieldNames_eq c.name, all.global.methodNames_eq c.name⟩

/-- **The method that the evaluator finds** for a class is the one that counts for its dispatch
table, and it has been accepted in the scope of its class. -/
theorem Globals.nearest {cls : String} {f : FunDecl} {l : Label} (h : S.Globals w env L)
    (hn : nearestMethod x L.classes cls = some f) (hl : EmittedAs S.target S.emission f l) :
    ∃ m, L.method? x cls = some m ∧ m.decl = f ∧ S.ctx.classes.Below cls m.cls ∧
      ∃ inside outer info, S.Home w outer m.cls info m.home ∧
        inside.scopes = outer.scopes.push info.members ∧ S.Func inside m.decl l := by
  induction h generalizing cls with
  | nil => cases hn
  | var _ _ _ _ ih => exact ih hn
  | func _ _ _ _ ih => exact ih hn
  | @cls env L c p older accepts dispatched kept table ih =>
    have all : S.Globals w (c.resolve env).1 ((c.name, .cls c) :: L) :=
      .cls older accepts dispatched kept table
    rw [Layer.classes, nearestMethod] at hn
    rw [Layer.method?]
    by_cases hc : c.name = cls
    · rw [if_pos hc] at hn ⊢
      cases hf : c.methods.find? fun f ↦ f.name = x with
      | some g =>
        rw [hf] at hn
        obtain rfl := Option.some.inj hn
        have hmem := List.mem_of_find?_eq_some hf
        obtain ⟨-, -, -, hd, hinside⟩ := Env.classHead_of_recorded accepts.head
        refine ⟨_, rfl, rfl, hc ▸ .refl _, (env.classHead c).2.1, _, _,
          older.home all accepts, ?_, ?_, accepts.bodies g hmem,
          (ClassDecl.typeErrors_check accepts.checked).1 g hmem, ?_, hl⟩
        · rw [hinside, Env.Accepts.resolve_fst]
        · rw [hinside]
          exact List.cons_ne_nil _ _
        · rw [hinside, ← Env.Accepts.resolve_fst]
          exact accepts.within
      | none =>
        rw [hf] at hn
        cases hs : c.superclass with
        | none =>
          rw [hs] at hn
          cases hn
        | some s =>
          rw [hs] at hn
          obtain ⟨m, hm, hdecl, hbelow, hinside⟩ := ih hn
          refine ⟨m, hm, hdecl, .up ?_ hbelow, hinside⟩
          rw [← hc, (accepts.info_eq older.global.top).2, hs]
    · rw [if_neg hc] at hn ⊢
      exact ih hn

/-! ## Objects on the heap -/

/-- An address some cells below another one. -/
theorem ofNat_add_ofInt_neg {a i : Nat} (h : i < a) :
    Int32.ofNat a + Int32.ofInt (-(i : Int) - 1) = Int32.ofNat (a - 1 - i) := by
  rw [← Int32.ofInt_eq_ofNat, ← Int32.ofInt_eq_ofNat, ← Int32.ofInt_add]
  congr 1
  omega

theorem getElem?_fields {heap vs rest : List Int32} {i : Nat} {v : Int32} (h : vs[i]? = some v) :
    (heap ++ vs.reverse ++ rest)[heap.length + vs.length - 1 - i]? = some v := by
  have hi : i < vs.length := (List.getElem?_eq_some_iff.1 h).1
  rw [List.append_assoc, List.getElem?_append_right (by omega),
    List.getElem?_append_left (by simp; omega), List.getElem?_reverse (by omega), ← h]
  congr 1
  omega

/-- **What is put on the heap for an object**: the values of its fields, the last of them first, and
the address of the dispatch table of its class. -/
theorem ObjectAt.new {heap vs : List Int32} {p : Int32} (older : S.Globals w env L)
    (all : S.Globals w (c.resolve env).1 ((c.name, .cls c) :: L)) (accepts : env.Accepts S.ctx c)
    (table : S.TableAt w c L.classes p) (hheap : w.heap = heap ++ vs.reverse ++ [p])
    (typed : List.Forall₂ (S.Typed w) vs (env.classes.layout c).shape.fields) :
    S.ObjectAt w (Int32.ofNat (heap.length + vs.length)) ⟨c.name, (c.name, .cls c) :: L,
      (Layer.fieldNames ((c.name, .cls c) :: L) c.name).zip vs⟩ := by
  have hinfo := (accepts.info_eq older.global.top).1
  have hlaid := all.global.classes.laid hinfo
  have hnd := all.global.classes.nodup_names
  refine ⟨⟨_, by simp [hheap], rfl⟩, _, accepts.within.info hinfo, fun y e he ↦ ?_⟩
  by_cases hneg : e.offset < 0
  · obtain ⟨hlook, hentry⟩ := hlaid.of_offset_neg he hneg
    have hpos := getElem?_position hlook
    obtain ⟨u, hu, htyped⟩ := getElem?_of_forall₂ typed (hlaid.shape_fields ▸ hpos)
    refine .field hneg (u := u) ?_ ?_ htyped
    · rw [Object.field?, all.global.fieldNames_eq, lookupIn_zip (Table.mem_keys_of_lookupIn hlook)]
      exact hu
    · have hlt := (List.getElem?_eq_some_iff.1 hu).1
      rw [hentry, ofNat_add_ofInt_neg (by omega)]
      refine .heap ?_
      rw [hheap]
      exact getElem?_fields hu
  · obtain ⟨s, hlook, hentry⟩ := hlaid.of_offset_nonneg he (by omega)
    obtain ⟨entries, hentries, hcells⟩ := table.entries
    obtain ⟨l, hl⟩ := Option.isSome_iff_exists.1 (Table.lookupIn_isSome_iff.2
      (hentries.names.symm ▸ Table.mem_keys_of_lookupIn hlook))
    obtain ⟨f, hf, hemitted⟩ := hentries.emitted y l hl
    obtain ⟨m, hm, rfl, hbelow, inside, outer, info, hhome, hscopes, hfunc⟩ :=
      all.nearest hf hemitted
    have hsig : some s = some m.decl.signature := by
      rw [← hlook, lookupIn_membersOf (fun d hd ↦ (hnd d hd).2)]
      exact congrArg (Option.map FunDecl.signature) hf
    refine .method (p := p) (l := l) (m := m) (by omega) ?_ ?_ ?_ hm
      ⟨⟨inside, outer, info, hhome, hscopes, hfunc⟩, hbelow⟩
    · rw [hentry, Option.some.inj hsig]
    · refine .heap ?_
      rw [hheap, List.getElem?_append_right (by simp)]
      simp
    · have hcell := hcells _ l (getElem?_position hl)
      rw [position_congr hentries.names, ← Int32.ofInt_eq_ofNat] at hcell
      rw [hentry]
      exact hcell

end Setting

end ObjectLet
