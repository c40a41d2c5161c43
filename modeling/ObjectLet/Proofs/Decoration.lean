import ObjectLet.Proofs.Annotations
import ObjectLet.Proofs.Compiling
import ObjectLet.Proofs.Typings

/-!
# What is known after an analysis without errors

Type checking passes over what it cannot check, and name analysis says nothing about a member of
something that is no object.  Neither goes unnoticed: if there are no errors, everything is known
about every node of a program (`Program.Decorated`).

* `Toolchain.decorates`: **a program without errors is decorated completely**, and after a name
  analysis without errors type checking does not meet a name that is unresolved.
-/

set_option autoImplicit false

namespace ObjectLet

/-! ## Places -/

/-- The declarations at some sites are given their places among the findings.  What these places are
does not matter here. -/
def Places (fs : List Finding) (sites : List Site) : Prop :=
  ∀ s ∈ sites, ∃ e, Finding.layout s.id e ∈ fs

section Places

variable {ctx : Context} {env : Env} {fs gs : List Finding} {ss ts : List Site}

theorem Places.mono (h : Places fs ss) (hsub : fs ⊆ gs) : Places gs ss := fun s hs ↦
  (h s hs).imp fun _ he ↦ hsub he

theorem Places.append (hs : Places fs ss) (ht : Places fs ts) : Places fs (ss ++ ts) :=
  List.forall_mem_append.2 ⟨hs, ht⟩

/-- Two lists of findings, one after the other, give places to the sites of both. -/
theorem Places.append' (hs : Places fs ss) (ht : Places gs ts) : Places (fs ++ gs) (ss ++ ts) :=
  List.forall_mem_append.2
    ⟨hs.mono (List.subset_append_left _ _), ht.mono (List.subset_append_right _ _)⟩

theorem Places.cons {s : Site} (hs : Places fs [s]) (ht : Places fs ss) : Places fs (s :: ss) :=
  hs.append ht

theorem places_declare (env : Env) (site : Site) (x : String) (e : Entry) :
    Places (env.declare site x e).2 [site] := by
  rw [Places, List.forall_mem_singleton, Env.declare]
  split <;> exact ⟨e, List.mem_cons_self⟩

theorem places_declareNext (env : Env) (site : Site) (x : String) (ty : Ty) :
    Places (env.declareNext site x ty).2 [site] :=
  places_declare _ _ _ _

theorem places_declareParams (env : Env) (offset : Int) (bs : List Binder) :
    Places (env.declareParams offset bs).2 (bs.map Binder.site) := by
  induction bs generalizing env offset with
  | nil => exact nofun
  | cons b bs ih =>
    exact .cons ((places_declare _ _ _ _).mono (List.subset_append_left _ _))
      ((ih _ _).mono (List.subset_append_right _ _))

namespace ClassLayout

variable {l : ClassLayout}

theorem places_addFields {bs : List Binder} (h : Recorded ctx (l.addFields bs).2) :
    Places (l.addFields bs).2 (bs.map Binder.site) := by
  induction bs generalizing l with
  | nil => exact nofun
  | cons b bs ih =>
    simp only [addFields, recorded_append] at h ⊢
    have hfield : Places (l.addField b).2 [b.site] := by
      rw [addField_eq (addField_new h.1), Places, List.forall_mem_singleton]
      exact ⟨_, List.mem_cons_self⟩
    exact .cons (hfield.mono (List.subset_append_left _ _))
      ((ih h.2).mono (List.subset_append_right _ _))

theorem places_addMethods {ms : List FunDecl} (h : Recorded ctx (l.addMethods ms).2) :
    Places (l.addMethods ms).2 (ms.map FunDecl.site) := by
  induction ms generalizing l with
  | nil => exact nofun
  | cons f ms ih =>
    simp only [addMethods, recorded_append] at h ⊢
    have hmethod : Places (l.addMethod f).2 [f.site] := by
      rw [addMethod_eq (addMethod_new h.1), Places, List.forall_mem_singleton]
      exact ⟨_, List.mem_cons_self⟩
    exact .cons (hmethod.mono (List.subset_append_left _ _))
      ((ih h.2).mono (List.subset_append_right _ _))

theorem places_ofDecl {base : ClassInfo} {c : ClassDecl} (h : Recorded ctx (ofDecl base c).2) :
    Places (ofDecl base c).2 (c.fields.map Binder.site ++ c.methods.map FunDecl.site) := by
  simp only [ofDecl, recorded_append] at h ⊢
  exact .append ((places_addFields h.1).mono (List.subset_append_left _ _))
    ((places_addMethods h.2).mono (List.subset_append_right _ _))

end ClassLayout

theorem places_declareClass (hlevel : env.level = 0) (c : ClassDecl) (superclass : Option String)
    (info : ClassInfo) : Places (env.declareClass c superclass info).2 [c.site] := by
  rw [Env.declareClass, if_pos hlevel]
  exact places_declareNext _ _ _ _

/-- A class without errors has its place, and so have its members. -/
theorem places_classHead {c : ClassDecl} (h : Recorded ctx (env.classHead c).2.2) :
    Places (env.classHead c).2.2
      (c.site :: (c.fields.map Binder.site ++ c.methods.map FunDecl.site)) := by
  have hdecl := places_declareClass (Env.classHead_of_recorded h).1 c (env.superclass c).1
    (ClassLayout.ofDecl (env.superclass c).2.1 c).1.info
  rw [Env.classHead_eq] at h ⊢
  simp only [recorded_append] at h
  exact .cons (hdecl.mono fun f hf ↦ by simp [hf])
    ((ClassLayout.places_ofDecl h.1.1.2).mono fun f hf ↦ by simp [hf])

theorem Decl.places_all {ds : List Decl}
    (ih : ∀ d ∈ ds, ∀ env, Recorded ctx (d.resolve env).2 → Places (d.resolve env).2 d.sites)
    (h : Recorded ctx (Decl.resolveAll env ds).2) :
    Places (Decl.resolveAll env ds).2 (ds.flatMap Decl.sites) := by
  induction ds generalizing env with
  | nil => exact nofun
  | cons d ds ih' =>
    rw [List.forall_mem_cons] at ih
    simp only [Decl.resolveAll, recorded_append] at h ⊢
    exact ((ih.1 env h.1).mono (List.subset_append_left _ _)).append
      ((ih' ih.2 h.2).mono (List.subset_append_right _ _))

theorem FunDecl.places {f : FunDecl}
    (ih : ∀ d ∈ f.locals, ∀ env, Recorded ctx (d.resolve env).2 → Places (d.resolve env).2 d.sites)
    (h : Recorded ctx (f.resolveBody env)) :
    Places (f.resolveBody env) (f.params.map Binder.site ++ f.locals.flatMap Decl.sites) := by
  rw [FunDecl.resolveBody_eq, recorded_append, recorded_append] at h
  rw [FunDecl.resolveBody_eq]
  exact ((places_declareParams _ _ _).append' (Decl.places_all ih h.1.2)).mono
    (List.subset_append_left _ _)

/-- **All declarations inside a declaration without errors have their places.** Each of them is laid
out when it is gone through. -/
theorem Decl.places (d : Decl) :
    ∀ env, Recorded ctx (d.resolve env).2 → Places (d.resolve env).2 d.sites := by
  induction d using Decl.induction with
  | var site x ty e =>
    intro env h
    exact (places_declareNext _ _ _ _).mono (List.subset_append_right _ _)
  | func f ih =>
    intro env h
    simp only [Decl.resolve, recorded_append] at h ⊢
    rw [Decl.sites, FunDecl.sites_eq]
    have hdecl := places_declareNext env f.site f.name (.arrow f.signature)
    exact .append' (hdecl.mono (List.subset_append_right _ _)) (FunDecl.places ih h.2)
  | cls c ih =>
    intro env h
    simp only [Decl.resolve, ClassDecl.resolve_eq, recorded_append] at h ⊢
    rw [Decl.sites, ClassDecl.sites_eq]
    have hhead := (places_classHead h.1).mono
      (List.subset_append_left _ (FunDecl.resolveBodies (env.classHead c).2.1 c.methods))
    intro s hs
    rcases List.mem_cons.1 hs with rfl | hs
    · exact hhead _ List.mem_cons_self
    · rw [List.mem_append, List.mem_flatMap] at hs
      rcases hs with hs | ⟨f, hf, hs⟩
      · exact hhead s (List.mem_cons_of_mem _ (List.mem_append_left _ hs))
      · rw [FunDecl.sites_eq] at hs
        rcases List.mem_cons.1 hs with rfl | hs
        · exact hhead f.site (List.mem_cons_of_mem _ (List.mem_append_right _
            (List.mem_map.2 ⟨f, hf, rfl⟩)))
        · have hbody := FunDecl.places (ih f hf) (recorded_resolveBodies h.2 f hf)
          refine (hbody.mono fun r hr ↦ List.mem_append_right _ ?_) s hs
          rw [FunDecl.resolveBodies_eq]
          exact List.mem_flatMap.2 ⟨f, hf, hr⟩

theorem Program.places {p : Program} {t : ClassTable} (h : Recorded ctx (p.resolve t).2) :
    Places (p.resolve t).2 p.sites := by
  cases p with
  | letIn line ds body =>
    simp only [Program.resolve, recorded_append] at h ⊢
    exact (Decl.places_all (fun d _ ↦ d.places) h.1).mono (List.subset_append_left _ _)
  | bare body => exact fun _ hs ↦ absurd hs List.not_mem_nil

end Places

/-! ## Uses of names -/

/-- Whether an expression uses a name, which may be that of an object or of a class. -/
def Expr.usesName : Expr → Bool
  | .ident _ _ | .call _ _ _ | .field _ _ _ | .invoke _ _ _ _ | .new _ _ _ => true
  | _ => false

/-- Whether an expression uses a member of an object. -/
def Expr.usesMember : Expr → Bool
  | .field _ _ _ | .invoke _ _ _ _ => true
  | _ => false

section Uses

open Checked

variable {ctx : Context} {site : Site} {x : String} {ty : Ty}

theorem resolution_of_checkReceiver {u : Unit} (h : (ctx.checkReceiver site x).result = .ok u) :
    ∃ r, ctx.resolutions.find? site.id = some r := by
  obtain ⟨r, hr, -⟩ := result_bind.1 h
  exact ⟨r, result_resolved.1 hr⟩

/-- The name in an expression that has a type is resolved. -/
theorem Expr.resolution_of_check {e : Expr} (hname : e.usesName = true)
    (h : (e.check ctx).result = .ok ty) : ∃ r, ctx.resolutions.find? e.site.id = some r := by
  cases e with
  | ident site x =>
    obtain ⟨r, hr, -⟩ := result_bind.1 h
    exact ⟨r, result_resolved.1 hr⟩
  | call site f args =>
    obtain ⟨r, hr, -⟩ := result_bind.1 h
    exact ⟨r, result_resolved.1 hr⟩
  | field site x f =>
    obtain ⟨u, hu, -⟩ := result_bind.1 h
    exact resolution_of_checkReceiver hu
  | invoke site x m args =>
    obtain ⟨u, hu, -⟩ := result_bind.1 h
    exact resolution_of_checkReceiver hu
  | new site c args =>
    obtain ⟨s, hs, -⟩ := result_bind.1 h
    obtain ⟨r, hr, -⟩ := result_bind.1 hs
    exact ⟨r, result_resolved.1 hr⟩
  | _ => cases hname

/-- The member in an expression that has a type is found. -/
theorem Expr.member_of_check {e : Expr} (hmember : e.usesMember = true)
    (h : (e.check ctx).result = .ok ty) : ∃ m, ctx.members.find? e.site.id = some m := by
  cases e with
  | field site x f =>
    obtain ⟨u, -, h⟩ := result_bind.1 h
    obtain ⟨m, hm, -⟩ := result_bind.1 h
    exact ⟨m, result_resolved.1 hm⟩
  | invoke site x m args =>
    obtain ⟨u, -, h⟩ := result_bind.1 h
    obtain ⟨m, hm, -⟩ := result_bind.1 h
    exact ⟨m, result_resolved.1 hm⟩
  | _ => cases hmember

end Uses

/-! ## Complete decoration -/

/-- Everything is known about every node of a program, and what the context tells is what the
analyses have found there. -/
structure Program.Decorated (ctx : Context) (p : Program) : Prop where
  /-- Every expression has a type, which is the one that type checking finds for it. -/
  types : ∀ u ∈ p.nodes, ∃ ty, ctx.types.find? u.site.id = some ty ∧
    (u.check p.resolved).result = .ok ty
  /-- Every name that is used is resolved. -/
  resolutions : ∀ u ∈ p.nodes, u.usesName = true → ∃ r, ctx.resolutions.find? u.site.id = some r
  /-- Every member that is used is found. -/
  members : ∀ u ∈ p.nodes, u.usesMember = true → ∃ m, ctx.members.find? u.site.id = some m
  /-- Every declaration has its place. -/
  layouts : ∀ s ∈ p.sites, ∃ e, ctx.layouts.find? s.id = some e
  /-- The types of expressions refer to registered classes. -/
  classes : ∀ u ∈ p.nodes, ∀ c, ctx.types.find? u.site.id = some (.ref c) →
    ctx.classes.contains c = true

section Analysis

variable {t : Toolchain} {p : Program}

theorem types_addFindings (ctx : Context) (fs : List Finding) :
    (ctx.addFindings fs).types = ctx.types := by
  induction fs generalizing ctx with
  | nil => rfl
  | cons f fs ih =>
    rw [Context.addFindings, List.foldl_cons, ← Context.addFindings, ih]
    cases f <;> rfl

theorem Toolchain.scope_eq_zero_iff :
    (t.analyze p).counts.scope = 0 ↔ scopeErrors (p.resolve .empty).2 = [] := by
  rw [Toolchain.counts_eq]
  exact List.length_eq_zero_iff

theorem Toolchain.types_eq_zero_iff :
    (t.analyze p).counts.types = 0 ↔ typeErrors (p.check p.resolved).remarks = [] := by
  rw [Toolchain.counts_eq]
  exact List.length_eq_zero_iff

theorem Toolchain.log_analyze :
    (t.analyze p).log = (p.resolve .empty).2.filterMap Finding.event?
      ++ [.scopesResolved p.resolved.scopeErrors.length (p.resolve .empty).1.size]
      ++ (p.check p.resolved).remarks.filterMap Remark.event?
      ++ [.typesChecked (t.analyze p).context.typeErrors.length
          (t.analyze p).mainType.toOption, .analysed (t.analyze p).counts] := rfl

/-- What is logged when a check is given up on account of an unresolved name.  There are two such
events, since methods have one of their own. -/
def Event.GivesUp : Event → Prop
  | .declarationUnresolved _ _ | .methodSkipped _ _ (.unresolved _) => True
  | _ => False

/-- A check that is given up is logged only if there is a remark on it. -/
theorem Toolchain.exists_remark_of_givesUp {e : Event} (he : e ∈ (t.analyze p).log)
    (hgives : e.GivesUp) : ∃ r ∈ (p.check p.resolved).remarks, r.GivesUp := by
  rw [Toolchain.log_analyze] at he
  simp only [List.mem_append, List.mem_filterMap, List.mem_cons, List.not_mem_nil, or_false] at he
  obtain ((⟨f, -, hf⟩ | rfl) | ⟨r, hr, hre⟩) | rfl | rfl := he
  · cases f <;> cases hf
    exact hgives.elim
  · exact hgives.elim
  · refine ⟨r, hr, ?_⟩
    cases r with
    | skippedMethod c m err => cases hre; cases err <;> exact hgives
    | _ => cases hre <;> exact hgives
  · exact hgives.elim
  · exact hgives.elim

section Settled

variable (hids : p.ids.Nodup) (hscope : scopeErrors (p.resolve .empty).2 = [])

include hids hscope

/-- After a name analysis without errors no check meets an unresolved name. -/
theorem Program.check_resolves : ∀ u ∈ p.nodes, (u.check p.resolved).Resolves := by
  intro u hu
  obtain ⟨env, hknown, hrec⟩ := Program.settled_nodes (p.recorded_resolved hids hscope)
    (classes_addFindings _ _) u hu
  exact u.check_resolves hknown.within hrec

theorem Program.check_resolves_roots : ∀ e ∈ p.roots, (e.check p.resolved).Resolves :=
  fun e he ↦ p.check_resolves hids hscope e (List.mem_flatMap.2 ⟨e, he, e.mem_nodes_self⟩)

/-- If there are no errors at all, every expression has a type. -/
theorem Program.result_nodes (htypes : typeErrors (p.check p.resolved).remarks = []) :
    ∀ u ∈ p.nodes, ∃ ty, (u.check p.resolved).result = .ok ty ∧
      .typed u.site.id ty ∈ (p.check p.resolved).remarks := by
  intro u hu
  obtain ⟨e, he, hu⟩ := List.mem_flatMap.1 hu
  have hnone : typeErrors (e.check p.resolved).remarks = [] := by
    rw [typeErrors, List.filterMap_eq_nil_iff] at htypes ⊢
    exact fun r hr ↦ htypes r (p.noted_check e he hr)
  obtain ⟨ty, hty⟩ := (e.check_accounts p.resolved).exists_ok
    (p.check_resolves_roots hids hscope e he) hnone
  obtain ⟨t, ht, htyped⟩ := Expr.result_nodes hty u hu
  exact ⟨t, ht, p.noted_check e he htyped⟩

/-- The type that is recorded for an expression is the one that type checking finds for it. -/
theorem Program.types_eq (htypes : typeErrors (p.check p.resolved).remarks = []) :
    ∀ u ∈ p.nodes, ∃ ty, (u.check p.resolved).result = .ok ty ∧
      (p.resolved.addRemarks (p.check p.resolved).remarks).types.find? u.site.id = some ty := by
  intro u hu
  obtain ⟨ty, hty, htyped⟩ := p.result_nodes hids hscope htypes u hu
  have hfresh : p.resolved.types.find? u.site.id = none := by
    rw [Program.resolved, types_addFindings]
    rfl
  obtain ⟨ty', hfound, htyped'⟩ := exists_type_addRemarks hfresh htyped
  obtain ⟨v, hv, hid, hty'⟩ := Program.exists_node_of_typed htyped'
  obtain rfl := Program.eq_of_id_eq hids hv hu hid
  obtain rfl := Except.ok.inj (hty.symm.trans hty')
  exact ⟨ty, hty, hfound⟩

end Settled

/-- **A program without errors is decorated completely**: its expression has a type, every
expression in it has the type that type checking finds for it, every name and member is resolved,
every declaration has its place, and types refer to registered classes.  If there are no errors in
its names, type checking never meets an unresolved one. -/
theorem Toolchain.decorates (hids : p.ids.Nodup) (hscope : (t.analyze p).counts.scope = 0) :
    ((t.analyze p).counts.types = 0 →
      (∃ ty, (t.analyze p).mainType = .ok ty) ∧ p.Decorated (t.analyze p).context) ∧
    (∀ line, (t.analyze p).mainType ≠ .error (.unresolved line)) ∧
    (∀ u ∈ p.nodes, ∀ line, (u.check p.resolved).result ≠ .error (.unresolved line)) ∧
    ∀ e ∈ (t.analyze p).log, ¬ e.GivesUp := by
  rw [Toolchain.scope_eq_zero_iff] at hscope
  have hbody : p.body ∈ p.nodes := List.mem_flatMap.2
    ⟨p.body, List.mem_append_right _ (List.mem_singleton_self _), p.body.mem_nodes_self⟩
  refine ⟨fun htypes ↦ ?_, p.check_resolves hids hscope p.body hbody, p.check_resolves hids hscope,
    fun e he hgives ↦ ?_⟩
  · rw [Toolchain.types_eq_zero_iff] at htypes
    have hrec := p.recorded_resolved hids hscope
    have htyped := p.types_eq hids hscope htypes
    have hup : p.resolved.classes.Upward := by
      rw [Program.resolved, classes_addFindings, p.classes_resolve]
      exact ClassTable.upward_declareAll _
    obtain ⟨hresolutions, hmembers, hlayouts, hclasses⟩ := t.knows p
    refine ⟨(htyped p.body hbody).imp fun ty hty ↦ hty.1, ⟨fun u hu ↦ ?_, fun u hu hname ↦ ?_,
      fun u hu hmember ↦ ?_, fun s hs ↦ ?_, fun u hu c hc ↦ ?_⟩⟩
    · obtain ⟨ty, hty, hfound⟩ := htyped u hu
      exact ⟨ty, hfound, hty⟩
    · obtain ⟨ty, hty, -⟩ := htyped u hu
      exact hresolutions ▸ u.resolution_of_check hname hty
    · obtain ⟨ty, hty, -⟩ := htyped u hu
      exact hmembers ▸ u.member_of_check hmember hty
    · obtain ⟨e, he⟩ := Program.places hrec s hs
      exact ⟨e, hlayouts ▸ hrec _ he⟩
    · obtain ⟨ty, hty, hfound⟩ := htyped u hu
      obtain rfl := Option.some.inj (hc.symm.trans hfound)
      have hsettled := Program.settled_nodes hrec (classes_addFindings _ _) u hu
      exact hclasses ▸ Ty.known_ref.1 (hsettled.known_check hup hty)
  · obtain ⟨r, hr, hgives⟩ := Toolchain.exists_remark_of_givesUp he hgives
    exact Program.not_givesUp (p.check_resolves_roots hids hscope) hr hgives

end Analysis

/-- The function `f` reads the field `x` of an object of `C` and passes it to the method `m`. -/
def passing : Program :=
  let c : ClassDecl := ⟨⟨5, 1⟩, "C", none, [⟨⟨0, 1⟩, "x", .int⟩],
    [⟨⟨4, 1⟩, "m", .int, [⟨⟨1, 1⟩, "y", .int⟩], [],
      .arith ⟨3, 1⟩ .add (.ident ⟨2, 1⟩ "x") (.ident ⟨6, 1⟩ "y")⟩]⟩
  let f : FunDecl := ⟨⟨12, 2⟩, "f", .int, [⟨⟨7, 2⟩, "d", .ref "C"⟩],
    [.var ⟨9, 2⟩ "z" .int (.field ⟨8, 2⟩ "d" "x")], .invoke ⟨11, 2⟩ "d" "m" [.ident ⟨10, 2⟩ "z"]⟩
  .letIn 1 [.cls c, .func f] (.call ⟨15, 3⟩ "f" [.new ⟨14, 3⟩ "C" [.int ⟨13, 3⟩ 1]])

/-- Everything is known about the nine expressions and seven declarations of the program. -/
theorem passing_decorated : passing.ids.Nodup ∧
    (({} : Toolchain).analyze passing).counts.scope = 0 ∧
    (({} : Toolchain).analyze passing).counts.types = 0 ∧
    passing.nodes.length = 9 ∧ passing.sites.length = 7 ∧
    passing.Decorated (({} : Toolchain).analyze passing).context :=
  ⟨by decide, by decide +kernel, by decide +kernel, by decide, by decide,
    ((Toolchain.decorates (t := {}) (p := passing) (by decide) (by decide +kernel)).1
      (by decide +kernel)).2⟩

end ObjectLet
