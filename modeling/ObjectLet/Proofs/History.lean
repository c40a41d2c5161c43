import Mathlib.Data.List.Perm.Subperm
import ObjectLet.Proofs.Ancestry
import ObjectLet.Proofs.Annotations
import ObjectLet.Proofs.Members

/-!
# The history of the registered classes

Several programs can be analysed one after the other in the same context, and classes of earlier
ones are known in later ones.  `Context.tables` lists all tables of classes that there are on the
way, from one global declaration to the next.

What is once in a table stays as it is, and a class is registered when its superclass is
registered already.  This is why no class is above itself (`ClassTable.acyclic_declareAll`),
whichever classes a program declares to extend themselves or each other, and why searches in the
hierarchy come to an end.

* `ClassTable.Rooted`: every way up from a class ends, before there are more classes on
  it than in the table.
* `ClassTable.rooted_declareAll`: **every table that comes about by declaring classes is rooted.**
* `Context.tables_settled`: **what has been registered never changes, superclasses are registered
  before the classes that extend them, and all tables on the way are rooted.**
-/

set_option autoImplicit false

namespace ObjectLet

/-! ## Tables in the order of time -/

/-- The tables of classes before each of several declarations and after the last one. -/
def Decl.tables (env : Env) : List Decl → List ClassTable
  | [] => [env.classes]
  | d :: ds => env.classes :: Decl.tables (d.resolve env).1 ds

/-- The tables of classes in the course of a program, given the classes known before.  There is one
before each global declaration and one in the end. -/
def Program.tables (t : ClassTable) : Program → List ClassTable
  | .letIn _ decls _ => Decl.tables ⟨.push .empty ∅, t, firstDeclOffset⟩ decls
  | .bare _ => [t]

/-- The tables of classes in the course of several programs that are analysed one after the other in
one context. -/
def Context.tables (ctx : Context) : List Program → List ClassTable
  | [] => [ctx.classes]
  | p :: ps => p.tables ctx.classes ++ (ctx.resolve p).tables ps

namespace ClassTable

/-- Tables from a first to a last one, each the same as the one before or with one more
declaration of a class. -/
inductive Grows : ClassTable → List ClassTable → ClassTable → Prop
  | one (t : ClassTable) : Grows t [t] t
  | same {t v : ClassTable} {l : List ClassTable} (h : Grows t l v) : Grows t (t :: l) v
  | declare {t v : ClassTable} {l : List ClassTable} (c : ClassDecl) (h : Grows (t.declare c) l v) :
      Grows t (t :: l) v

namespace Grows

variable {t u v : ClassTable} {l m : List ClassTable} {x s : String}

theorem append (h : Grows t l u) (h' : Grows u m v) : Grows t (l ++ m) v := by
  induction h with
  | one t => exact h'.same
  | same _ ih => exact (ih h').same
  | declare c _ ih => exact (ih h').declare c

theorem getLast?_eq (h : Grows t l v) : l.getLast? = some v := by
  induction h with
  | one t => rfl
  | same _ ih | declare _ _ ih => rw [List.getLast?_cons, ih, Option.getD_some]

/-- What is registered first stays. -/
theorem within (h : Grows t l v) : ∀ u ∈ l, t.Within u := by
  induction h with
  | one t =>
    intro u hu
    rw [List.mem_singleton.1 hu]
    exact .refl t
  | same _ ih =>
    intro u hu
    rcases List.mem_cons.1 hu with rfl | hu
    · exact .refl u
    · exact ih u hu
  | @declare t _ _ c _ ih =>
    intro u hu
    rcases List.mem_cons.1 hu with rfl | hu
    · exact .refl u
    · exact (t.within_declare c).trans (ih u hu)

/-- **What is registered at any time stays**, with the same members and the same superclass. -/
theorem pairwise_within (h : Grows t l v) : l.Pairwise Within := by
  induction h with
  | one t => exact List.pairwise_singleton _ t
  | same h ih => exact List.pairwise_cons.2 ⟨h.within, ih⟩
  | @declare t _ _ c h ih =>
    exact List.pairwise_cons.2 ⟨fun u hu ↦ (t.within_declare c).trans (h.within u hu), ih⟩

/-- All tables come about by declaring classes in the first one. -/
theorem exists_declareAll (h : Grows t l v) : ∀ u ∈ l, ∃ cs, u = t.declareAll cs := by
  induction h with
  | one t =>
    intro u hu
    exact ⟨[], List.mem_singleton.1 hu⟩
  | same _ ih =>
    intro u hu
    rcases List.mem_cons.1 hu with rfl | hu
    · exact ⟨[], rfl⟩
    · exact ih u hu
  | declare c _ ih =>
    intro u hu
    rcases List.mem_cons.1 hu with rfl | hu
    · exact ⟨[], rfl⟩
    · obtain ⟨cs, hcs⟩ := ih u hu
      exact ⟨c :: cs, hcs⟩

/-- **A superclass is registered before the class that extends it**, if that does not extend it from
the beginning. -/
theorem exists_earlier (h : Grows t l v) : ∀ u ∈ l, u.superclass? x = some s →
    t.superclass? x = some s ∨ ∃ w ∈ l, w.contains s = true ∧ w.contains x = false := by
  induction h with
  | one t =>
    intro u hu hs
    rw [List.mem_singleton.1 hu] at hs
    exact .inl hs
  | same _ ih =>
    intro u hu hs
    rcases List.mem_cons.1 hu with rfl | hu
    · exact .inl hs
    · rcases ih u hu hs with hs | ⟨w, hw, hbefore⟩
      · exact .inl hs
      · exact .inr ⟨w, List.mem_cons_of_mem _ hw, hbefore⟩
  | @declare t _ _ c _ ih =>
    intro u hu hs
    rcases List.mem_cons.1 hu with rfl | hu
    · exact .inl hs
    · rcases ih u hu hs with hs | ⟨w, hw, hbefore⟩
      · rw [superclass?_declare, Option.or_eq_some_iff] at hs
        rcases hs with hs | ⟨-, hs⟩
        · exact .inl hs
        · -- the class is registered here, over what is in the table already
          split at hs
          · rename_i hx
            refine .inr ⟨t, List.mem_cons_self, (Option.filter_eq_some_iff.1 hs).2, ?_⟩
            rw [contains_eq_isSome, hx.2]
            rfl
          · cases hs
      · exact .inr ⟨w, List.mem_cons_of_mem _ hw, hbefore⟩

end Grows

end ClassTable

theorem Decl.grows_tables {env : Env} (h : env.level = 0) (ds : List Decl) :
    ClassTable.Grows env.classes (Decl.tables env ds) (Decl.resolveAll env ds).1.classes := by
  induction ds generalizing env with
  | nil => exact .one _
  | cons d ds ih =>
    have hrest := ih ((d.level_resolve env).trans h)
    rw [d.classes_resolve h] at hrest
    cases d with
    | var site x ty e => exact hrest.same
    | func f => exact hrest.same
    | cls c => exact hrest.declare c

theorem Program.grows_tables (t : ClassTable) (p : Program) :
    ClassTable.Grows t (p.tables t) (p.resolve t).1 := by
  cases p with
  | letIn line ds body =>
    have hlevel : Env.level ⟨.push .empty ∅, t, firstDeclOffset⟩ = 0 := rfl
    exact Decl.grows_tables hlevel ds
  | bare body => exact .one t

theorem Context.grows_tables (ctx : Context) (ps : List Program) :
    ClassTable.Grows ctx.classes (ctx.tables ps) (ps.foldl Context.resolve ctx).classes := by
  induction ps generalizing ctx with
  | nil => exact .one _
  | cons p ps ih =>
    have hfirst := p.grows_tables ctx.classes
    rw [p.classes_resolve, ← ctx.classes_resolve] at hfirst
    exact hfirst.append (ih (ctx.resolve p))

/-! ## Tables without cycles -/

namespace ClassTable

variable {t : ClassTable} {cs : List ClassDecl} {x s : String}

theorem contains_declareAll_iff :
    (empty.declareAll cs).contains x = true ↔ ∃ c ∈ cs, c.name = x := by
  rw [contains_eq_isSome, ← not_iff_not, Bool.not_eq_true, Option.isSome_eq_false_iff,
    Option.isNone_iff_eq_none, info?_declareAll_eq_none_iff]
  simp [info?, empty]

/-- A superclass is declared before the class that extends it. -/
theorem findIdx_lt_of_superclass? (hs : (empty.declareAll cs).superclass? x = some s) :
    cs.findIdx (fun c ↦ c.name = s) < cs.findIdx (fun c ↦ c.name = x) := by
  induction cs using List.reverseRecOn with
  | nil => cases hs
  | append_singleton cs c ih =>
    have hlt : cs.findIdx (fun c ↦ c.name = s) < cs.findIdx (fun c ↦ c.name = x) ∨
        cs.findIdx (fun c ↦ c.name = s) < cs.length ∧
          cs.findIdx (fun c ↦ c.name = x) = cs.length := by
      rw [declareAll_append, declareAll_cons, declareAll_nil, superclass?_declare,
        Option.or_eq_some_iff] at hs
      rcases hs with hs | ⟨-, hs⟩
      · exact .inl (ih hs)
      · split at hs
        · rename_i hx
          obtain ⟨-, hcontains⟩ := Option.filter_eq_some_iff.1 hs
          obtain ⟨d, hd, hname⟩ := contains_declareAll_iff.1 hcontains
          refine .inr ⟨List.findIdx_lt_length.2 ⟨d, hd, decide_eq_true hname⟩,
            List.findIdx_eq_length.2 fun d hd ↦ decide_eq_false ?_⟩
          exact hx.1 ▸ (info?_declareAll_eq_none_iff.1 hx.2).2 d hd
        · cases hs
    have hle : cs.findIdx (fun c ↦ c.name = x) ≤ cs.length := List.findIdx_le_length
    rw [List.findIdx_append, List.findIdx_append]
    split <;> split <;> omega

/-- **No registered class is above itself.** Its superclass was there before it, and so on
upwards. -/
theorem acyclic_declareAll (cs : List ClassDecl) : (empty.declareAll cs).hierarchy.Acyclic :=
  Hierarchy.acyclic_of_rank (fun x ↦ cs.findIdx fun c ↦ c.name = x)
    fun _ _ hs ↦ findIdx_lt_of_superclass? hs

/-- Every way up from a class ends, before there are more classes on it than in the table. -/
structure Rooted (t : ClassTable) : Prop where
  /-- Only registered classes have superclasses, and these are registered. -/
  registered : ∀ x s, t.superclass? x = some s → t.contains x = true ∧ t.contains s = true
  /-- No class is met twice on the way up from a registered one, however far it is followed. -/
  chain : ∀ x n, t.contains x = true →
    (t.hierarchy.ancestors n x).Nodup ∧ (t.hierarchy.ancestors n x).length ≤ t.size
  /-- All searches in the hierarchy have an answer. -/
  decides : t.hierarchy.Decides (t.size + 1)

/-- Lists of different registered classes are not longer than the table. -/
theorem length_le_size {l : List String} (hl : l.Nodup) (hmem : ∀ x ∈ l, t.contains x = true) :
    l.length ≤ t.size := by
  have hsub : l ⊆ t.infos.keys := fun x hx ↦ Table.contains_iff_mem_keys.1 (hmem x hx)
  refine (List.subperm_of_subset hl hsub).length_le.trans_eq ?_
  rw [Table.keys, List.length_map]
  rfl

/-- **Every table that comes about by declaring classes is rooted**, whatever the classes are. -/
theorem rooted_declareAll (cs : List ClassDecl) : (empty.declareAll cs).Rooted := by
  have hacyclic := acyclic_declareAll cs
  have hup := upward_declareAll cs
  have hlinked := linked_empty.declareAll cs
  generalize empty.declareAll cs = t at hacyclic hup hlinked
  have hregistered : ∀ x s, t.superclass? x = some s → t.contains x = true := by
    intro x s hs
    rw [contains_eq_isSome, Option.isSome_iff_ne_none]
    intro hx
    rw [hlinked x hx] at hs
    cases hs
  refine ⟨fun x s hs ↦ ?_, fun x n hx ↦ ?_, hacyclic.decides (Nat.succ_le_succ ?_)⟩
  · exact ⟨hregistered x s hs, hup x s (hregistered x s hs) hs⟩
  · refine ⟨hacyclic.nodup_ancestors n x, length_le_size (hacyclic.nodup_ancestors n x) ?_⟩
    exact fun y hy ↦ (Below.of_mem_ancestors hy).contains hup hx
  · -- the classes that have a superclass are registered
    have hkeys : ∀ x ∈ t.hierarchy.links.keys, t.contains x = true := by
      intro x hx
      obtain ⟨s, hs⟩ := Option.isSome_iff_exists.1 (Table.contains_iff_mem_keys.2 hx)
      exact hregistered x s hs
    refine Nat.le_trans (Nat.le_of_eq ?_) (length_le_size t.hierarchy.links.nodup_keys hkeys)
    rw [List.length_map]
    rfl

end ClassTable

/-! ## All that has been registered -/

/-- **What has been registered never changes, superclasses are registered before the classes that
extend them, and all tables on the way are rooted**, for whatever programs are analysed one after
the other in one context. -/
theorem Context.tables_settled (ps : List Program) :
    (({} : Context).tables ps).Pairwise ClassTable.Within ∧
      (({} : Context).tables ps).getLast? = some (ps.foldl Context.resolve {}).classes ∧
      ∀ t ∈ ({} : Context).tables ps, t.Rooted ∧ ∀ x s, t.superclass? x = some s →
        ∃ u ∈ ({} : Context).tables ps, u.contains s = true ∧ u.contains x = false := by
  have hgrows := ({} : Context).grows_tables ps
  refine ⟨hgrows.pairwise_within, hgrows.getLast?_eq, fun t ht ↦ ⟨?_, fun x s hs ↦ ?_⟩⟩
  · obtain ⟨cs, rfl⟩ := hgrows.exists_declareAll t ht
    exact ClassTable.rooted_declareAll cs
  · rcases hgrows.exists_earlier t ht hs with hs | hearlier
    · cases hs
    · exact hearlier

namespace Tangled

/-- A class without members. -/
def cls (name : String) (superclass : Option String) : Decl :=
  .cls ⟨⟨1, 1⟩, name, superclass, [], []⟩

/-- The classes `A` and `B` extend each other, `C` extends itself, and inside a function a class
extends `A`. -/
def first : Program :=
  .letIn 1 [cls "A" (some "B"), cls "B" (some "A"), cls "C" (some "C"),
    .func ⟨⟨2, 1⟩, "f", .int, [], [cls "D" (some "A")], .int ⟨3, 1⟩ 0⟩] (.int ⟨4, 1⟩ 0)

/-- A second class `A` extends `B`, and `E` extends a class that is unknown. -/
def second : Program := .letIn 1 [cls "A" (some "B"), cls "E" (some "D")] (.int ⟨4, 1⟩ 0)

/-- Only `B` has a superclass afterwards, and `A` was there first. -/
theorem programs_settled :
    ([first, second].foldl Context.resolve {}).classes.infos.keys = ["A", "B", "C", "E"] ∧
      ([first, second].foldl Context.resolve {}).classes.hierarchy.links.entries = [("B", "A")] ∧
      ∃ u ∈ ({} : Context).tables [first, second],
        u.contains "A" = true ∧ u.contains "B" = false := by
  have hs : ([first, second].foldl Context.resolve {}).classes.superclass? "B" = some "A" := by
    decide +kernel
  obtain ⟨-, hlast, hall⟩ := Context.tables_settled [first, second]
  refine ⟨by decide +kernel, by decide +kernel, ?_⟩
  exact (hall _ (List.mem_of_getLast? hlast)).2 "B" "A" hs

end Tangled

end ObjectLet
