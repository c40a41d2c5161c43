import Mathlib.Data.List.Basic
import ObjectLet.Proofs.Findings
import ObjectLet.Proofs.Renaming.Types

/-!
# Relabelled trees

A `Relabelling` gives each node of a tree another number and another line, and each name another
name.  The new line may be any at all; it need not have to do with the old one.

The sites and names in a tree are its tags (`Program.tags`), and they are all that a relabelling
acts on: two relabellings, one after the other, do to a tree what they do to its tags
(`Program.relabel_relabel`).
-/

set_option autoImplicit false

namespace ObjectLet

/-- Other numbers, lines and names.  Nothing is asked of them here, so different nodes may
get the same number. -/
structure Relabelling where
  /-- The new number of a node. -/
  ids : NodeId → NodeId
  /-- The new line of a node. -/
  lines : Site → Nat
  /-- The new name for a name. -/
  names : String → String
  /-- The new line of a program with declarations. -/
  top : Nat → Nat

namespace Relabelling

/-- Where a node is afterwards. -/
def site (r : Relabelling) (s : Site) : Site := ⟨r.ids s.id, r.lines s⟩

/-- The relabelling that changes nothing. -/
def none : Relabelling := ⟨id, Site.line, id, id⟩

end Relabelling

/-! ## Trees -/

section Trees

variable (r : Relabelling)

mutual

/-- An expression, relabelled. -/
def Expr.relabel : Expr → Expr
  | .int s v => .int (r.site s) v
  | .bool s b => .bool (r.site s) b
  | .null s => .null (r.site s)
  | .arith s op a b => .arith (r.site s) op a.relabel b.relabel
  | .compare s op a b => .compare (r.site s) op a.relabel b.relabel
  | .logic s op a b => .logic (r.site s) op a.relabel b.relabel
  | .not s e => .not (r.site s) e.relabel
  | .cond s c a b => .cond (r.site s) c.relabel a.relabel b.relabel
  | .print s e => .print (r.site s) e.relabel
  | .ident s x => .ident (r.site s) (r.names x)
  | .call s x args => .call (r.site s) (r.names x) (Expr.relabelAll args)
  | .field s x m => .field (r.site s) (r.names x) (r.names m)
  | .invoke s x m args => .invoke (r.site s) (r.names x) (r.names m) (Expr.relabelAll args)
  | .new s c args => .new (r.site s) (r.names c) (Expr.relabelAll args)
termination_by structural e => e

/-- Several expressions, relabelled. -/
def Expr.relabelAll : List Expr → List Expr
  | [] => []
  | e :: es => e.relabel :: Expr.relabelAll es
termination_by structural es => es

end

/-- A parameter or field, relabelled. -/
def Binder.relabel (b : Binder) : Binder := ⟨r.site b.site, r.names b.name, b.ty.rename r.names⟩

mutual

/-- A declaration, relabelled. -/
def Decl.relabel : Decl → Decl
  | .var s x ty e => .var (r.site s) (r.names x) (ty.rename r.names) (e.relabel r)
  | .func f => .func f.relabel
  | .cls c => .cls c.relabel
termination_by structural d => d

/-- A function, relabelled. -/
def FunDecl.relabel : FunDecl → FunDecl
  | ⟨s, x, ret, params, locals, body⟩ =>
    ⟨r.site s, r.names x, ret.rename r.names, params.map (Binder.relabel r),
      Decl.relabelAll locals, body.relabel r⟩
termination_by structural f => f

/-- A class, relabelled. -/
def ClassDecl.relabel : ClassDecl → ClassDecl
  | ⟨s, x, superclass, fields, methods⟩ =>
    ⟨r.site s, r.names x, superclass.map r.names, fields.map (Binder.relabel r),
      FunDecl.relabelAll methods⟩
termination_by structural c => c

/-- Several declarations, relabelled. -/
def Decl.relabelAll : List Decl → List Decl
  | [] => []
  | d :: ds => d.relabel :: Decl.relabelAll ds
termination_by structural ds => ds

/-- Several functions, relabelled. -/
def FunDecl.relabelAll : List FunDecl → List FunDecl
  | [] => []
  | f :: fs => f.relabel :: FunDecl.relabelAll fs
termination_by structural fs => fs

end

/-- A program, relabelled. -/
def Program.relabel : Program → Program
  | .letIn line ds e => .letIn (r.top line) (Decl.relabelAll r ds) (e.relabel r)
  | .bare e => .bare (e.relabel r)

@[simp] theorem Expr.relabelAll_eq (es : List Expr) :
    Expr.relabelAll r es = es.map (Expr.relabel r) := by
  induction es with
  | nil => rfl
  | cons e es ih => rw [Expr.relabelAll, ih, List.map_cons]

@[simp] theorem Decl.relabelAll_eq (ds : List Decl) :
    Decl.relabelAll r ds = ds.map (Decl.relabel r) := by
  induction ds with
  | nil => rfl
  | cons d ds ih => rw [Decl.relabelAll, ih, List.map_cons]

@[simp] theorem FunDecl.relabelAll_eq (fs : List FunDecl) :
    FunDecl.relabelAll r fs = fs.map (FunDecl.relabel r) := by
  induction fs with
  | nil => rfl
  | cons f fs ih => rw [FunDecl.relabelAll, ih, List.map_cons]

@[simp] theorem Program.body_relabel (p : Program) : (p.relabel r).body = p.body.relabel r := by
  cases p <;> rfl

@[simp] theorem Program.decls_relabel (p : Program) :
    (p.relabel r).decls = Decl.relabelAll r p.decls := by
  cases p <;> rfl

end Trees

/-! ## Tags -/

/-- Something that a relabelling acts on.  What a relabelling does to a tree depends only on what it
does to the tags of the tree. -/
inductive Tag where
  /-- Where a node is. -/
  | site (s : Site)
  /-- A name. -/
  | name (x : String)
deriving DecidableEq

namespace Tag

/-- The number of a node. -/
def id? : Tag → Option NodeId
  | .site s => some s.id
  | .name _ => none

/-- A name. -/
def name? : Tag → Option String
  | .site _ => none
  | .name x => some x

end Tag

/-- A tag, relabelled. -/
def Relabelling.tag (r : Relabelling) : Tag → Tag
  | .site s => .site (r.site s)
  | .name x => .name (r.names x)

/-- The tags that are names. -/
def nameTags (xs : List String) : List Tag := xs.map .name

mutual

/-- The sites and names in an expression. -/
def Expr.tags : Expr → List Tag
  | .int s _ | .bool s _ | .null s => [.site s]
  | .arith s _ a b | .compare s _ a b | .logic s _ a b => .site s :: (a.tags ++ b.tags)
  | .not s e | .print s e => .site s :: e.tags
  | .cond s c a b => .site s :: (c.tags ++ a.tags ++ b.tags)
  | .ident s x => [.site s, .name x]
  | .call s x args | .new s x args => .site s :: .name x :: Expr.tagsAll args
  | .field s x m => [.site s, .name x, .name m]
  | .invoke s x m args => .site s :: .name x :: .name m :: Expr.tagsAll args
termination_by structural e => e

/-- The sites and names in several expressions. -/
def Expr.tagsAll : List Expr → List Tag
  | [] => []
  | e :: es => e.tags ++ Expr.tagsAll es
termination_by structural es => es

end

/-- The sites and names in a parameter or field. -/
def Binder.tags (b : Binder) : List Tag := .site b.site :: .name b.name :: nameTags b.ty.names

mutual

/-- The sites and names in a declaration. -/
def Decl.tags : Decl → List Tag
  | .var s x ty e => .site s :: .name x :: (nameTags ty.names ++ e.tags)
  | .func f => f.tags
  | .cls c => c.tags
termination_by structural d => d

/-- The sites and names in a function. -/
def FunDecl.tags : FunDecl → List Tag
  | ⟨s, x, ret, params, locals, body⟩ =>
    .site s :: .name x ::
      (nameTags ret.names ++ params.flatMap Binder.tags ++ Decl.tagsAll locals ++ body.tags)
termination_by structural f => f

/-- The sites and names in a class. -/
def ClassDecl.tags : ClassDecl → List Tag
  | ⟨s, x, superclass, fields, methods⟩ =>
    .site s :: .name x ::
      (nameTags superclass.toList ++ fields.flatMap Binder.tags ++ FunDecl.tagsAll methods)
termination_by structural c => c

/-- The sites and names in several declarations. -/
def Decl.tagsAll : List Decl → List Tag
  | [] => []
  | d :: ds => d.tags ++ Decl.tagsAll ds
termination_by structural ds => ds

/-- The sites and names in several functions. -/
def FunDecl.tagsAll : List FunDecl → List Tag
  | [] => []
  | f :: fs => f.tags ++ FunDecl.tagsAll fs
termination_by structural fs => fs

end

namespace Program

/-- The sites and names in a program. -/
def tags (p : Program) : List Tag := Decl.tagsAll p.decls ++ p.body.tags

/-- All names in a program. -/
def names (p : Program) : List String := p.tags.filterMap Tag.name?

theorem mem_names {p : Program} {x : String} : x ∈ p.names ↔ .name x ∈ p.tags := by
  rw [names, List.mem_filterMap]
  refine ⟨?_, fun h ↦ ⟨_, h, rfl⟩⟩
  rintro ⟨_ | y, ht, hx⟩
  · cases hx
  · cases hx
    exact ht

end Program

/-! ### The numbers among the tags -/

section Ids

@[simp] theorem ids_site_cons (s : Site) (ts : List Tag) :
    (Tag.site s :: ts).filterMap Tag.id? = s.id :: ts.filterMap Tag.id? := rfl

@[simp] theorem ids_name_cons (x : String) (ts : List Tag) :
    (Tag.name x :: ts).filterMap Tag.id? = ts.filterMap Tag.id? := rfl

@[simp] theorem ids_nameTags (xs : List String) : (nameTags xs).filterMap Tag.id? = [] := by
  induction xs with
  | nil => rfl
  | cons x xs ih => exact ih

mutual

theorem Expr.ids_tags : ∀ e : Expr, e.tags.filterMap Tag.id? = e.ids
  | .int _ _ | .bool _ _ | .null _ | .ident _ _ | .field _ _ _ => rfl
  | .arith _ _ a b | .compare _ _ a b | .logic _ _ a b => by
    simp [Expr.tags, Expr.ids, Expr.ids_tags a, Expr.ids_tags b]
  | .not _ e | .print _ e => by simp [Expr.tags, Expr.ids, Expr.ids_tags e]
  | .cond _ c a b => by
    simp [Expr.tags, Expr.ids, Expr.ids_tags c, Expr.ids_tags a, Expr.ids_tags b]
  | .call _ _ args | .new _ _ args | .invoke _ _ _ args => by
    simp [Expr.tags, Expr.ids, Expr.ids_tags_all args]
termination_by structural e => e

theorem Expr.ids_tags_all :
    ∀ es : List Expr, (Expr.tagsAll es).filterMap Tag.id? = Expr.idsAll es
  | [] => rfl
  | e :: es => by
    rw [Expr.tagsAll, List.filterMap_append, Expr.ids_tags e, Expr.ids_tags_all es, Expr.idsAll]
termination_by structural es => es

end

theorem Binder.ids_tags (bs : List Binder) :
    (bs.flatMap Binder.tags).filterMap Tag.id? = bs.map Binder.id := by
  induction bs with
  | nil => rfl
  | cons b bs ih => simp [Binder.tags, ih, Binder.id]

mutual

theorem Decl.ids_tags : ∀ d : Decl, d.tags.filterMap Tag.id? = d.ids
  | .var _ _ ty e => by simp [Decl.tags, Decl.ids, Expr.ids_tags]
  | .func f => FunDecl.ids_tags f
  | .cls c => ClassDecl.ids_tags c
termination_by structural d => d

theorem FunDecl.ids_tags : ∀ f : FunDecl, f.tags.filterMap Tag.id? = f.ids
  | ⟨_, _, ret, params, locals, body⟩ => by
    simp [FunDecl.tags, FunDecl.ids, Binder.ids_tags, Decl.ids_tags_all locals, Expr.ids_tags]
termination_by structural f => f

theorem ClassDecl.ids_tags : ∀ c : ClassDecl, c.tags.filterMap Tag.id? = c.ids
  | ⟨_, _, superclass, fields, methods⟩ => by
    simp [ClassDecl.tags, ClassDecl.ids, Binder.ids_tags, FunDecl.ids_tags_all methods]
termination_by structural c => c

theorem Decl.ids_tags_all :
    ∀ ds : List Decl, (Decl.tagsAll ds).filterMap Tag.id? = Decl.idsAll ds
  | [] => rfl
  | d :: ds => by
    rw [Decl.tagsAll, List.filterMap_append, Decl.ids_tags d, Decl.ids_tags_all ds, Decl.idsAll]
termination_by structural ds => ds

theorem FunDecl.ids_tags_all :
    ∀ fs : List FunDecl, (FunDecl.tagsAll fs).filterMap Tag.id? = FunDecl.idsAll fs
  | [] => rfl
  | f :: fs => by
    rw [FunDecl.tagsAll, List.filterMap_append, FunDecl.ids_tags f, FunDecl.ids_tags_all fs,
      FunDecl.idsAll]
termination_by structural fs => fs

end

/-- The numbers of the nodes of a program are those among its tags. -/
theorem Program.ids_tags (p : Program) : p.tags.filterMap Tag.id? = p.ids := by
  rw [Program.tags, List.filterMap_append, Decl.ids_tags_all, Expr.ids_tags, Program.ids]

end Ids

/-! ### One relabelling after another -/

section Composition

variable {r q w : Relabelling}

theorem Ty.rename_rename_of_tags {t : Ty}
    (h : ∀ g ∈ nameTags t.names, q.tag (r.tag g) = w.tag g) :
    (t.rename r.names).rename q.names = t.rename w.names :=
  Ty.rename_rename t fun _ hx ↦ Tag.name.inj (h _ (List.mem_map_of_mem hx))

mutual

theorem Expr.relabel_relabel :
    ∀ e : Expr, (∀ g ∈ e.tags, q.tag (r.tag g) = w.tag g) → (e.relabel r).relabel q = e.relabel w
  | .int _ _, h | .bool _ _, h | .null _, h => by
    simp only [Expr.tags, List.forall_mem_cons] at h
    simp only [Expr.relabel, Tag.site.inj h.1]
  | .ident _ _, h => by
    simp only [Expr.tags, List.forall_mem_cons] at h
    simp only [Expr.relabel, Tag.site.inj h.1, Tag.name.inj h.2.1]
  | .field _ _ _, h => by
    simp only [Expr.tags, List.forall_mem_cons] at h
    simp only [Expr.relabel, Tag.site.inj h.1, Tag.name.inj h.2.1, Tag.name.inj h.2.2.1]
  | .arith _ _ a b, h | .compare _ _ a b, h | .logic _ _ a b, h => by
    simp only [Expr.tags, List.forall_mem_cons, List.forall_mem_append] at h
    simp only [Expr.relabel, Tag.site.inj h.1, Expr.relabel_relabel a h.2.1,
      Expr.relabel_relabel b h.2.2]
  | .not _ e, h | .print _ e, h => by
    simp only [Expr.tags, List.forall_mem_cons] at h
    simp only [Expr.relabel, Tag.site.inj h.1, Expr.relabel_relabel e h.2]
  | .cond _ c a b, h => by
    simp only [Expr.tags, List.forall_mem_cons, List.forall_mem_append] at h
    simp only [Expr.relabel, Tag.site.inj h.1, Expr.relabel_relabel c h.2.1.1,
      Expr.relabel_relabel a h.2.1.2, Expr.relabel_relabel b h.2.2]
  | .call _ _ args, h | .new _ _ args, h => by
    simp only [Expr.tags, List.forall_mem_cons] at h
    simp only [Expr.relabel, Tag.site.inj h.1, Tag.name.inj h.2.1,
      Expr.relabel_relabel_all args h.2.2]
  | .invoke _ _ _ args, h => by
    simp only [Expr.tags, List.forall_mem_cons] at h
    simp only [Expr.relabel, Tag.site.inj h.1, Tag.name.inj h.2.1, Tag.name.inj h.2.2.1,
      Expr.relabel_relabel_all args h.2.2.2]
termination_by structural e => e

theorem Expr.relabel_relabel_all :
    ∀ es : List Expr, (∀ g ∈ Expr.tagsAll es, q.tag (r.tag g) = w.tag g) →
      Expr.relabelAll q (Expr.relabelAll r es) = Expr.relabelAll w es
  | [], _ => rfl
  | e :: es, h => by
    rw [Expr.tagsAll, List.forall_mem_append] at h
    simp only [Expr.relabelAll, Expr.relabel_relabel e h.1, Expr.relabel_relabel_all es h.2]
termination_by structural es => es

end

theorem Binder.relabel_relabel {bs : List Binder}
    (h : ∀ g ∈ bs.flatMap Binder.tags, q.tag (r.tag g) = w.tag g) :
    (bs.map (Binder.relabel r)).map (Binder.relabel q) = bs.map (Binder.relabel w) := by
  rw [List.map_map]
  refine List.map_congr_left fun b hb ↦ ?_
  have hb' : ∀ g ∈ b.tags, q.tag (r.tag g) = w.tag g :=
    fun g hg ↦ h g (List.mem_flatMap.2 ⟨b, hb, hg⟩)
  simp only [Binder.tags, List.forall_mem_cons] at hb'
  simp only [Function.comp, Binder.relabel, Tag.site.inj hb'.1, Tag.name.inj hb'.2.1,
    Ty.rename_rename_of_tags hb'.2.2]

mutual

theorem Decl.relabel_relabel :
    ∀ d : Decl, (∀ g ∈ d.tags, q.tag (r.tag g) = w.tag g) → (d.relabel r).relabel q = d.relabel w
  | .var _ _ ty e, h => by
    simp only [Decl.tags, List.forall_mem_cons, List.forall_mem_append] at h
    simp only [Decl.relabel, Tag.site.inj h.1, Tag.name.inj h.2.1,
      Ty.rename_rename_of_tags h.2.2.1, Expr.relabel_relabel e h.2.2.2]
  | .func f, h => congrArg Decl.func (FunDecl.relabel_relabel f h)
  | .cls c, h => congrArg Decl.cls (ClassDecl.relabel_relabel c h)
termination_by structural d => d

theorem FunDecl.relabel_relabel :
    ∀ f : FunDecl, (∀ g ∈ f.tags, q.tag (r.tag g) = w.tag g) →
      (f.relabel r).relabel q = f.relabel w
  | ⟨_, _, ret, params, locals, body⟩, h => by
    simp only [FunDecl.tags, List.forall_mem_cons, List.forall_mem_append] at h
    simp only [FunDecl.relabel, Tag.site.inj h.1, Tag.name.inj h.2.1,
      Ty.rename_rename_of_tags h.2.2.1.1.1, Binder.relabel_relabel h.2.2.1.1.2,
      Decl.relabel_relabel_all locals h.2.2.1.2, Expr.relabel_relabel body h.2.2.2]
termination_by structural f => f

theorem ClassDecl.relabel_relabel :
    ∀ c : ClassDecl, (∀ g ∈ c.tags, q.tag (r.tag g) = w.tag g) →
      (c.relabel r).relabel q = c.relabel w
  | ⟨_, _, superclass, fields, methods⟩, h => by
    simp only [ClassDecl.tags, List.forall_mem_cons, List.forall_mem_append] at h
    have hsuper : (superclass.map r.names).map q.names = superclass.map w.names := by
      cases superclass with
      | none => rfl
      | some c => exact congrArg some (Tag.name.inj (h.2.2.1.1 _ (List.mem_singleton_self _)))
    simp only [ClassDecl.relabel, Tag.site.inj h.1, Tag.name.inj h.2.1, hsuper,
      Binder.relabel_relabel h.2.2.1.2, FunDecl.relabel_relabel_all methods h.2.2.2]
termination_by structural c => c

theorem Decl.relabel_relabel_all :
    ∀ ds : List Decl, (∀ g ∈ Decl.tagsAll ds, q.tag (r.tag g) = w.tag g) →
      Decl.relabelAll q (Decl.relabelAll r ds) = Decl.relabelAll w ds
  | [], _ => rfl
  | d :: ds, h => by
    rw [Decl.tagsAll, List.forall_mem_append] at h
    simp only [Decl.relabelAll, Decl.relabel_relabel d h.1, Decl.relabel_relabel_all ds h.2]
termination_by structural ds => ds

theorem FunDecl.relabel_relabel_all :
    ∀ fs : List FunDecl, (∀ g ∈ FunDecl.tagsAll fs, q.tag (r.tag g) = w.tag g) →
      FunDecl.relabelAll q (FunDecl.relabelAll r fs) = FunDecl.relabelAll w fs
  | [], _ => rfl
  | f :: fs, h => by
    rw [FunDecl.tagsAll, List.forall_mem_append] at h
    simp only [FunDecl.relabelAll, FunDecl.relabel_relabel f h.1,
      FunDecl.relabel_relabel_all fs h.2]
termination_by structural fs => fs

end

/-- **Two relabellings, one after the other, do to a program what they do to its tags.** -/
theorem Program.relabel_relabel {p : Program} (h : ∀ g ∈ p.tags, q.tag (r.tag g) = w.tag g)
    (htop : ∀ l, q.top (r.top l) = w.top l) : (p.relabel r).relabel q = p.relabel w := by
  rw [Program.tags, List.forall_mem_append] at h
  cases p with
  | letIn l ds e =>
    simp only [Program.relabel, htop, Decl.relabel_relabel_all ds h.1, Expr.relabel_relabel e h.2]
  | bare e => exact congrArg Program.bare (Expr.relabel_relabel e h.2)

end Composition

/-! ### No change -/

mutual

theorem Expr.relabel_none : ∀ e : Expr, e.relabel .none = e
  | .int _ _ | .bool _ _ | .null _ | .ident _ _ | .field _ _ _ => rfl
  | .arith _ _ a b | .compare _ _ a b | .logic _ _ a b => by
    simp only [Expr.relabel, Expr.relabel_none a, Expr.relabel_none b]
    rfl
  | .not _ e | .print _ e => by
    simp only [Expr.relabel, Expr.relabel_none e]
    rfl
  | .cond _ c a b => by
    simp only [Expr.relabel, Expr.relabel_none c, Expr.relabel_none a, Expr.relabel_none b]
    rfl
  | .call _ _ args | .new _ _ args | .invoke _ _ _ args => by
    simp only [Expr.relabel, Expr.relabel_none_all args]
    rfl
termination_by structural e => e

theorem Expr.relabel_none_all : ∀ es : List Expr, Expr.relabelAll .none es = es
  | [] => rfl
  | e :: es => by rw [Expr.relabelAll, Expr.relabel_none e, Expr.relabel_none_all es]
termination_by structural es => es

end

theorem Ty.rename_none (t : Ty) : t.rename Relabelling.none.names = t := t.rename_id

theorem Binder.relabel_none (bs : List Binder) : bs.map (Binder.relabel .none) = bs := by
  refine List.map_id'' (fun b ↦ ?_) bs
  rw [Binder.relabel, Ty.rename_none]
  rfl

mutual

theorem Decl.relabel_none : ∀ d : Decl, d.relabel .none = d
  | .var _ _ _ e => by
    rw [Decl.relabel, Ty.rename_none, Expr.relabel_none e]
    rfl
  | .func f => congrArg Decl.func (FunDecl.relabel_none f)
  | .cls c => congrArg Decl.cls (ClassDecl.relabel_none c)
termination_by structural d => d

theorem FunDecl.relabel_none : ∀ f : FunDecl, f.relabel .none = f
  | ⟨_, _, ret, params, locals, body⟩ => by
    rw [FunDecl.relabel, Ty.rename_none, Binder.relabel_none, Decl.relabel_none_all locals,
      Expr.relabel_none body]
    rfl
termination_by structural f => f

theorem ClassDecl.relabel_none : ∀ c : ClassDecl, c.relabel .none = c
  | ⟨_, _, superclass, fields, methods⟩ => by
    have hsuper : superclass.map Relabelling.none.names = superclass := Option.map_id_apply
    rw [ClassDecl.relabel, hsuper, Binder.relabel_none, FunDecl.relabel_none_all methods]
    rfl
termination_by structural c => c

theorem Decl.relabel_none_all : ∀ ds : List Decl, Decl.relabelAll .none ds = ds
  | [] => rfl
  | d :: ds => by rw [Decl.relabelAll, Decl.relabel_none d, Decl.relabel_none_all ds]
termination_by structural ds => ds

theorem FunDecl.relabel_none_all : ∀ fs : List FunDecl, FunDecl.relabelAll .none fs = fs
  | [] => rfl
  | f :: fs => by rw [FunDecl.relabelAll, FunDecl.relabel_none f, FunDecl.relabel_none_all fs]
termination_by structural fs => fs

end

theorem Program.relabel_none (p : Program) : p.relabel .none = p := by
  cases p with
  | letIn l ds e =>
    rw [Program.relabel, Decl.relabel_none_all, Expr.relabel_none]
    rfl
  | bare e => exact congrArg Program.bare (Expr.relabel_none e)

end ObjectLet
