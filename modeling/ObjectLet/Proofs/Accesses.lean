import Mathlib.Algebra.Group.Int.Defs
import ObjectLet.Proofs.Simulation

/-!
# Uses of names

An expression that uses a name finds what name analysis has found for it, wherever that is kept: in
the frame of a function, on the heap or among the global declarations.  `Setting.At.find` says so
for all of them at once.  What is left is to go through the code for each use: reading a variable or
a field, making an object, and calling a function or a method, which `Setting.Calls` takes over.

`Expr.simulates` puts all kinds of expressions together: **the code of an expression does what the
expression does.**
-/

set_option autoImplicit false

namespace ObjectLet

open Table (lookupIn)

namespace Setting

variable {S : Setting} {G : List Int32} {env : Env} {ρ : Bindings} {σ τ υ : Store}
  {c d : Config} {ip n k bound : Nat} {st printed : List Int32} {ty : Ty} {v a : Int32}
  {call : Caller} {is rest : List Instr} {site : Site} {x cls : String} {e : Entry}

/-- **What name analysis has found for a name** is found by the evaluator, and by the code. -/
theorem At.find (h : S.At n k G env ρ σ c) (he : env.scopes.lookup? x = some e) :
    ∃ b ρ' a, ρ.bound? x = some (b, ρ') ∧ S.image.FrameAt S.target ⟨e, env.level⟩ c a ∧
      S.Binds (space G σ c) c.stack x a e b ρ' := by
  obtain ⟨b, ρ', a, hb, hframe, hbinds⟩ := h.names.find h.suffix he
  refine ⟨b, ρ', a, hb, ?_, hbinds⟩
  rw [Image.FrameAt]
  rcases hframe with ⟨hlevel, ha⟩ | ⟨hlevel, -, hlinks⟩
  · rw [if_pos hlevel]
    exact ha
  · rw [if_neg hlevel]
    exact hlinks

/-- A variable is read.  Where it is kept, and what is there, is known by then. -/
theorem World.variable {r : Resolution} (h : S.World G σ c)
    (hat : CodeAt S.image.prog c.ip (S.target.address r ++ .plain .loadWord :: rest))
    (ha : S.image.FrameAt S.target r c a)
    (hl : S.image.Loads c.stack c.heap (a + Int32.ofInt r.entry.offset) v)
    (hb : c.stack.length + 2 ≤ bound) :
    S.image.Leads σ.printed (bound + σ.next)
      (S.Arrives G σ c (c.ip + codeSize (S.target.address r) + 1) (v :: c.stack) σ) c := by
  have huse := h.use_eq
  refine h.goes (h.globals.trans (List.suffix_cons _ _))
    (.andThen (.address hat ha h.prefix_printed (by omega)) fun d hd ↦ ?_)
  have hat' := hat.right
  rw [← hd.ip] at hat'
  have hl' : S.image.Loads c.stack d.heap (a + Int32.ofInt r.entry.offset) v := hd.heap ▸ hl
  rw [← hd.ip]
  exact .plain hat' (.load hd.stack hl') (by simp [hd.stack]) (hd.printed ▸ h.prefix_printed)
    hd.fits

/-- What is kept at an offset from an address is read. -/
theorem World.member {offset : Int} (h : S.World G σ c) (hG : G <:+ st)
    (hat : CodeAt S.image.prog c.ip (Target.loadAt offset ++ rest)) (hs : c.stack = a :: st)
    (hl : S.image.Loads st c.heap (a + Int32.ofInt offset) v) (hb : c.stack.length + 1 ≤ bound) :
    S.image.Leads σ.printed (bound + σ.next) (S.Arrives G σ c (c.ip + 4) (v :: st) σ) c := by
  have huse := h.use_eq
  exact h.goes (hG.trans (List.suffix_cons _ _))
    (.loadAt hat hs hl h.prefix_printed h.fits (by omega))

/-- Nothing is kept at an offset from an address that is negative. -/
theorem World.negative {offset : Int} (h : S.World G σ c)
    (hat : CodeAt S.image.prog c.ip (Target.loadAt offset ++ rest)) (hs : c.stack = a :: st)
    (hneg : a + Int32.ofInt offset < 0) (hb : c.stack.length + 1 ≤ bound) :
    S.image.Leads σ.printed (bound + σ.next) (S.image.Halts n .nullAccess σ) c := by
  have huse := h.use_eq
  refine (Image.Leads.push hat h.prefix_printed (by omega)).bind fun d hd ↦ ?_
  have hat' : CodeAt S.image.prog d.ip (.plain .add :: .plain .loadWord :: rest) := by
    rw [hd.ip]
    exact hat.tail
  have hs' : d.stack = Int32.ofInt offset :: a :: st := by rw [hd.stack, hs]
  refine (Image.Leads.plain hat' (.add hs') (by simp [hs']) (hd.printed ▸ h.prefix_printed)
    hd.fits).imp fun e he ↦ ⟨(he.printed.trans hd.printed).trans h.printed, rest, _, _, ?_,
      he.stack, hneg⟩
  rw [he.ip]
  exact hat'.tail

/-! ## Objects -/

/-- An object is not `null`, since its address is below the top of the memory. -/
theorem World.ne_null {o : Object} (h : S.World G σ c) (ho : S.ObjectAt (space G σ c) v o) :
    v ≠ -1 := by
  intro hnull
  obtain ⟨k, hk, rfl⟩ := ho.address
  have hfits := h.fits
  have htop := S.sized.top
  have hlen : c.heap.length = c.hp := h.heap
  have hk : k < c.heap.length := hk
  have htoInt := congrArg Int32.toInt hnull
  have hnone : (-1 : Int32).toInt = -1 := by decide
  rw [Config.use] at hfits
  rw [Int32.toInt_ofNat_of_lt (by omega), hnone] at htoInt
  omega

/-- A reference is `null`, or there is an object. -/
theorem World.object (h : S.World G σ c) (hv : S.Typed (space G σ c) v (.ref cls)) :
    v = -1 ∨ v ≠ -1 ∧ ∃ o, σ.object? v = some o ∧ S.ObjectAt (space G σ c) v o ∧
      S.ctx.classes.Below o.cls cls := by
  rcases hv with hv | ⟨o, ho, hbelow⟩
  · exact .inl hv
  · have hobject := h.objects v o ho
    exact .inr ⟨h.ne_null hobject, o, ho, hobject, hbelow⟩

end Setting

namespace Eval

variable {α : Type} {f : Object → Eval α} {v : Int32} {o : Object} {σ : Store}

theorem object_bind_some (hv : v ≠ -1) (ho : σ.object? v = some o) :
    (Eval.object v >>= f) σ = f o σ := by
  simp only [bind, EStateM.bind, object_eq, if_neg hv, ho]

end Eval

theorem valueType_eq_ok {name : String} {t u : Ty} (h : valueType name t = .ok u) : t = u := by
  cases t <;> first | exact Except.ok.inj h | cases h

theorem fieldType_eq_ok {name : String} {t u : Ty} (h : fieldType name t = .ok u) :
    t.isMethod = false ∧ t = u := by
  rw [fieldType] at h
  split at h
  · cases h
  · rename_i hm
    exact ⟨by simpa using hm, Except.ok.inj h⟩

namespace Setting

variable {S : Setting} {G : List Int32} {env : Env} {ρ : Bindings} {σ τ υ : Store}
  {c d : Config} {ip n k bound : Nat} {st printed : List Int32} {ty : Ty} {v a : Int32}
  {call : Caller} {is rest : List Instr} {site : Site} {x m cls : String} {e : Entry}
  {r r' : Resolution} {offset : Int}

/-- The code of a use goes by what name analysis has found. -/
theorem resolution_eq (h : S.target.ctx.resolutions.find? site.id = some r)
    (hr : S.ctx.resolutions.find? site.id = some r') : r = r' := by
  rw [S.knows.resolutions, hr] at h
  exact (Option.some.inj h).symm

theorem member_eq {e' : Entry} (h : S.target.ctx.members.find? site.id = some e')
    (he : S.ctx.members.find? site.id = some e) : e' = e := by
  rw [S.knows.members, he] at h
  exact (Option.some.inj h).symm

/-- A member that is no method is kept below the object, and not too far below. -/
theorem offset_neg {info : ClassInfo} (hi : S.ctx.classes.info? cls = some info)
    (he : info.members.find? m = some e) (hm : e.ty.isMethod = false) :
    e.offset < 0 ∧ -e.offset < 2 ^ 31 := by
  have hlaid := S.laid.laid hi
  by_cases hneg : e.offset < 0
  · obtain ⟨hlook, hentry⟩ := hlaid.of_offset_neg he hneg
    have hlt := position_lt_length (Table.mem_keys_of_lookupIn hlook)
    have hnarrow := S.narrow cls info hi
    rw [hlaid.shape_fields, List.length_map] at hnarrow
    have hoffset := congrArg Entry.offset hentry
    simp only at hoffset
    omega
  · obtain ⟨s, -, hentry⟩ := hlaid.of_offset_nonneg he (by omega)
    rw [hentry] at hm
    cases hm

/-- There is nothing below `null`: an offset that is taken from it does not come round to a
cell of the memory. -/
theorem null_add_neg (h : offset < 0) (h' : -offset < 2 ^ 31) :
    (-1 : Int32) + Int32.ofInt offset < 0 := by
  have hnull : (-1 : Int32) = Int32.ofInt (-1) := by decide
  rw [hnull, ← Int32.ofInt_add, Int32.lt_iff_toInt_lt,
    Int32.toInt_ofInt_of_le (by omega) (by omega)]
  show -1 + offset < 0
  omega

/-- A name before a member refers to an object, or to `null`.  Name analysis, the code and
the evaluator all find the same, and the class that the name is declared with says which
members there are. -/
structure Receiver (S : Setting) (G : List Int32) (ρ : Bindings) (σ : Store) (c : Config)
    (site : Site) (x m : String) (r : Resolution) (a v : Int32) (cls : String) (e : Entry)
    (info : ClassInfo) : Prop where
  /-- Name analysis has found it. -/
  resolved : S.ctx.resolutions.find? site.id = some r
  /-- The code finds where it is kept. -/
  frame : S.image.FrameAt S.target r c a
  /-- It is kept there. -/
  loads : S.image.Loads c.stack c.heap (a + Int32.ofInt r.entry.offset) v
  /-- The evaluator finds it. -/
  value : Eval.value ρ x = pure v
  /-- It refers to an object of a class. -/
  typed : S.Typed (space G σ c) v (.ref cls)
  /-- The class is known. -/
  known : S.ctx.classes.info? cls = some info
  /-- The class has the member. -/
  has : info.members.find? m = some e
  /-- Name analysis has found the member. -/
  member : S.ctx.members.find? site.id = some e

theorem At.receiver {u : Unit} (h : S.At n k G env ρ σ c)
    (hrec : Recorded S.ctx (env.useMember site x m))
    (hcheck : (S.ctx.checkReceiver site x).result = .ok u) :
    ∃ r a v cls e info, S.Receiver G ρ σ c site x m r a v cls e info := by
  obtain ⟨e, cls, e', he, hr, hcls, he', hfound⟩ := recorded_receiver hrec hcheck
  obtain ⟨b, ρ', a, hb, hframe, hbinds⟩ := h.find he
  rw [ClassTable.member?, ClassTable.members?] at he'
  cases hi : env.classes.info? cls with
  | none => simp [hi] at he'
  | some info =>
    cases hbinds with
    | @value v _ kept typed =>
      refine ⟨_, a, v, cls, e', info, hr, hframe, kept, by rw [Eval.value, hb], hcls ▸ typed,
        h.within.info hi, by simpa [hi] using he', hfound⟩
    | func hty => simp [hty] at hcls
    | cls _ _ _ hty => simp [hty] at hcls
    | method hty => simp [hty] at hcls

end Setting

namespace Setting.Simulates

variable {S : Setting} {n k : Nat} {call : Caller} {site : Site} {x f m cls : String}
  {args : List Expr}

theorem ident : S.Simulates n k call (.ident site x) := by
  intro env ty ip is ρ G σ c h hip hat
  obtain ⟨⟨i, i', hemit⟩, hcode, hrec, hcheck⟩ := h
  obtain ⟨r, hr, rfl, -⟩ := Expr.emit_ident_eq_ok hemit
  rw [Expr.resolve] at hrec
  obtain ⟨e, he, hfound⟩ := recorded_useName hrec
  obtain rfl := resolution_eq hr hfound
  simp only [Expr.check, Checked.result_bind, Checked.result_judge, Context.resolution,
    Checked.result_resolved, hfound, Option.some.injEq] at hcheck
  obtain ⟨_, rfl, hty⟩ := hcheck
  obtain ⟨b, ρ', a, hb, hframe, hbinds⟩ := hat.find he
  subst hip
  rw [Expr.eval, Expr.cells]
  cases hbinds with
  | @value v _ kept typed =>
    have hvalue := valueType_eq_ok hty
    have heval : Eval.value ρ x = pure v := by rw [Eval.value, hb]
    rw [heval]
    refine .pure ((hat.world.variable hcode hframe kept (Nat.le_add_right _ _)).imp fun d hd ↦
      ⟨hd.to ?_, ?_⟩)
    · rw [codeSize_append, Nat.add_assoc]
      rfl
    · exact Typed.mono (hvalue ▸ typed) hd.within
  | func hfunc => simp [valueType, hfunc] at hty
  | cls _ _ _ hcls => simp [valueType, hcls] at hty
  | method hmethod => simp [valueType, hmethod] at hty

theorem field : S.Simulates n k call (.field site x m) := by
  intro env ty ip is ρ G σ c h hip hat
  obtain ⟨⟨i, i', hemit⟩, hcode, hrec, hcheck⟩ := h
  obtain ⟨r, e, hr, he, rfl, -⟩ := Expr.emit_field_eq_ok hemit
  rw [Expr.resolve] at hrec
  simp only [Expr.check, Checked.result_bind, Checked.result_judge] at hcheck
  obtain ⟨_, hreceiver, e', he', hty⟩ := hcheck
  obtain ⟨r', a, v, cls, e₁, info, hobj⟩ := hat.receiver hrec hreceiver
  obtain rfl := resolution_eq hr hobj.resolved
  obtain rfl := member_eq he hobj.member
  rw [Context.member, Checked.result_resolved, hobj.member] at he'
  obtain rfl := Option.some.inj he'
  obtain ⟨hmethod, rfl⟩ := fieldType_eq_ok hty
  obtain ⟨hneg, hnarrow⟩ := offset_neg hobj.known hobj.has hmethod
  subst hip
  rw [Expr.eval, Expr.cells, hobj.value]
  refine .after (hat.world.variable hcode.left hobj.frame hobj.loads (Nat.le_add_right _ _))
    (.bind (Eval.grows_pure v) fun v ↦ Eval.grows_field v m) fun d hd ↦ ?_
  have hcode' := hcode.right
  rw [codeSize_append, ← Nat.add_assoc, ← List.append_nil (Target.loadAt _)] at hcode'
  have hip : d.ip = c.ip + codeSize (S.target.address r) + codeSize [.plain .loadWord] := hd.ip
  rw [← hip] at hcode'
  have hlen : d.stack.length = c.stack.length + 1 := by rw [hd.stack, List.length_cons]
  rcases hd.world.object (Typed.mono hobj.typed hd.within) with rfl | ⟨hv, o, ho, hobject, hbelow⟩
  · exact .error (τ := σ) rfl (hd.world.negative hcode' hd.stack (null_add_neg hneg hnarrow)
      (by omega))
  · obtain ⟨e', hmember, hoffset, hstands⟩ := hobject.member hbelow hobj.known hobj.has
    cases hmember with
    | method nonneg => omega
    | @field w neg value kept typed =>
      have heval : (Eval.field v m) σ = .ok w σ := by
        rw [Eval.field, Eval.object_bind_some hv ho, value]
        rfl
      rw [hoffset] at kept
      refine .ok heval ((hd.world.member hat.suffix hcode' hd.stack
        (Kept.loads kept hat.suffix) (by omega)).imp fun f hf ↦
        ⟨(hd.trans hf).to ?_, ?_⟩)
      · simp only [hd.ip, codeSize_append, Nat.add_assoc]
        rfl
      · exact Typed.mono (hstands.value _ _ typed) hf.within

/-! ### Arguments -/

theorem backwards {env : Env} {ρ : Bindings} {G : List Int32} (hc : S.Calls n k call)
    {es : List Expr} (hes : ∀ x ∈ es, S.Simulates n k call x) :
    ∀ {ps : List Ty} {is : List Instr} {σ : Store} {c : Config} {i i' ip position bound : Nat}
      {u : Unit}, Expr.emitBackwards S.target es i = .ok (is, i') → CodeAt S.image.prog ip is →
      Recorded S.ctx (Expr.resolveAll env es) →
      (Expr.checkArgs S.ctx site f position es ps).result = .ok u → es.length = ps.length →
      c.ip = ip → S.At n k G env ρ σ c →
      c.stack.length + Expr.cellsAll es + k * S.frameSize ≤ bound →
      S.image.Runs bound n (Expr.evalBackwards call ρ es) σ c fun vs τ d ↦
        S.Arrives G σ c (ip + codeSize is) (vs ++ c.stack) τ d ∧
          List.Forall₂ (S.Typed (space G τ d)) vs ps := by
  induction es with
  | nil =>
    intro ps is σ c i i' ip position bound u hemit hcode _ _ hlen hip hat _
    rw [Expr.emitBackwards] at hemit
    obtain ⟨rfl, -⟩ : [] = is ∧ i = i' := by simpa using hemit
    obtain rfl := List.length_eq_zero_iff.1 hlen.symm
    rw [Expr.evalBackwards]
    exact .pure (.here ⟨⟨hip, rfl, rfl, hat.world, .refl _, Nat.le_refl _⟩, .nil⟩)
  | cons x es ih =>
    intro ps is σ c i i' ip position bound u hemit hcode hrec hcheck hlen hip hat hb
    obtain ⟨p, ps, rfl⟩ := List.exists_cons_of_length_pos (by rw [← hlen]; exact Nat.succ_pos _)
    obtain ⟨rest, i₁, first, hrest, hfirst, rfl⟩ := Expr.emitBackwards_cons_eq_ok hemit
    rw [Expr.resolveAll, recorded_append] at hrec
    simp only [Expr.checkArgs, Checked.result_bind, Checked.result_require] at hcheck
    obtain ⟨t, ht, _, hs, hcheck⟩ := hcheck
    rw [Expr.evalBackwards]
    rw [Expr.cellsAll] at hb
    refine (ih (fun y hy ↦ hes y (List.mem_cons_of_mem _ hy)) hrest hcode.left hrec.2 hcheck
      (Nat.succ.inj hlen) hip hat (Nat.le_refl _)).bind (by omega)
      (fun _ ↦ .bind (x.grows hc.grows ρ) fun _ ↦ Eval.grows_pure _) fun vs τ d hd ↦ ?_
    obtain ⟨hd, hvs⟩ := hd
    have hheight : vs.length ≤ Expr.cellsAll es := by
      rw [hvs.length_eq, ← Nat.succ.inj hlen]
      exact Expr.length_le_cellsAll es
    refine (hes x List.mem_cons_self ⟨⟨_, _, hfirst⟩, hcode.right, hrec.1, ht⟩ hd.ip
      (hat.arrives hd (List.suffix_append _ _))).bind
      (by rw [hd.stack, List.length_append]; omega) (fun _ ↦ Eval.grows_pure _) fun v υ e he ↦ ?_
    obtain ⟨he, hv⟩ := he
    refine .pure (.here ⟨?_, .cons (Typed.subtype hv hs) (hvs.imp fun _ _ h ↦ h.mono he.within)⟩)
    have := hd.trans he
    rw [hd.stack, Nat.add_assoc, ← codeSize_append] at this
    exact this

theorem all {env : Env} {ρ : Bindings} {G : List Int32} (hc : S.Calls n k call)
    {es : List Expr} (hes : ∀ x ∈ es, S.Simulates n k call x) :
    ∀ {ps : List Ty} {is : List Instr} {σ : Store} {c : Config} {i i' ip position bound : Nat}
      {u : Unit}, Expr.emitAll S.target es i = .ok (is, i') → CodeAt S.image.prog ip is →
      Recorded S.ctx (Expr.resolveAll env es) →
      (Expr.checkArgs S.ctx site f position es ps).result = .ok u → es.length = ps.length →
      c.ip = ip → S.At n k G env ρ σ c →
      c.stack.length + Expr.cellsAll es + k * S.frameSize ≤ bound →
      S.image.Runs bound n (Expr.evalAll call ρ es) σ c fun vs τ d ↦
        S.Arrives G σ c (ip + codeSize is) (vs.reverse ++ c.stack) τ d ∧
          List.Forall₂ (S.Typed (space G τ d)) vs ps := by
  induction es with
  | nil =>
    intro ps is σ c i i' ip position bound u hemit hcode _ _ hlen hip hat _
    rw [Expr.emitAll] at hemit
    obtain ⟨rfl, -⟩ : [] = is ∧ i = i' := by simpa using hemit
    obtain rfl := List.length_eq_zero_iff.1 hlen.symm
    rw [Expr.evalAll]
    exact .pure (.here ⟨⟨hip, rfl, rfl, hat.world, .refl _, Nat.le_refl _⟩, .nil⟩)
  | cons x es ih =>
    intro ps is σ c i i' ip position bound u hemit hcode hrec hcheck hlen hip hat hb
    obtain ⟨p, ps, rfl⟩ := List.exists_cons_of_length_pos (by rw [← hlen]; exact Nat.succ_pos _)
    obtain ⟨first, i₁, rest, hfirst, hrest, rfl⟩ := Expr.emitAll_cons_eq_ok hemit
    rw [Expr.resolveAll, recorded_append] at hrec
    simp only [Expr.checkArgs, Checked.result_bind, Checked.result_require] at hcheck
    obtain ⟨t, ht, _, hs, hcheck⟩ := hcheck
    rw [Expr.evalAll]
    rw [Expr.cellsAll] at hb
    have hpos := x.cells_pos
    refine (hes x List.mem_cons_self ⟨⟨_, _, hfirst⟩, hcode.left, hrec.1, ht⟩ hip hat).bind
      (by omega) (fun _ ↦ .bind (Expr.grows_all hc.grows ρ es) fun _ ↦ Eval.grows_pure _)
      fun v τ d hd ↦ ?_
    obtain ⟨hd, hv⟩ := hd
    refine (ih (fun y hy ↦ hes y (List.mem_cons_of_mem _ hy)) hrest hcode.right hrec.2 hcheck
      (Nat.succ.inj hlen) hd.ip (hat.arrives hd (List.suffix_cons _ _)) (Nat.le_refl _)).bind
      (by rw [hd.stack, List.length_cons]; omega) (fun _ ↦ Eval.grows_pure _)
      fun vs υ e he ↦ ?_
    obtain ⟨he, hvs⟩ := he
    refine .pure (.here ⟨?_, .cons ((Typed.subtype hv hs).mono he.within) hvs⟩)
    have := hd.trans he
    rw [hd.stack, Nat.add_assoc, ← codeSize_append] at this
    rw [List.reverse_cons, List.append_assoc]
    exact this

end Setting.Simulates

/-! ### Calls -/

theorem calledSignature_eq_ok {name : String} {t : Ty} {s : Signature}
    (h : calledSignature name t = .ok s) : t.callable? = some s := by
  rw [calledSignature] at h
  split at h
  · rename_i hs
    rw [hs, Except.ok.inj h]
  · cases h

theorem invokedSignature_eq_ok {name : String} {t : Ty} {s : Signature}
    (h : invokedSignature name t = .ok s) : t = .method s := by
  cases t <;> first | exact congrArg _ (Except.ok.inj h) | cases h

/-- Arguments for one signature are arguments for another one that serves in its place. -/
theorem Signature.Serves.args {S : Setting} {w : Space} {s t : Signature} {vs : List Int32}
    (h : s.Serves S.ctx t) (hvs : List.Forall₂ (S.Typed w) vs t.params) :
    List.Forall₂ (S.Typed w) vs s.params := by
  have hall := h.params
  generalize t.params = qs at hall hvs
  generalize s.params = ps at hall
  induction hall generalizing vs with
  | nil =>
    cases hvs
    exact .nil
  | cons hp _ ih =>
    cases hvs with
    | cons hv hvs => exact .cons (hp _ _ hv) (ih hvs)

namespace Setting

variable {S : Setting} {G : List Int32} {env : Env} {ρ ρ' : Bindings} {σ τ υ : Store}
  {c d : Config} {ip n k bound i i' ret : Nat} {st stack vs printed : List Int32} {ty : Ty}
  {v a p : Int32} {call : Caller} {is rest : List Instr} {site : Site} {x m cls : String}
  {e : Entry} {r r' : Resolution} {offset : Int} {f : FunDecl} {l : Label} {o : Object}

/-- A jump to a function, with its link and its arguments on the stack. -/
theorem Calls.enter (hc : S.Calls n k call) (h : S.World G σ c) (hfunc : S.Func env f l)
    (hscope : S.Scoped (space G σ c) c.stack env ρ a) (hs : c.stack = a :: (vs ++ c.fp :: st))
    (hG : G <:+ st) (hvs : List.Forall₂ (S.Typed (space G σ c)) vs f.signature.params)
    (hn : n ≤ c.steps + k) (hret : ret ≤ codeSize S.image.prog)
    (hb : c.stack.length + k * S.frameSize ≤ bound)
    (hl : S.image.Leads σ.printed (bound + σ.next) (fun d ↦
      S.image.Goes c (addressOf l S.image.prog) c.stack d ∧ d.ra = Int32.ofNat ret) c) :
    S.image.Runs bound n (call ⟨f, ρ⟩ vs) σ c fun v τ d ↦
      S.Arrives G σ c ret (v :: st) τ d ∧ S.Typed (space G τ d) v f.ret := by
  refine .after (hl.before.imp fun d hd ↦ And.intro (h.arrives h.globals hd.1.1 hd.2) hd.1.2)
    (hc.grows _ _) fun d ⟨hd, hra⟩ ↦ ?_
  refine (hc.returns ⟨⟨env, l, a, hfunc, hd.ip, ?_, ?_⟩, ?_, hra, hret, hd.world, hG⟩
    (Nat.le_trans hn (Nat.add_le_add_right hd.steps k))).imp (by rw [hd.stack]; exact hb)
    fun v τ e ⟨he, hv⟩ ↦ ⟨hd.trans he, hv⟩
  · rw [hd.stack, hd.fp, hs]
  · exact hscope.mono hd.within (hd.stack ▸ List.suffix_rfl)
  · exact hvs.imp fun _ _ h ↦ h.mono hd.within

/-- A function found under its name is called. -/
theorem Calls.func (hc : S.Calls n k call) (h : S.World G σ c) (hfunc : S.Func env f l)
    (hscope : S.Scoped (space G σ c) c.stack env ρ a) (hs : c.stack = a :: (vs ++ c.fp :: st))
    (hG : G <:+ st) (hvs : List.Forall₂ (S.Typed (space G σ c)) vs f.signature.params)
    (hn : n ≤ c.steps + k) (hb : c.stack.length + 2 + k * S.frameSize ≤ bound)
    (hat : CodeAt S.image.prog c.ip
      (duplicate ++ (Target.loadAt offset ++ .plain .jumpSub :: rest)))
    (hl : S.image.Loads (vs ++ c.fp :: st) c.heap (a + Int32.ofInt offset) (S.image.entry l)) :
    S.image.Runs bound n (call ⟨f, ρ⟩ vs) σ c fun v τ d ↦
      S.Arrives G σ c (c.ip + 8) (v :: st) τ d ∧ S.Typed (space G τ d) v f.ret := by
  have hret := hat.right.right.tail.end_le
  have huse := h.use_eq
  refine hc.enter h hfunc hscope hs hG hvs hn (Nat.le_trans (Nat.le_add_right (c.ip + 8) _) hret)
    (by omega) ?_
  refine (Image.Leads.duplicate hat hs h.prefix_printed h.fits (by omega)).bind fun d hd ↦ ?_
  have hat' := hat.right
  rw [← show d.ip = c.ip + codeSize duplicate from hd.ip] at hat'
  have hl' : S.image.Loads (a :: (vs ++ c.fp :: st)) d.heap (a + Int32.ofInt offset)
      (S.image.entry l) :=
    hl.mono (List.suffix_cons _ _) (hd.heap ▸ List.prefix_rfl)
  have huse' : d.use = c.use + 1 := by
    rw [hd.use_eq, Config.use, hs, List.length_cons]
    omega
  refine (Image.Leads.call hat' hd.stack hl' (hd.printed ▸ h.prefix_printed) hd.fits
    (by omega)).imp fun e he ↦ ⟨?_, ?_⟩
  · rw [hs]
    exact hd.trans he.1
  · rw [he.2, hd.ip]

/-- **A method of an object is called** that is entered in its dispatch table.  The evaluator finds
the same method by going up from the class of the object. -/
theorem Calls.method (hc : S.Calls n k call) (h : S.World G σ c) {s : Signature}
    (hobject : σ.object? a = some o) (hne : a ≠ -1) (hmember : S.MemberAt (space G σ c) a o x e)
    (hnonneg : 0 ≤ e.offset) (hstands : e.ty.Stands S.ctx (.method s))
    (hs : c.stack = a :: (vs ++ c.fp :: st)) (hG : G <:+ st)
    (hvs : List.Forall₂ (S.Typed (space G σ c)) vs s.params) (hn : n ≤ c.steps + k)
    (hb : c.stack.length + 2 + k * S.frameSize ≤ bound)
    (hat : CodeAt S.image.prog c.ip (duplicate ++
      (.plain .loadWord :: Target.loadAt e.offset ++ .plain .jumpSub :: rest))) :
    S.image.Runs bound n (Eval.invoke call a x vs) σ c fun v τ d ↦
      S.Arrives G σ c (c.ip + 9) (v :: st) τ d ∧ S.Typed (space G τ d) v s.ret := by
  cases hmember with
  | field neg => omega
  | @method p l m _ hty table kept found method =>
    obtain ⟨s', hs', hserves⟩ := hstands.method s rfl
    obtain rfl : s' = m.decl.signature := by
      rw [hty] at hs'
      exact (Ty.method.inj hs').symm
    obtain ⟨env, outer, info, hhome, hscopes, hfunc⟩ := method.func
    have heval : Eval.invoke call a x vs σ
        = call ⟨m.decl, [o.members a m.cls m.home, m.home]⟩ vs σ := by
      rw [Eval.invoke, Eval.object_bind_some hne hobject, found]
    have hret := hat.right.tail.right.tail.end_le
    have hG' : G <:+ vs ++ c.fp :: st :=
      hG.trans ((List.suffix_cons _ _).trans (List.suffix_append _ _))
    have hscope : S.Scoped (space G σ c) c.stack env [o.members a m.cls m.home, m.home] a :=
      .members hhome hscopes (h.objects a o hobject) method.below hobject
    have huse := h.use_eq
    have hb' : c.stack.length + k * S.frameSize ≤ bound := by omega
    have hcall := hc.enter h hfunc hscope hs hG (hserves.args hvs) hn (Nat.le_trans
      (Nat.le_add_right (c.ip + 9) _) hret) hb' ?_
    · rw [Image.Runs, heval]
      exact hcall.imp (Nat.le_refl _) fun v τ d hd ↦ ⟨hd.1, hserves.ret _ _ hd.2⟩
    · refine (Image.Leads.dispatch hat hs (table.loads hG') (kept.loads hG') h.prefix_printed h.fits
        (by omega)).imp fun d hd ↦ ⟨hs ▸ hd.1, hd.2⟩

/-- The frame is put on the stack, to be taken up again after a call. -/
theorem World.saveFrame (h : S.World G σ c)
    (hat : CodeAt S.image.prog c.ip (.plain .loadFp :: rest)) (hb : c.stack.length + 1 ≤ bound) :
    S.image.Leads σ.printed (bound + σ.next)
      (S.Arrives G σ c (c.ip + 1) (c.fp :: c.stack) σ) c := by
  have huse := h.use_eq
  exact h.goes (h.globals.trans (List.suffix_cons _ _))
    (.pushed hat .loadFp h.prefix_printed (by omega))

end Setting

namespace Setting.Simulates

variable {S : Setting} {n k : Nat} {call : Caller} {site : Site} {x f m cls : String}
  {args : List Expr}

/-- Before a call, the frame and the arguments are put on the stack. -/
theorem arguments {α : Type} {K : List Int32 → Eval α} {Q : α → Store → Config → Prop}
    {env : Env} {ρ : Bindings} {G : List Int32} {σ : Store} {c : Config} {ps : List Ty}
    {values rest : List Instr} {i i' position bound : Nat} {u : Unit} (hc : S.Calls n k call)
    (hargs : ∀ x ∈ args, S.Simulates n k call x)
    (hvalues : Expr.emitBackwards S.target args i = .ok (values, i'))
    (hcode : CodeAt S.image.prog c.ip ([.plain .loadFp] ++ values ++ rest))
    (hrec : Recorded S.ctx (Expr.resolveAll env args))
    (hcheck : (Expr.checkArgs S.ctx site f position args ps).result = .ok u)
    (hlen : args.length = ps.length) (hat : S.At n k G env ρ σ c)
    (hb : c.stack.length + Expr.cellsAll args + 1 + k * S.frameSize ≤ bound)
    (hgrows : ∀ vs, (K vs).Grows)
    (hcall : ∀ vs τ d,
      S.Arrives G σ c (c.ip + codeSize ([.plain .loadFp] ++ values)) (vs ++ c.fp :: c.stack) τ d →
      S.At n k G env ρ τ d → CodeAt S.image.prog d.ip rest →
      List.Forall₂ (S.Typed (space G τ d)) vs ps →
      d.stack.length ≤ c.stack.length + Expr.cellsAll args + 1 →
      S.image.Runs bound n (K vs) τ d Q) :
    S.image.Runs bound n (Expr.evalBackwards call ρ args >>= K) σ c Q := by
  refine .after (hat.world.saveFrame hcode.left.left (by omega))
    (.bind (Expr.grows_backwards hc.grows ρ args) hgrows) fun d hd ↦ ?_
  refine (backwards hc hargs hvalues hcode.left.right hrec hcheck hlen hd.ip
    (hat.arrives hd (List.suffix_cons _ _)) (by rw [hd.stack, List.length_cons]; omega)).bind
    (Nat.le_refl _) hgrows fun vs τ g hg ↦ ?_
  obtain ⟨hg, hvs⟩ := hg
  rw [hd.stack] at hg
  have hdg : S.Arrives G σ c (c.ip + codeSize ([.plain .loadFp] ++ values)) _ τ g :=
    (hd.trans hg).to (by rw [codeSize_append, ← Nat.add_assoc])
  refine hcall vs τ g hdg
    (hat.arrives hdg ((List.suffix_cons _ _).trans (List.suffix_append _ _)))
    (hdg.ip ▸ hcode.right) hvs ?_
  have hheight : vs.length ≤ Expr.cellsAll args := by
    rw [hvs.length_eq, ← hlen]
    exact Expr.length_le_cellsAll args
  rw [hdg.stack, List.length_append, List.length_cons]
  omega

theorem callNamed (hc : S.Calls n k call) (hargs : ∀ x ∈ args, S.Simulates n k call x) :
    S.Simulates n k call (.call site f args) := by
  intro env ty ip is ρ G σ c h hip hat
  obtain ⟨⟨i, i', hemit⟩, hcode, hrec, hcheck⟩ := h
  obtain ⟨r, values, hr, hvalues, rfl⟩ := Expr.emit_call_eq_ok hemit
  rw [Expr.resolve, recorded_append] at hrec
  obtain ⟨e, he, hfound⟩ := recorded_useName hrec.1
  obtain rfl := resolution_eq hr hfound
  simp only [Expr.check, Checked.result_bind, Context.resolution, Checked.result_resolved, hfound,
    Option.some.injEq, Checked.result_signature, Checked.result_typed, Except.ok.injEq] at hcheck
  obtain ⟨_, rfl, s, hs, _, hn, _, hcheck, rfl⟩ := hcheck
  subst hip
  rw [Expr.eval, Expr.cells]
  refine arguments hc hargs hvalues hcode hrec.2 hcheck (arity_eq hn) hat (by omega)
    (Eval.grows_call hc.grows ρ f) fun vs τ g hdg hat' hcode' hvs hheight ↦ ?_
  have hstack : g.stack = vs ++ g.fp :: c.stack := by rw [hdg.stack, hdg.fp]
  have huse := hdg.world.use_eq
  rw [Target.callNamed, List.append_assoc, List.append_assoc, List.append_assoc] at hcode'
  -- the frame of the declaration
  obtain ⟨b, ρ', a, hbound, hframe, hbinds⟩ := hat'.find he
  refine .after (hdg.world.goes (hdg.world.globals.trans (List.suffix_cons a _))
    (.frame hcode' hframe hdg.world.prefix_printed (by omega)))
    (Eval.grows_call hc.grows ρ f vs) fun j hj ↦ ?_
  have hdj := hdg.trans hj
  have hstack' : j.stack = a :: (vs ++ j.fp :: c.stack) := by rw [hj.stack, hstack, hj.fp]
  have hlen' : j.stack.length = g.stack.length + 1 := by rw [hj.stack, List.length_cons]
  have hvs' := hvs.imp fun _ _ h ↦ h.mono hj.within
  have hfuel := Nat.le_trans hat.fuel (Nat.add_le_add_right hdj.steps k)
  have hcall := hcode'.right
  rw [← hj.ip] at hcall
  cases hbinds with
  | @func g' l env' _ hty kept func scope =>
    have hsig : s = g'.signature := by
      have := calledSignature_eq_ok hs
      rw [hty] at this
      exact (Option.some.inj this).symm
    subst hsig
    have heval : Eval.call call ρ f vs = call ⟨g', ρ'⟩ vs := by rw [Eval.call, hbound]
    rw [heval]
    rw [if_neg (by simp [hty, Ty.isMethod])] at hcall
    have hl : S.image.Loads (vs ++ j.fp :: c.stack) j.heap (a + Int32.ofInt e.offset)
        (S.image.entry l) :=
      kept.mono (by simp only [hstack, hj.fp, List.suffix_rfl]) hj.within.heap
    refine (hc.func hj.world func (scope.mono hj.within ?_) hstack' hat.suffix hvs' hfuel
      (by omega) hcall hl).imp (Nat.le_refl _) fun v υ q hq ↦ ⟨(hdj.trans hq.1).to ?_, hq.2⟩
    · rw [hj.stack]
      exact List.suffix_cons _ _
    · simp only [hj.ip, hdg.ip, codeSize_append, Nat.add_assoc, Target.callNamed, hty, Ty.isMethod]
      rfl
  | @method o e' s' _ hty object at' member nonneg offset stands =>
    have hsig : s' = s := by
      have := calledSignature_eq_ok hs
      rw [hty] at this
      exact Option.some.inj this
    subst hsig
    have heval : Eval.call call ρ f vs = Eval.invoke call a f vs := by rw [Eval.call, hbound]
    rw [heval]
    rw [if_pos (by simp [hty, Ty.isMethod]), ← offset] at hcall
    refine (hc.method hj.world (hj.within.objects _ _ object)
      (hj.world.ne_null (at'.mono hj.within)) (member.mono hj.within) (offset ▸ nonneg)
      (hty ▸ stands) hstack' hat.suffix hvs' hfuel (by omega) hcall).imp (Nat.le_refl _)
      fun v υ q hq ↦ ⟨(hdj.trans hq.1).to ?_, hq.2⟩
    simp only [hj.ip, hdg.ip, codeSize_append, Nat.add_assoc, Target.callNamed, hty, Ty.isMethod]
    rfl
  | value _ typed =>
    have := calledSignature_eq_ok hs
    cases hty : e.ty with
    | arrow _ => exact (hty ▸ typed : S.Typed _ _ (.arrow _)).elim
    | method _ => exact (hty ▸ typed : S.Typed _ _ (.method _)).elim
    | _ => simp [hty, Ty.callable?] at this
  | cls _ _ _ hty => simp [calledSignature, hty, Ty.callable?] at hs

theorem invoke (hc : S.Calls n k call) (hargs : ∀ x ∈ args, S.Simulates n k call x) :
    S.Simulates n k call (.invoke site x m args) := by
  intro env ty ip is ρ G σ c h hip hat
  obtain ⟨⟨i, i', hemit⟩, hcode, hrec, hcheck⟩ := h
  obtain ⟨r, e, values, hr, he, hvalues, rfl⟩ := Expr.emit_invoke_eq_ok hemit
  rw [Expr.resolve, recorded_append] at hrec
  simp only [Expr.check, Checked.result_bind, Checked.result_signature, Checked.result_typed,
    Except.ok.injEq] at hcheck
  obtain ⟨_, hreceiver, e', he', s, hs, _, hn, _, hcheck, rfl⟩ := hcheck
  subst hip
  rw [Expr.eval, Expr.cells]
  have hgrows : ∀ vs, (Eval.value ρ x >>= fun v ↦ Eval.invoke call v m vs).Grows := fun vs ↦
    .bind (Eval.reads_value ρ x).grows fun v ↦ Eval.grows_invoke hc.grows v m vs
  refine arguments hc hargs hvalues hcode hrec.2 hcheck (arity_eq hn) hat (by omega) hgrows
    fun vs τ g hdg hat' hcode' hvs hheight ↦ ?_
  have hstack : g.stack = vs ++ g.fp :: c.stack := by rw [hdg.stack, hdg.fp]
  rw [Target.callMethod, List.append_assoc, List.append_assoc, List.append_assoc,
    List.append_assoc] at hcode'
  -- the object
  obtain ⟨r', a, v, cls, e₁, info, hobj⟩ := hat'.receiver hrec.1 hreceiver
  obtain rfl := resolution_eq hr hobj.resolved
  obtain rfl := member_eq he hobj.member
  rw [Context.member, Checked.result_resolved, hobj.member] at he'
  obtain rfl := Option.some.inj he'
  rw [hobj.value]
  refine .after (hdg.world.variable hcode' hobj.frame hobj.loads (by omega))
    (.bind (Eval.grows_pure v) fun v ↦ Eval.grows_invoke hc.grows v m vs) fun j hj ↦ ?_
  have hdj := hdg.trans hj
  have hstack' : j.stack = v :: (vs ++ j.fp :: c.stack) := by rw [hj.stack, hstack, hj.fp]
  have hlen' : j.stack.length = g.stack.length + 1 := by rw [hj.stack, List.length_cons]
  have huse := hj.world.use_eq
  have hvs' := hvs.imp fun _ _ h ↦ h.mono hj.within
  have hfuel := Nat.le_trans hat.fuel (Nat.add_le_add_right hdj.steps k)
  have hip : j.ip = g.ip + codeSize (S.target.address r) + codeSize [.plain .loadWord] := hj.ip
  have hcall := hcode'.right.right
  rw [← hip] at hcall
  rcases hj.world.object (Typed.mono hobj.typed hj.within) with rfl | ⟨hv, o, ho, hobject, hbelow⟩
  · -- `null` has no dispatch table
    refine .error (τ := τ) rfl ((Image.Leads.duplicate hcall hstack' hj.world.prefix_printed
      hj.world.fits (by omega)).imp fun q hq ↦ ?_)
    have hload : CodeAt S.image.prog q.ip
        (.plain .loadWord :: (Target.loadAt e.offset ++ [.plain .jumpSub])) := by
      rw [hq.ip]
      exact hcall.right
    exact ⟨hq.printed.trans hj.world.printed, _, _, _, hload, hq.stack, by decide⟩
  · obtain ⟨e', hmember, hoffset, hstands⟩ := hobject.member hbelow hobj.known hobj.has
    rw [invokedSignature_eq_ok hs] at hstands
    obtain ⟨s', hs', -⟩ := hstands.method s rfl
    have hnonneg : 0 ≤ e'.offset := by
      cases hmember with
      | field neg value kept typed =>
        rw [hs'] at typed
        exact typed.elim
      | method nonneg => exact nonneg
    rw [← hoffset] at hcall
    refine (hc.method hj.world ho hv hmember hnonneg hstands hstack' hat.suffix hvs' hfuel
      (by omega) hcall).imp (Nat.le_refl _) fun w υ q hq ↦ ⟨(hdj.trans hq.1).to ?_, hq.2⟩
    simp only [hip, hdg.ip, codeSize_append, Nat.add_assoc, Target.callMethod]
    rfl

end Setting.Simulates

end ObjectLet
