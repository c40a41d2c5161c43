import ObjectLet.Proofs.Expressions

/-!
# Running functions

What remains are calls.  A function sets up its frame, in which its parameters already are, goes
through its local declarations, each of which leaves one value on the stack, evaluates its body, and
takes the frame down again.

All of this is for calls with some fuel, given that calls with less fuel are carried out; so
`Setting.calls_run` is by induction on the fuel.  The machine has gone through a step more each time
the fuel gets less, and so it has gone through as many steps as there was fuel when the evaluator
runs out of it.

The fuel also says how high the stack can get.  A frame is no higher than the code of its function
is long, so `Setting.frameSize` cells for each unit of fuel are enough for all calls together.
-/

set_option autoImplicit false

namespace ObjectLet

namespace Setting

variable {S : Setting} {w : Space} {G : List Int32} {env : Env} {l : Layer} {ρ : Bindings}
  {σ τ : Store} {c d : Config} {ip n k bound : Nat} {st stack above below is : List Int32}
  {a v : Int32} {call : Caller}

/-! ## Frames -/

/-- An offset is that of a value on the stack if the next one is that of the value below it. -/
theorem offset_cons {m : Image} {i : Int} :
    a + Int32.ofInt i = m.sp (v :: st) ↔ a + Int32.ofInt (i + 1) = m.sp st := by
  have hsp : m.sp st = m.sp (v :: st) + Int32.ofInt 1 := by
    rw [Image.sp, Image.sp, ← Int32.ofInt_add, List.length_cons]
    congr 1
    omega
  rw [hsp, Int32.ofInt_add, ← Int32.add_assoc, Int32.add_left_inj]

/-- **The parameters of a function** are found next to each other in its frame, in the order in
which the caller has left the arguments there. -/
theorem Scoped.params (above below : List Int32) {bs : List Binder} {vs : List Int32} {offset : Int}
    (h : S.Scoped w st env (l :: ρ) a) (hρ : ρ ≠ [])
    (hrec : Recorded S.ctx (env.declareParams offset bs).2)
    (hvs : List.Forall₂ (S.Typed w) vs (bs.map Binder.ty)) (hst : st = above ++ (vs ++ below))
    (ha : a + Int32.ofInt offset = S.image.sp (vs ++ below)) :
    S.Scoped w st (env.declareParams offset bs).1 (bindParams l bs vs :: ρ) a := by
  induction bs generalizing env l vs offset above with
  | nil =>
    cases hvs
    exact h
  | cons b bs ih =>
    obtain _ | @⟨v, _, vs, _, hv, hvs⟩ := hvs
    simp only [Env.declareParams, recorded_append] at hrec ⊢
    obtain ⟨scopes, hs, henv⟩ := Env.declare_of_recorded hrec.1
    rw [bindParams]
    have hdeclare : env.scopes.declare? b.name ⟨env.level, b.ty, offset⟩
        = some (env.declare b.site b.name ⟨env.level, b.ty, offset⟩).1.scopes := by
      rw [henv]
      exact hs
    have hkept : S.image.Loads st w.heap (a + Int32.ofInt offset) v := by
      rw [ha]
      exact .stack hst
    exact ih (above ++ [v]) (.value h hρ hdeclare hkept hv) hrec.2 hvs (by rw [hst]; simp)
      (offset_cons.1 ha)

/-! ## Local declarations -/

/-- What holds between two local declarations of a function.  The machine is where the evaluator is,
and has put the values of the declarations so far on the stack. -/
structure Local (S : Setting) (n k : Nat) (G : List Int32) (env : Env) (l : Layer) (ρ : Bindings)
    (σ : Store) (c : Config) : Prop where
  /-- The names in scope are in place. -/
  names : S.At n k G env (l :: ρ) σ c
  /-- There are scopes around the function. -/
  inner : ρ ≠ []
  /-- The next declaration will be found where the next value on the stack is. -/
  next : c.fp + Int32.ofInt (env.nextOffset + 1) = S.image.sp c.stack

/-- Some local declarations have been gone through, each of which has left a value on the stack. -/
def Declared (S : Setting) (n k : Nat) (G : List Int32) (ρ : Bindings) (σ : Store) (c : Config)
    (ip count : Nat) (env : Env) (ρ' : Bindings) (τ : Store) (d : Config) : Prop :=
  ∃ l vs, ρ' = l :: ρ ∧ vs.length = count ∧ S.Arrives G σ c ip (vs ++ c.stack) τ d ∧
    S.Local n k G env l ρ τ d

/-- A function that is declared without errors.  Its name is in scope in its own body, too. -/
theorem Func.declared {env' : Env} {f : FunDecl} {entry : Label}
    (hd : env.Declares f.name (.arrow f.signature) env')
    (hwithin : env.classes.Within S.ctx.classes) (hrec : Recorded S.ctx (f.resolveBody env'))
    (hcheck : typeErrors (f.check S.ctx).remarks = [])
    (hemit : EmittedAs S.target S.emission f entry) : S.Func env' f entry where
  frames := by
    obtain ⟨frame, rest, -, -, hframes⟩ := hd.frames_eq
    rw [hframes]
    exact List.cons_ne_nil _ _
  recorded := hrec
  checked := hcheck
  within := hd.classes_eq ▸ hwithin
  emitted := hemit

/-- A declaration adds a name to the frame. -/
theorem Local.declare {env' : Env} {x : String} {ty : Ty} {b : Binding}
    (h : S.Local n k G env l ρ σ c) (hd : S.Arrives G σ c ip (v :: c.stack) τ d)
    (hx : env.Declares x ty env') (hnames : S.Scoped (space G τ d) d.stack env (l :: ρ) d.fp →
      S.image.Loads d.stack d.heap (d.fp + Int32.ofInt env.nextOffset) v →
      env.scopes.declare? x ⟨env.level, ty, env.nextOffset⟩ = some env'.scopes →
      S.Scoped (space G τ d) d.stack env' (((x, b) :: l) :: ρ) d.fp) :
    S.Declared n k G ρ σ c ip 1 env' (Bindings.bind x b (l :: ρ)) τ d := by
  have hat := h.names.arrives hd (List.suffix_cons _ _)
  have hnext : d.fp + Int32.ofInt env.nextOffset = S.image.sp d.stack := by
    rw [hd.fp, hd.stack]
    exact offset_cons.2 h.next
  have hkept : S.image.Loads d.stack d.heap (d.fp + Int32.ofInt env.nextOffset) v := by
    rw [hnext, hd.stack]
    exact .stack (List.nil_append _).symm
  have hclasses := hx.classes_eq
  obtain ⟨scopes, hs, rfl⟩ := hx
  refine ⟨_, [v], rfl, rfl, hd, ⟨hnames hat.names hkept hs, hclasses ▸ hat.within, hat.world,
    hat.fuel⟩, h.inner, ?_⟩
  rw [Int.sub_add_cancel]
  exact hnext

theorem Local.level (h : S.Local n k G env l ρ σ c) : env.level ≠ 0 := by
  have := List.length_pos_iff.2 h.inner
  rw [h.names.names.level_eq, List.length_cons]
  omega

/-- The entry of a function is pushed, as the value of the function. -/
theorem World.pushEntry {entry : Label} {rest : List Instr} (h : S.World G σ c)
    (hat : CodeAt S.image.prog c.ip (.pushLabel entry :: rest))
    (hb : c.stack.length + 1 ≤ bound) :
    S.image.Leads σ.printed (bound + σ.next)
      (S.Arrives G σ c (c.ip + 2) (S.image.entry entry :: c.stack) σ) c := by
  have huse := h.use_eq
  exact h.goes (h.globals.trans (List.suffix_cons _ _))
    (.pushed hat (.pushLabel entry) h.prefix_printed (by omega))

/-- A local declaration, which is a variable or a function: classes are not declared there
without an error. -/
theorem Local.decl (hc : S.Calls n k call) {x : Decl} {s s' : Emission} {is : List Instr}
    (h : S.Local n k G env l ρ σ c) (hemit : x.emit S.target s = .ok is s')
    (hfunctions : s'.functions <+: S.emission.functions) (hcode : CodeAt S.image.prog c.ip is)
    (hrec : Recorded S.ctx (x.resolve env).2) (hcheck : typeErrors (x.check S.ctx) = [])
    (hb : c.stack.length + codeSize is + k * S.frameSize ≤ bound) :
    S.image.Runs bound n (x.eval call (l :: ρ)) σ c
      (S.Declared n k G ρ σ c (c.ip + codeSize is) 1 (x.resolve env).1) := by
  have hpos := Decl.codeSize_pos hemit
  cases x with
  | var site x ty e =>
    simp only [Decl.resolve, recorded_append] at hrec ⊢
    obtain ⟨t, ht, hs⟩ := Decl.init_typed h.names.within hrec.1.1 hcheck
    rw [Decl.emit, emitter_labels_eq_ok] at hemit
    obtain ⟨i, he, -⟩ := hemit
    have hcells := Expr.cells_le_codeSize he
    have hx := Env.declares_of_recorded hrec.2
    refine (e.simulates hc ⟨⟨_, _, he⟩, hcode, hrec.1.1, ht⟩ rfl h.names).bind (by omega)
      (fun _ ↦ Eval.grows_pure _) fun v τ d hd ↦ .pure (.here ?_)
    obtain ⟨hd, hv⟩ := hd
    exact h.declare hd hx fun hnames hkept hdeclare ↦
      .value hnames h.inner hdeclare hkept (hv.subtype hs)
  | func f =>
    simp only [Decl.resolve, recorded_append] at hrec ⊢
    rw [Decl.check, typeErrors_recover] at hcheck
    obtain ⟨hf, rfl⟩ := Decl.emit_func_eq_ok.1 hemit
    have hx := Env.declares_of_recorded hrec.1.2
    refine .pure ((h.names.world.pushEntry hcode (by omega)).imp fun d hd ↦ h.declare hd hx
      fun hnames hkept hdeclare ↦ .func hnames h.inner hdeclare hkept
        (.declared hx h.names.within hrec.2 hcheck ⟨_, s', hf, hfunctions⟩))
  | cls c => exact absurd (Decl.classes_eq_nil h.level hrec) (List.cons_ne_nil _ _)

/-- **Local declarations**, one after the other.  Each leaves its value on top of those before
it. -/
theorem Local.decls (hc : S.Calls n k call) {xs : List Decl} {s s' : Emission} {is : List Instr}
    (h : S.Local n k G env l ρ σ c) (hemit : Decl.emitAll S.target xs s = .ok is s')
    (hfunctions : s'.functions <+: S.emission.functions) (hcode : CodeAt S.image.prog c.ip is)
    (hrec : Recorded S.ctx (Decl.resolveAll env xs).2)
    (hcheck : typeErrors (Decl.checkAll S.ctx xs) = [])
    (hb : c.stack.length + codeSize is + k * S.frameSize ≤ bound) :
    S.image.Runs bound n (Decl.evalAll call (l :: ρ) xs) σ c
      (S.Declared n k G ρ σ c (c.ip + codeSize is) xs.length (Decl.resolveAll env xs).1) := by
  induction xs generalizing env l σ c s is with
  | nil =>
    rw [Decl.emitAll, emitter_pure] at hemit
    cases hemit
    exact .pure (.here ⟨l, [], rfl, rfl, ⟨rfl, rfl, rfl, h.names.world, .refl _, Nat.le_refl _⟩, h⟩)
  | cons x xs ih =>
    obtain ⟨first, s₁, rest, hfirst, hrest, rfl⟩ := Decl.emitAll_cons_eq_ok.1 hemit
    simp only [Decl.resolveAll, recorded_append] at hrec ⊢
    rw [Decl.checkAll, typeErrors_append, List.append_eq_nil_iff] at hcheck
    have hmore : s₁.functions <+: s'.functions := by
      obtain ⟨ty, hx⟩ := Decl.declares_of_recorded (Decl.classes_eq_nil h.level hrec.1) hrec.1
      obtain ⟨_, _, hrest', -, hmore⟩ := (Decl.emits_all S.knows xs (hx.level_eq ▸ h.level)
        (hx.classes_eq ▸ h.names.within) hrec.2 hcheck.2).1 s₁
      rw [hrest] at hrest'
      cases hrest'
      exact hmore
    rw [Decl.evalAll]
    rw [codeSize_append] at hb
    have hpos := Decl.codeSize_pos hfirst
    refine (h.decl hc hfirst (hmore.trans hfunctions) hcode.left hrec.1 hcheck.1
      (Nat.le_refl _)).bind (by omega) (fun ρ ↦ Decl.grows_all hc.grows ρ xs) ?_
    rintro _ τ d ⟨l, vs, rfl, hvs, hd, h'⟩
    have hcode' := hcode.right
    rw [← hd.ip] at hcode'
    refine (ih h' hrest hcode' hrec.2 hcheck.2
      (by rw [hd.stack, List.length_append, hvs]; omega)).imp (Nat.le_refl _) ?_
    rintro _ υ e ⟨l, ws, rfl, hws, he, h''⟩
    refine ⟨l, ws ++ vs, rfl, ?_, ?_, h''⟩
    · rw [List.length_append, hws, hvs, List.length_cons]
    · have := hd.trans he
      rwa [hd.ip, hd.stack, Nat.add_assoc, ← codeSize_append, ← List.append_assoc] at this

/-! ## Calls -/

/-- The code of a function, with the parts that it is put together from. -/
theorem Func.code {f : FunDecl} {entry : Label} (h : S.Func env f entry) :
    ∃ a declared result s s₁ i, CodeAt S.image.prog a (prologue entry ++ declared ++ result
        ++ epilogue f.locals.length f.params.length) ∧
      Decl.emitAll S.target f.locals s = .ok declared s₁ ∧
      s₁.functions <+: S.emission.functions ∧
      f.body.emit S.target s₁.nextLabel = .ok (result, i) ∧
      codeSize declared + codeSize result + 1 ≤ S.frameSize := by
  obtain ⟨s, s', hemit, ⟨more, hmore⟩⟩ := h.emitted
  obtain ⟨a, hat⟩ := S.functions
  obtain ⟨declared, s₁, result, i, hd, hr, rfl⟩ := FunDecl.emit_eq_ok hemit
  rw [← hmore] at hat
  refine ⟨_, declared, result, _, s₁, i, hat.left.right, hd, ?_, hr, ?_⟩
  · rw [← hmore, List.append_assoc]
    exact List.prefix_append _ _
  · have hprologue : codeSize (prologue entry) = 2 := rfl
    rw [frameSize, ← hmore]
    simp only [codeSize_append, hprologue]
    omega

/-- **The machine enters a function**, and is then about to go through its local declarations. -/
theorem Called.enter {env : Env} {f : FunDecl} {args : List Int32} {entry : Label} {link : Int32}
    {ret : Nat} {rest : List Instr} (h : S.Called G f ρ args ret st σ c)
    (hfunc : S.Func env f entry) (hscope : S.Scoped (space G σ c) c.stack env ρ link)
    (hip : c.ip = addressOf entry S.image.prog) (hs : c.stack = link :: (args ++ c.fp :: st))
    (hat : CodeAt S.image.prog ip (prologue entry ++ rest)) (hn : n ≤ c.steps + (k + 1))
    (hb : c.stack.length + 1 ≤ bound) :
    S.image.Leads σ.printed (bound + σ.next) (fun d ↦
      d.ip = ip + codeSize (prologue entry) ∧ d.stack = c.ra :: c.stack ∧
      (space G σ c).Within (space G σ d) ∧ c.steps ≤ d.steps ∧
      S.Local n k G (env.enter.declareParams firstParamOffset f.params).1
        (bindParams [] f.params args) ρ σ d) c := by
  have hinner : ρ ≠ [] := by
    rintro rfl
    exact hfunc.frames (List.length_eq_zero_iff.1 hscope.length_frames)
  have hrec := hfunc.recorded
  rw [FunDecl.resolveBody_eq, recorded_append, recorded_append] at hrec
  obtain ⟨-, hclasses, hnext⟩ := Env.declareParams_of_recorded hrec.1.1
  have huse := h.world.use_eq
  refine (Image.Leads.prologue S.sized hat hip h.world.prefix_printed (by omega)).imp ?_
  rintro d ⟨hdip, hstack, hheap, hhp, hfp, hprinted, hsteps, hfits⟩
  have hsuffix : c.stack <:+ d.stack := hstack ▸ List.suffix_cons _ _
  obtain ⟨hworld, hspace⟩ := h.world.same hheap hhp hprinted hfits (h.world.globals.trans hsuffix)
  rw [hs] at hfp
  refine ⟨hdip, hstack, hspace ▸ .refl _, Nat.le_of_lt hsteps, ⟨?_, ?_, hworld, by omega⟩, hinner,
    ?_⟩
  · have hframe : S.Scoped (space G σ d) d.stack env.enter ([] :: ρ) d.fp := by
      rw [hfp]
      have hlink : d.stack = [c.ra] ++ link :: (args ++ c.fp :: st) := by rw [hstack, hs]; rfl
      exact .enter (hscope.mono (hspace ▸ .refl _) hsuffix) hinner hlink
    refine hframe.params [c.ra, link] (c.fp :: st) hinner hrec.1.1
      (hspace ▸ h.args) (by rw [hstack, hs]; rfl) ?_
    rw [hfp]
    exact (offset_cons (i := 0)).1 (Int32.add_zero _)
  · rw [hclasses]
    exact hfunc.within
  · rw [hnext, hstack, hs, hfp]
    exact offset_cons.2 (Int32.add_zero _)

/-- **Calls are carried out as the evaluator does**, with any fuel.  The proof is by induction on
the fuel: calls inside a function have one unit less, and one frame more on the stack. -/
theorem calls_run (S : Setting) (n k : Nat) : S.Calls n k (Callee.run k) := by
  induction k with
  | zero =>
    exact ⟨fun f vs ↦ Callee.grows 0 f vs, fun h hn ↦ .error rfl (.here ⟨h.world.printed, hn⟩)⟩
  | succ k ih =>
    refine ⟨fun f vs ↦ Callee.grows (k + 1) f vs, fun {G f ρ args ret st σ c} h hn ↦ ?_⟩
    obtain ⟨env, entry, link, hfunc, hip, hs, hscope⟩ := h.func
    obtain ⟨a, declared, result, s, s₁, i, hat, hdeclared, hfunctions, hresult, hframe⟩ :=
      hfunc.code
    have hrec := hfunc.recorded
    rw [FunDecl.resolveBody_eq, recorded_append, recorded_append] at hrec
    obtain ⟨hlocals, hbody⟩ := FunDecl.typeErrors_check hfunc.checked
    have hat₁ := hat
    rw [List.append_assoc, List.append_assoc] at hat₁
    -- the return address, the local declarations and the body make one frame
    have hcells := Expr.cells_le_codeSize hresult
    rw [Nat.succ_mul]
    refine .after (h.enter hfunc hscope hip hs hat₁ hn (by omega))
      (.bind (Decl.grows_all ih.grows _ _) fun ρ ↦ f.body.grows ih.grows ρ)
      fun d ⟨hdip, hdstack, hwithin, hsteps, hd⟩ ↦ ?_
    have hlen : d.stack.length = c.stack.length + 1 := by rw [hdstack, List.length_cons]
    have hat₂ := hat₁.right
    rw [← hdip] at hat₂
    refine (hd.decls ih hdeclared hfunctions hat₂.left hrec.1.2 hlocals (Nat.le_refl _)).bind
      (by omega) (fun ρ ↦ f.body.grows ih.grows ρ) ?_
    rintro _ τ e ⟨l, vs, rfl, hvs, he, he'⟩
    have hheight := Decl.length_le_codeSize hdeclared
    have hlen' : e.stack.length = vs.length + d.stack.length := by rw [he.stack, List.length_append]
    obtain ⟨ty, hty, hsub⟩ := FunDecl.body_typed he'.names.within hrec.2 hbody
    have hat₃ := hat₂.right
    rw [← he.ip] at hat₃
    refine (f.body.simulates ih ⟨⟨_, _, hresult⟩, hat₃.left, hrec.2, hty⟩ rfl he'.names).andThen
      (by omega) fun v υ g ⟨hg, hv⟩ ↦ ?_
    have hat₄ := hat₃.right
    have hparams : f.params.length = args.length := by
      rw [h.args.length_eq]
      exact (List.length_map _).symm
    rw [← hg.ip, ← hvs, hparams, ← List.append_nil (epilogue _ _)] at hat₄
    have hstack : g.stack = v :: (vs ++ Int32.ofNat ret :: link :: (args ++ c.fp :: st)) := by
      rw [hg.stack, he.stack, hdstack, h.ra, hs]
    refine (Image.Leads.epilogue hat₄ hstack h.ret hg.world.prefix_printed
      hg.world.fits).before.imp ?_
    rintro q ⟨⟨hip, hqstack, hheap, hhp, hfp, hprinted, hfits⟩, hbefore⟩
    obtain ⟨hworld, hspace⟩ := hg.world.same hheap hhp hprinted hfits
      (hqstack ▸ h.globals.trans (List.suffix_cons _ _))
    refine ⟨⟨hip, hqstack, hfp, hworld, ?_, ?_⟩, hspace ▸ hv.subtype hsub⟩
    · rw [hspace]
      exact (hwithin.trans he.within).trans hg.within
    · exact Nat.le_trans (Nat.le_trans hsteps (Nat.le_trans he.steps hg.steps)) hbefore.steps

end Setting

end ObjectLet
