import ObjectLet.Proofs.Functions
import ObjectLet.Proofs.Outcomes

/-!
# Running programs

The global declarations of a program are gone through in a frame at the top of the memory, above
which there is nothing.  Each of them leaves one value on the stack for good, so all that was known
about the global part of the memory stays true (`Setting.Top.decls`).  A class also builds its
dispatch table on the heap.

* `Setting.letIn`, `Setting.bare`: **the main code of a program does what the program does**, up to
  its `halt`.
-/

set_option autoImplicit false

namespace ObjectLet

open Table (lookupIn)

namespace Setting

variable {S : Setting} {G : List Int32} {env env' : Env} {L : Layer} {s s' : Emission}
  {σ τ : Store} {c d : Config} {n k bound ip : Nat} {is : List Instr} {call : Caller} {v : Int32}

/-! ## Global declarations -/

/-- What holds between two global declarations.  The machine is where the evaluator is, and the
classes declared so far have the dispatch tables that were made for them. -/
structure Top (S : Setting) (n k : Nat) (env : Env) (L : Layer) (s : Emission) (σ : Store)
    (c : Config) : Prop where
  /-- The declarations so far are in place. -/
  names : S.Globals (space c.stack σ c) env L
  /-- The machine is in the global frame. -/
  frame : c.fp = S.target.base
  /-- There is one value on the stack for each declaration, and one more. -/
  height : c.stack.length = L.length + 1
  /-- The machine is where the evaluator is. -/
  world : S.World c.stack σ c
  /-- There are not too many steps left. -/
  fuel : n ≤ c.steps + k
  /-- The classes have their dispatch tables. -/
  tables : s.Tables S.target env.classes L.classes
  /-- All labels that have been used are known. -/
  closed : s.Closed

/-- More may be counted as the global part of the memory. -/
theorem World.widen {H : List Int32} (h : S.World G σ c) (hG : G <:+ H) (hH : H <:+ c.stack) :
    S.World H σ c where
  heap := h.heap
  next := h.next
  printed := h.printed
  fits := h.fits
  globals := hH
  objects := fun v o ho ↦ (h.objects v o ho).mono ⟨hG, List.prefix_rfl, fun _ _ h ↦ h⟩

/-- The names in scope where a global declaration is. -/
theorem Top.here (h : S.Top n k env L s σ c) : S.At n k c.stack env [L] σ c where
  names := h.frame ▸ .globals h.names
  within := h.names.within
  world := h.world
  fuel := h.fuel

/-- A global declaration has left a value on the stack. -/
theorem Top.arrives (h : S.Top n k env L s σ c)
    (hd : S.Arrives c.stack σ c ip (v :: c.stack) τ d) :
    S.World d.stack τ d ∧ (space c.stack σ c).Within (space d.stack τ d) ∧
      S.Kept (space d.stack τ d) (S.target.base + Int32.ofInt env.nextOffset) v := by
  have hsuffix : c.stack <:+ d.stack := hd.stack ▸ List.suffix_cons _ _
  refine ⟨hd.world.widen hsuffix List.suffix_rfl, ⟨hsuffix, hd.within.heap, hd.within.objects⟩, ?_⟩
  have hglobals : (space d.stack τ d).globals = [] ++ v :: c.stack := hd.stack
  have hoffset : S.target.base + Int32.ofInt env.nextOffset = S.image.sp (v :: c.stack) := by
    rw [S.base_eq, h.names.nextOffset_eq, ← Int32.ofInt_add, Image.sp, List.length_cons, h.height]
    congr 1
    omega
  rw [hoffset]
  exact .stack hglobals

theorem Top.declared {L' : Layer} (h : S.Top n k env L s σ c)
    (hd : S.Arrives c.stack σ c ip (v :: c.stack) τ d) (hL : L'.length = L.length + 1)
    (hnames : S.Globals (space d.stack τ d) env' L')
    (htables : s'.Tables S.target env'.classes L'.classes) (hclosed : s'.Closed) :
    S.Top n k env' L' s' τ d where
  names := hnames
  frame := hd.fp.trans h.frame
  height := by rw [hd.stack, List.length_cons, h.height, hL]
  world := (h.arrives hd).1
  fuel := Nat.le_trans h.fuel (Nat.add_le_add_right hd.steps k)
  tables := htables
  closed := hclosed

/-- A class puts its dispatch table on the heap. -/
theorem Top.cls {decl : ClassDecl} {entries : List (String × Label)} {rest : List Instr}
    (h : S.Top n k env L s σ c)
    (haccepts : env.Accepts S.ctx decl) (hdisp : decl.Dispatched (S.ctx.inheritedMembers decl))
    (hentries : EntriesOf S.target S.emission (decl :: L.classes) decl.name entries)
    (hcode : CodeAt S.image.prog c.ip (buildDispatch (entries.map Prod.snd) ++ rest))
    (htables : s'.Tables S.target (decl.resolve env).1.classes (decl :: L.classes))
    (hclosed : s'.Closed) (hb : c.stack.length + 2 ≤ bound) :
    S.image.Leads σ.printed (bound + (σ.next + entries.length)) (fun d ↦
      d.ip = c.ip + codeSize (buildDispatch (entries.map Prod.snd)) ∧
      S.Top n k (decl.resolve env).1 ((decl.name, .cls decl) :: L) s'
        { σ with next := σ.next + entries.length } d) c := by
  have huse := h.world.use_eq
  refine (Image.Leads.buildDispatch hcode h.world.heap h.world.prefix_printed
    (by rw [List.length_map]; omega)).before.imp fun d ⟨hd, hbefore⟩ ↦ ⟨hd.ip, ?_⟩
  have hlen : d.heap.length = d.hp := hd.length h.world.heap
  have hhp := hd.hp
  rw [List.length_map, List.length_map] at hhp
  have hwithin : (space c.stack σ c).Within
      (space c.stack { σ with next := σ.next + entries.length } d) :=
    ⟨List.suffix_rfl, hbefore.heap, fun _ _ h ↦ h⟩
  have harrives : S.Arrives c.stack σ c d.ip (Int32.ofNat c.hp :: c.stack)
      { σ with next := σ.next + entries.length } d := by
    refine ⟨rfl, hd.stack, hd.fp, ⟨hlen, by rw [hhp, h.world.next],
      hd.printed.trans h.world.printed, hd.fits, ?_,
      fun v o ho ↦ (h.world.objects v o ho).mono hwithin⟩, hwithin, hbefore.steps⟩
    rw [hd.stack]
    exact List.suffix_cons _ _
  obtain ⟨-, hspace, hkept⟩ := h.arrives harrives
  refine h.declared harrives rfl (.cls (h.names.mono hspace) haccepts hdisp hkept
    ⟨entries, hentries, fun i l hl ↦ ?_⟩) htables hclosed
  rw [← Int32.ofNat_add]
  refine .heap ?_
  show d.heap[c.hp + i]? = _
  rw [hd.heap, ← h.world.heap, List.getElem?_append_right (Nat.le_add_right _ _),
    Nat.add_sub_cancel_left, List.getElem?_map, hl]
  rfl

/-- Some global declarations have been gone through, and the stack has the given height.  The scope
has grown by what they declare. -/
def Passed (S : Setting) (n k ip height : Nat) (env : Env) (s : Emission) (ρ : Bindings) (τ : Store)
    (d : Config) : Prop :=
  ∃ L, ρ = [L] ∧ d.ip = ip ∧ d.stack.length = height ∧ S.Top n k env L s τ d

theorem eval_cls (call : Caller) (decl : ClassDecl) (L : Layer) (σ : Store) :
    (Decl.cls decl).eval call [L] σ = .ok [(decl.name, .cls decl) :: L]
      { σ with next := σ.next
          + (Layer.methodNames ((decl.name, .cls decl) :: L) decl.name).length } := by
  have hclass : Bindings.class? [(decl.name, .cls decl) :: L] decl.name
      = some ((decl.name, .cls decl) :: L) := by
    simp [Bindings.class?, Layer.bound?]
  simp only [Decl.eval, Bindings.bind, hclass]
  rfl

/-- A global declaration.  For a class this is where its dispatch table is built. -/
theorem Top.decl (hc : S.Calls n k call) {x : Decl} (h : S.Top n k env L s σ c)
    (hemit : x.emit S.target s = .ok is s') (hfunctions : s'.functions <+: S.emission.functions)
    (hcode : CodeAt S.image.prog c.ip is) (hrec : Recorded S.ctx (x.resolve env).2)
    (hcheck : typeErrors (x.check S.ctx) = [])
    (hwithin : (x.resolve env).1.classes.Within S.ctx.classes)
    (hdisp : ∀ c ∈ x.classes, c.Dispatched (S.ctx.inheritedMembers c))
    (hb : c.stack.length + codeSize is + 1 + k * S.frameSize ≤ bound) :
    S.image.Runs bound n (x.eval call [L]) σ c
      (S.Passed n k (c.ip + codeSize is) (c.stack.length + 1) (x.resolve env).1 s') := by
  have hpos := Decl.codeSize_pos hemit
  have hclosed := (Decl.adds_emit x h.closed hemit).closed
  have htables : s'.Tables S.target (x.resolve env).1.classes (x.classes ++ L.classes) := by
    obtain ⟨_, _, hemit', htables⟩ :=
      Decl.emit_global S.knows h.names.global h.tables hrec hcheck hwithin hdisp
    rw [hemit] at hemit'
    cases hemit'
    exact htables
  cases x with
  | var site x ty e =>
    simp only [Decl.resolve, recorded_append] at hrec htables ⊢
    obtain ⟨t, ht, hs⟩ := Decl.init_typed h.here.within hrec.1.1 hcheck
    rw [Decl.emit, emitter_labels_eq_ok] at hemit
    obtain ⟨i, he, -⟩ := hemit
    have hcells := Expr.cells_le_codeSize he
    refine (e.simulates hc ⟨⟨_, _, he⟩, hcode, hrec.1.1, ht⟩ rfl h.here).bind (by omega)
      (fun _ ↦ Eval.grows_pure _) fun v τ d hd ↦
        .pure (.here ⟨_, rfl, hd.1.ip, congrArg List.length hd.1.stack, ?_⟩)
    obtain ⟨hd, hv⟩ := hd
    obtain ⟨-, hspace, hkept⟩ := h.arrives hd
    have hv : S.Typed (space d.stack τ d) v t := hv
    exact h.declared hd rfl (.var (h.names.mono hspace) (Env.declares_of_recorded hrec.2) hkept
      (hv.subtype hs)) htables hclosed
  | func f =>
    simp only [Decl.resolve, recorded_append] at hrec htables ⊢
    rw [Decl.check, typeErrors_recover] at hcheck
    obtain ⟨hf, rfl⟩ := Decl.emit_func_eq_ok.1 hemit
    have hx := Env.declares_of_recorded hrec.1.2
    refine .pure ((h.world.pushEntry hcode (by omega)).imp fun d hd ↦
      ⟨_, rfl, hd.ip, congrArg List.length hd.stack, ?_⟩)
    obtain ⟨-, hspace, hkept⟩ := h.arrives hd
    exact h.declared hd rfl (.func (h.names.mono hspace) hx hkept
      (.declared hx h.here.within hrec.2 hcheck ⟨_, s', hf, hfunctions⟩)) htables hclosed
  | cls decl =>
    have hglobal := h.names.global.resolve hrec hcheck h.here.within hdisp
    rw [Decl.resolve] at hrec hwithin htables ⊢
    rw [Decl.emit] at hemit
    have haccepts : env.Accepts S.ctx decl := ⟨hrec, hcheck, hwithin⟩
    have hdispatched := hdisp decl (List.mem_singleton_self decl)
    obtain ⟨entries, _, hemit', hentries, -, -⟩ :=
      haccepts.emit_spec h.names.global S.knows h.tables hdispatched
    rw [hemit] at hemit'
    cases hemit'
    have hlen : (Layer.methodNames ((decl.name, .cls decl) :: L) decl.name).length
        = entries.length := by
      rw [Env.Global.methodNames_eq (L := (decl.name, .cls decl) :: L) hglobal, List.length_map]
      have hnames := congrArg List.length hentries.names
      rw [List.length_map, List.length_map] at hnames
      exact hnames.symm
    refine .ok (eval_cls call decl L σ) ?_
    rw [hlen, ← List.append_nil (buildDispatch _)] at *
    have hb' : c.stack.length + 2 ≤ bound := by omega
    refine (h.cls haccepts hdispatched (hentries.mono hfunctions) hcode htables hclosed hb').imp
      fun d hd ↦ ⟨_, rfl, ?_, ?_, hd.2⟩
    · rw [hd.1, List.append_nil]
    · rw [hd.2.height, h.height, List.length_cons]

/-- **Global declarations**, one after the other.  Functions get no code here, and classes leave
their dispatch tables on the heap. -/
theorem Top.decls (hc : S.Calls n k call) {xs : List Decl} (h : S.Top n k env L s σ c)
    (hemit : Decl.emitAll S.target xs s = .ok is s')
    (hfunctions : s'.functions <+: S.emission.functions) (hcode : CodeAt S.image.prog c.ip is)
    (hrec : Recorded S.ctx (Decl.resolveAll env xs).2)
    (hcheck : typeErrors (Decl.checkAll S.ctx xs) = [])
    (hwithin : (Decl.resolveAll env xs).1.classes.Within S.ctx.classes)
    (hdisp : ∀ x ∈ xs, ∀ c ∈ x.classes, c.Dispatched (S.ctx.inheritedMembers c))
    (hb : c.stack.length + codeSize is + 1 + k * S.frameSize ≤ bound) :
    S.image.Runs bound n (Decl.evalAll call [L] xs) σ c
      (S.Passed n k (c.ip + codeSize is) (c.stack.length + xs.length)
        (Decl.resolveAll env xs).1 s') := by
  induction xs generalizing env L σ c s is with
  | nil =>
    rw [Decl.emitAll, emitter_pure] at hemit
    cases hemit
    exact .pure (.here ⟨L, rfl, rfl, rfl, h⟩)
  | cons x xs ih =>
    obtain ⟨first, s₁, rest, hfirst, hrest, rfl⟩ := Decl.emitAll_cons_eq_ok.1 hemit
    simp only [Decl.resolveAll, recorded_append] at hrec hwithin ⊢
    rw [Decl.checkAll, typeErrors_append, List.append_eq_nil_iff] at hcheck
    rw [List.forall_mem_cons] at hdisp
    have hwithin₁ := ((h.names.global.top.resolve hrec.1).1.within_resolveAll hrec.2).trans hwithin
    have hmore : s₁.functions <+: s'.functions := by
      obtain ⟨added, hadded, -⟩ :=
        (Decl.adds_emitAll xs (Decl.adds_emit x h.closed hfirst).closed hrest).functions
      rw [hadded]
      exact List.prefix_append _ _
    rw [Decl.evalAll]
    rw [codeSize_append] at hb
    have hpos := Decl.codeSize_pos hfirst
    refine (h.decl hc hfirst (hmore.trans hfunctions) hcode.left hrec.1 hcheck.1 hwithin₁ hdisp.1
      (Nat.le_refl _)).bind (by omega) (fun ρ ↦ Decl.grows_all hc.grows ρ xs) ?_
    rintro _ τ d ⟨L, rfl, hip, hheight, hd⟩
    have hcode' := hcode.right
    rw [← hip] at hcode'
    refine (ih hd hrest hcode' hrec.2 hcheck.2 hwithin hdisp.2 (by omega)).imp (Nat.le_refl _) ?_
    rintro _ υ e ⟨L, rfl, hip', hheight', he⟩
    refine ⟨L, rfl, ?_, ?_, he⟩
    · rw [hip', hip, codeSize_append, Nat.add_assoc]
    · rw [hheight', hheight, List.length_cons, Nat.add_assoc, Nat.add_comm 1]

/-! ## Whole programs -/

/-- The configuration that a run starts from. -/
def start (S : Setting) : Config where
  ip := 0
  stack := []
  heap := []
  hp := 0
  fp := S.target.base
  ra := 0
  tm := 0
  steps := 0
  printed := []

theorem world_start (htop : 0 < S.image.top) : S.World [] {} S.start where
  heap := rfl
  next := rfl
  printed := rfl
  fits := htop
  globals := List.suffix_rfl
  objects := fun _ _ h ↦ nomatch h

/-- **The main code of a bare expression** does what the expression does.  Nothing is below its
value on the stack. -/
theorem bare {e : Expr} {call : Caller} (hc : S.Calls n k call)
    (hacc : (Program.bare e).Accepted S.ctx) {main : List Instr}
    (hemit : (Program.bare e).emitMain S.target {} = .ok main S.emission)
    (hcode : CodeAt S.image.prog 0 main) (htop : 0 < S.image.top) (hn : n ≤ k) :
    S.image.Runs e.cells n (e.eval call []) {} S.start fun v τ d ↦ S.image.Stops v [] τ d := by
  obtain ⟨result, i, he, rfl, hemission⟩ := Program.emitMain_bare_eq_ok hemit
  -- there is no function that could be called
  have hframe : S.frameSize = 0 := by rw [frameSize, hemission]; rfl
  obtain ⟨hrec, hclasses, ty, hty⟩ := hacc.of_bare
  have hat : S.At n k [] ⟨.empty, .empty, firstDeclOffset⟩ [] {} S.start :=
    ⟨.bare rfl, hclasses ▸ .refl _, world_start htop, by simp only [start]; omega⟩
  have hrun := e.simulates hc ⟨⟨_, _, he⟩, hcode.left, hrec, hty⟩ rfl hat
  have hhalt := hcode.right
  refine hrun.imp ?_ fun v τ d hd ↦
    ⟨?_, hd.1.stack, hd.1.world.next, hd.1.world.printed⟩
  · rw [hframe]
    simp only [start, List.length_nil]
    omega
  · rw [hd.1.ip]
    exact hhalt

/-- Before the first global declaration there is one value on the stack, which is never used. -/
theorem top_start (hd : S.Arrives [] {} S.start ip [0] {} d) (hn : n ≤ k) :
    S.Top n k ⟨.push .empty ∅, .empty, firstDeclOffset⟩ [] {} {} d where
  names := .nil
  frame := hd.fp
  height := congrArg List.length hd.stack
  world := hd.world.widen List.nil_suffix List.suffix_rfl
  fuel := by omega
  tables := fun _ _ ↦ nofun
  closed := ⟨nofun, nofun⟩

/-- **The main code of a program with declarations** does what the program does, with room for its
own code and for a frame for each of the nested calls. -/
theorem letIn {line : Nat} {decls : List Decl} {body : Expr} {call : Caller} (hc : S.Calls n k call)
    (hacc : (Program.letIn line decls body).Accepted S.ctx)
    (hdisp : (Program.letIn line decls body).Dispatched S.ctx) {main : List Instr}
    (hemit : (Program.letIn line decls body).emitMain S.target {} = .ok main S.emission)
    (hcode : CodeAt S.image.prog 0 main) (htop : 0 < S.image.top) (hn : n ≤ k) :
    S.image.Runs (codeSize main + k * S.frameSize) n
      (Decl.evalAll call [[]] decls >>= fun ρ ↦ body.eval call ρ) {} S.start
      fun v τ d ↦ ∃ st, S.image.Stops v st τ d := by
  obtain ⟨declared, s₁, result, i, hdecls, he', rfl, hs₂⟩ := Program.emitMain_letIn_eq_ok hemit
  obtain ⟨hrec, hcheck, hclasses, hbody, ty, hty⟩ := hacc.of_letIn
  have hwithin : (Decl.resolveAll ⟨.push .empty ∅, .empty, firstDeclOffset⟩ decls).1.classes.Within
      S.ctx.classes := hclasses ▸ .refl _
  have hfunctions : s₁.functions <+: S.emission.functions := hs₂ ▸ List.prefix_rfl
  have hsize : codeSize ([.push 0] ++ declared ++ result ++ [.plain .halt])
      = codeSize declared + codeSize result + 3 := by
    have hpush : codeSize [.push 0] = 2 := rfl
    have hhalt : codeSize [.plain .halt] = 1 := rfl
    simp only [codeSize_append, hpush, hhalt]
    omega
  have hcells := Expr.cells_le_codeSize he'
  have hcount := Decl.length_le_codeSize hdecls
  rw [hsize]
  refine .after ((world_start htop).push hcode.left.left.left
    (by simp only [start, List.length_nil]; omega))
    (.bind (Decl.grows_all hc.grows _ _) fun ρ ↦ body.grows hc.grows ρ) fun d hd ↦ ?_
  have hd₀ := top_start hd hn
  have hlen : d.stack.length = 1 := congrArg List.length hd.stack
  have hcode₁ := hcode.left.left.right
  rw [← show d.ip = 0 + codeSize [.push 0] from hd.ip] at hcode₁
  refine (hd₀.decls hc hdecls hfunctions hcode₁ hrec hcheck hwithin hdisp (Nat.le_refl _)).bind
    (by omega) (fun ρ ↦ body.grows hc.grows ρ) ?_
  rintro _ τ e ⟨L, rfl, hip, hheight, he⟩
  have hstart : e.ip = 0 + codeSize ([.push 0] ++ declared) := by
    rw [hip, hd.ip, codeSize_append, ← Nat.add_assoc]
    rfl
  have hcode₂ := hcode.left.right
  have hhalt := hcode.right
  rw [← hstart] at hcode₂
  rw [codeSize_append, ← Nat.add_assoc, ← hstart] at hhalt
  refine (body.simulates hc ⟨⟨_, _, he'⟩, hcode₂, hbody, hty⟩ rfl he.here).imp (by omega)
    fun v υ f hf ↦ ⟨_, ?_, hf.1.stack, hf.1.world.next, hf.1.world.printed⟩
  rw [hf.1.ip]
  exact hhalt

end Setting

end ObjectLet
