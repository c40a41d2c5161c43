import ObjectLet.Proofs.Objects
import ObjectLet.Proofs.Runs

/-!
# Simulation

Between two instructions that belong to different expressions, the machine is where the evaluator
is: `Setting.World` says what its configuration has to do with the store, and `Setting.Scoped` does
the same for names.  `Setting.Simulates` says that the code of an expression keeps this up and
leaves its value on the stack.  There is one lemma for each kind of expression.

The stack gets no higher than `Expr.cells` while an expression is evaluated, if calls are left out.
How many cells these need depends on how deep they are nested, so the bound has a frame for each of
as many calls as there is fuel.

Calls are carried out elsewhere; what is needed of them is `Setting.Calls`.
-/

set_option autoImplicit false

namespace ObjectLet

/-! ## Where the evaluator is -/

/-- The global declarations, the heap and the objects at a point of a run. -/
def Setting.space (globals : List Int32) (σ : Store) (c : Config) : Space :=
  ⟨globals, c.heap, σ.object?⟩

namespace Setting

variable {S : Setting} {G : List Int32} {env : Env} {ρ : Bindings} {σ τ υ : Store}
  {c d e : Config} {ip ip' n k bound : Nat} {stack stack' st printed : List Int32} {ty : Ty}
  {v a b : Int32}

/-- The machine is where the evaluator is, as far as stack, heap and output are concerned.  This
holds in every frame, so none is mentioned. -/
structure World (S : Setting) (G : List Int32) (σ : Store) (c : Config) : Prop where
  /-- Every cell of the heap is counted. -/
  heap : c.heap.length = c.hp
  /-- The heap is as large as the evaluator says. -/
  next : c.hp = σ.next
  /-- The same has been printed. -/
  printed : c.printed = σ.printed
  /-- Stack and heap are apart. -/
  fits : c.use < S.image.top
  /-- The global declarations are at the bottom of the stack. -/
  globals : G <:+ c.stack
  /-- The objects are on the heap. -/
  objects : ∀ v o, σ.object? v = some o → S.ObjectAt (space G σ c) v o

/-- The machine goes on at an address with a new stack, while the evaluator gets from one store to
another one. -/
structure Arrives (S : Setting) (G : List Int32) (σ : Store) (c : Config) (ip : Nat)
    (stack : List Int32) (τ : Store) (d : Config) : Prop where
  /-- It is at that address. -/
  ip : d.ip = ip
  /-- It has that stack. -/
  stack : d.stack = stack
  /-- It is in the same frame. -/
  fp : d.fp = c.fp
  /-- It is where the evaluator is. -/
  world : S.World G τ d
  /-- What was in memory is still there. -/
  within : (space G σ c).Within (space G τ d)
  /-- The steps are counted. -/
  steps : c.steps ≤ d.steps

theorem Arrives.trans (h : S.Arrives G σ c ip stack τ d) (h' : S.Arrives G τ d ip' stack' υ e) :
    S.Arrives G σ c ip' stack' υ e :=
  ⟨h'.ip, h'.stack, h'.fp.trans h.fp, h'.world, h.within.trans h'.within,
    Nat.le_trans h.steps h'.steps⟩

theorem Arrives.to (h : S.Arrives G σ c ip stack τ d) (hip : ip = ip') :
    S.Arrives G σ c ip' stack τ d :=
  hip ▸ h

/-- What leaves the heap as it is.  Whatever was known about the objects is still known. -/
theorem World.same (h : S.World G σ c) (hheap : d.heap = c.heap) (hhp : d.hp = c.hp)
    (hp : d.printed = c.printed) (hfits : d.use < S.image.top) (hG : G <:+ d.stack) :
    S.World G σ d ∧ space G σ d = space G σ c := by
  have hspace : space G σ d = space G σ c := by rw [space, space, hheap]
  refine ⟨⟨?_, hhp.trans h.next, hp.trans h.printed, hfits, hG,
    fun v o ho ↦ hspace ▸ h.objects v o ho⟩, hspace⟩
  rw [hheap, hhp]
  exact h.heap

theorem World.arrives (h : S.World G σ c) (hs : G <:+ stack) (hd : S.image.Goes c ip stack d)
    (hb : Image.Before c d) : S.Arrives G σ c ip stack σ d := by
  obtain ⟨hworld, hspace⟩ := h.same hd.heap hd.hp hd.printed hd.fits (hd.stack ▸ hs)
  exact ⟨hd.ip, hd.stack, hd.fp, hworld, hspace ▸ .refl _, hb.steps⟩

/-- A piece of code that leaves the heap as it is. -/
theorem World.goes (h : S.World G σ c) (hs : G <:+ stack)
    (hl : S.image.Leads printed bound (S.image.Goes c ip stack) c) :
    S.image.Leads printed bound (S.Arrives G σ c ip stack σ) c :=
  hl.before.imp fun _ ⟨hd, hb⟩ ↦ h.arrives hs hd hb

/-- What is in scope where code is about to be executed, given how many steps the machine has gone
through when the evaluator runs out of fuel, and how many of them are left for calls. -/
structure At (S : Setting) (n k : Nat) (G : List Int32) (env : Env) (ρ : Bindings) (σ : Store)
    (c : Config) : Prop where
  /-- The names in scope are in place. -/
  names : S.Scoped (space G σ c) c.stack env ρ c.fp
  /-- The classes are known. -/
  within : env.classes.Within S.ctx.classes
  /-- The machine is where the evaluator is. -/
  world : S.World G σ c
  /-- There are not too many steps left. -/
  fuel : n ≤ c.steps + k

theorem At.arrives (h : S.At n k G env ρ σ c) (ha : S.Arrives G σ c ip stack τ d)
    (hs : c.stack <:+ stack) : S.At n k G env ρ τ d where
  names := by
    rw [ha.fp]
    exact h.names.mono ha.within (ha.stack ▸ hs)
  within := h.within
  world := ha.world
  fuel := Nat.le_trans h.fuel (Nat.add_le_add_right ha.steps k)

/-! ## Calls -/

/-- A function has been called with arguments, and the machine is about to execute its code. -/
structure Called (S : Setting) (G : List Int32) (f : FunDecl) (ρ : Bindings) (args : List Int32)
    (ret : Nat) (st : List Int32) (σ : Store) (c : Config) : Prop where
  /-- Its code and what is around it are in place. -/
  func : ∃ env l link, S.Func env f l ∧ c.ip = addressOf l S.image.prog ∧
    c.stack = link :: (args ++ c.fp :: st) ∧ S.Scoped (space G σ c) c.stack env ρ link
  /-- The arguments have the types of the parameters. -/
  args : List.Forall₂ (S.Typed (space G σ c)) args f.signature.params
  /-- Where it returns to. -/
  ra : c.ra = Int32.ofNat ret
  /-- That is in the program. -/
  ret : ret ≤ codeSize S.image.prog
  /-- The machine is where the evaluator is. -/
  world : S.World G σ c
  /-- What is returned to has the global declarations at the bottom of the stack. -/
  globals : G <:+ st

/-- How many cells of the stack a call needs at most, apart from those of the calls made in it.  An
instruction pushes at most one value, so there are no more of them than words in the code of the
functions. -/
def frameSize (S : Setting) : Nat := codeSize S.emission.functions

/-- Calls are carried out as the evaluator does.  They are nested at most `k` deep, and the stack
gets higher by one frame for each of them. -/
structure Calls (S : Setting) (n k : Nat) (call : Caller) : Prop where
  /-- The evaluator only adds to what there is. -/
  grows : ∀ f vs, (call f vs).Grows
  /-- The machine returns with the result. -/
  returns : ∀ {G f ρ args ret st σ c}, S.Called G f ρ args ret st σ c → n ≤ c.steps + k →
    S.image.Runs (c.stack.length + k * S.frameSize) n (call ⟨f, ρ⟩ args) σ c fun v τ d ↦
      S.Arrives G σ c ret (v :: st) τ d ∧ S.Typed (space G τ d) v f.ret

end Setting

/-! ## Expressions -/

mutual

/-- How many cells of the stack an expression needs at most, apart from those that its calls need
once they have been made.  Before a call there are the frame to go back to and the arguments on the
stack, and up to three values more while the function is looked up. -/
def Expr.cells : Expr → Nat
  | .int _ _ | .bool _ _ | .null _ => 1
  | .arith _ _ l r | .compare _ _ l r | .logic _ _ l r => l.cells + r.cells + 1
  | .not _ e | .print _ e => e.cells + 1
  | .cond _ c a b => c.cells + a.cells + b.cells + 1
  | .ident _ _ | .field _ _ _ => 2
  | .call _ _ args | .invoke _ _ _ args => Expr.cellsAll args + 4
  | .new _ _ args => Expr.cellsAll args + 3
termination_by structural e => e

/-- How many cells of the stack several expressions need at most, if their values are kept there. -/
def Expr.cellsAll : List Expr → Nat
  | [] => 0
  | e :: es => e.cells + Expr.cellsAll es
termination_by structural es => es

end

theorem Expr.cells_pos (e : Expr) : 0 < e.cells := by
  cases e <;> simp only [cells] <;> omega

theorem Expr.length_le_cellsAll (es : List Expr) : es.length ≤ cellsAll es := by
  induction es with
  | nil => exact Nat.le_refl _
  | cons e es ih =>
    have hpos := e.cells_pos
    rw [List.length_cons, cellsAll]
    omega

namespace Setting

variable {S : Setting} {G : List Int32} {env : Env} {ρ : Bindings} {σ τ υ : Store}
  {c d e : Config} {ip ip' n k bound : Nat} {stack stack' st printed : List Int32} {ty : Ty}
  {v a b : Int32} {call : Caller} {is rest : List Instr}

/-- The code of an expression without errors is part of the program, and the analyses have found out
there what is known about it. -/
structure Placed (S : Setting) (env : Env) (e : Expr) (ty : Ty) (address : Nat)
    (is : List Instr) : Prop where
  /-- It is the code of the expression. -/
  emitted : ∃ i i', e.emit S.target i = .ok (is, i')
  /-- It is part of the program. -/
  placed : CodeAt S.image.prog address is
  /-- What name analysis has found is known. -/
  recorded : Recorded S.ctx (e.resolve env)
  /-- The expression has a type. -/
  checked : (e.check S.ctx).result = .ok ty

/-- The machine goes on at an address with a value of some type on the stack. -/
def Yields (S : Setting) (G : List Int32) (σ : Store) (c : Config) (ip : Nat) (ty : Ty) (v : Int32)
    (τ : Store) (d : Config) : Prop :=
  S.Arrives G σ c ip (v :: c.stack) τ d ∧ S.Typed (space G τ d) v ty

/-- The code of an expression does what the expression does, wherever it stands and whatever is in
scope there.  On the stack it needs its own cells, and a frame for each of the calls that may be
nested inside it. -/
def Simulates (S : Setting) (n k : Nat) (call : Caller) (x : Expr) : Prop :=
  ∀ ⦃env ty ip is ρ G σ c⦄, S.Placed env x ty ip is → c.ip = ip → S.At n k G env ρ σ c →
    S.image.Runs (c.stack.length + x.cells + k * S.frameSize) n (x.eval call ρ) σ c
      (S.Yields G σ c (ip + codeSize is) ty)

theorem World.prefix_printed (h : S.World G σ c) : c.printed <+: σ.printed :=
  h.printed ▸ List.prefix_rfl

theorem World.use_eq (h : S.World G σ c) : c.use = c.stack.length + σ.next := by
  rw [Config.use, h.next]

theorem At.suffix (h : S.At n k G env ρ σ c) : G <:+ c.stack := h.world.globals

/-- A value is pushed that is given in the code. -/
theorem World.push (h : S.World G σ c) (hat : CodeAt S.image.prog c.ip (.push v :: rest))
    (hb : c.stack.length + 1 ≤ bound) :
    S.image.Leads σ.printed (bound + σ.next) (S.Arrives G σ c (c.ip + 2) (v :: c.stack) σ) c := by
  have huse := h.use_eq
  exact h.goes (h.globals.trans (List.suffix_cons _ _)) (.push hat h.prefix_printed (by omega))

/-- An arithmetic operation. -/
theorem World.arith {op : ArithOp} (h : S.World G σ c) (hG : G <:+ st)
    (hat : CodeAt S.image.prog c.ip (.plain op.operation :: rest)) (hs : c.stack = b :: a :: st) :
    S.image.Runs bound n (op.eval a b) σ c fun v τ d ↦
      S.Arrives G σ c (c.ip + 1) (v :: st) τ d := by
  have hlen : ∀ v : Int32, (v :: st).length ≤ c.stack.length := by simp [hs]
  have hsuffix : ∀ v : Int32, G <:+ v :: st := fun v ↦ hG.trans (List.suffix_cons v st)
  cases op with
  | add => exact .pure (h.goes (hsuffix _) (.plain hat (.add hs) (hlen _) h.prefix_printed h.fits))
  | sub => exact .pure (h.goes (hsuffix _) (.plain hat (.sub hs) (hlen _) h.prefix_printed h.fits))
  | mul => exact .pure (h.goes (hsuffix _) (.plain hat (.mult hs) (hlen _) h.prefix_printed h.fits))
  | div =>
    rw [ArithOp.eval]
    split
    · rename_i hb
      exact .error rfl (.here ⟨h.printed, _, _, _, hat, hb ▸ hs⟩)
    · rename_i hb
      exact .pure (h.goes (hsuffix _) (.plain hat (.div hs hb) (hlen _) h.prefix_printed h.fits))

/-- A value on the stack is compared with another one, and a jump is made if they are equal. -/
theorem World.branch {taken : Label} (h : S.World G σ c) (hG : G <:+ st)
    (hat : CodeAt S.image.prog c.ip (.push b :: .jump .ifEq taken :: rest))
    (hs : c.stack = a :: st) (hb : c.stack.length + 1 ≤ bound) :
    S.image.Leads σ.printed (bound + σ.next)
      (S.Arrives G σ c (if a = b then addressOf taken S.image.prog else c.ip + 4) st σ) c := by
  have huse := h.use_eq
  refine h.goes hG (.andThen (.push hat h.prefix_printed (by omega)) fun d hd ↦ ?_)
  have hat' : CodeAt S.image.prog d.ip (.jump .ifEq taken :: rest) := by
    rw [hd.ip]
    exact hat.tail
  have htest : S.image.Leads σ.printed (bound + σ.next)
      (S.image.Goes d (if a = b then addressOf taken S.image.prog else d.ip + 2) st) d :=
    .test (.inl ⟨rfl, Iff.rfl⟩) hat' (hd.stack.trans (congrArg (b :: ·) hs))
      (hd.printed ▸ h.prefix_printed) hd.fits
  rwa [hd.ip] at htest

/-- Two values are compared, and one of two values is pushed. -/
theorem World.decides {taken done : Label} {no yes : Int32} {j : Jump} {holds : Prop}
    [Decidable holds] (h : S.World G σ c) (hG : G <:+ st)
    (hj : j = .ifEq ∧ (holds ↔ a = b) ∨ j = .ifLessEq ∧ (holds ↔ a ≤ b))
    (hat : CodeAt S.image.prog c.ip (.jump j taken :: (select taken done no yes ++ rest)))
    (hs : c.stack = b :: a :: st) (hb : st.length + 1 ≤ bound) :
    S.image.Leads σ.printed (bound + σ.next)
      (S.Arrives G σ c (c.ip + 2 + codeSize (select taken done no yes))
        ((if holds then yes else no) :: st) σ) c := by
  have hnext := h.next
  refine h.goes (hG.trans (List.suffix_cons _ _))
    (.andThen (.test hj hat hs h.prefix_printed h.fits) fun d hd ↦ ?_)
  have hp : d.printed <+: σ.printed := hd.printed ▸ h.prefix_printed
  have huse : d.use = st.length + σ.next := by rw [Config.use, hd.stack, hd.hp, h.next]
  by_cases hholds : holds
  · have hip := hd.ip
    rw [if_pos hholds] at hip
    rw [if_pos hholds, ← hd.stack]
    exact .select_yes S.sized hat.tail hip hp (by omega)
  · have hip := hd.ip
    rw [if_neg hholds] at hip
    rw [if_neg hholds, ← hd.stack, ← hip]
    exact .select_no S.sized (hip ▸ hat.tail) hp (by omega)

/-- A test has jumped, and the value for that is pushed. -/
theorem World.selected {taken done : Label} {no yes : Int32} (h : S.World G σ c)
    (hat : CodeAt S.image.prog ip (select taken done no yes))
    (hip : c.ip = addressOf taken S.image.prog) (hb : c.stack.length + 1 ≤ bound) :
    S.image.Leads σ.printed (bound + σ.next)
      (S.Arrives G σ c (ip + codeSize (select taken done no yes)) (yes :: c.stack) σ) c := by
  have huse := h.use_eq
  rw [← List.append_nil (select taken done no yes)] at hat
  exact h.goes (h.globals.trans (List.suffix_cons _ _))
    (.select_yes S.sized hat hip h.prefix_printed (by omega))

/-- The top of the stack is printed. -/
theorem World.print (h : S.World G σ c) (hG : G <:+ st)
    (hat : CodeAt S.image.prog c.ip (.plain .print :: rest)) (hs : c.stack = v :: st) :
    S.image.Leads (σ.printed ++ [v]) bound
      (S.Arrives G σ c (c.ip + 1) st { σ with printed := σ.printed ++ [v] }) c := by
  have hfits := h.fits
  simp only [Config.use, hs, List.length_cons] at hfits
  refine .one hat (.print hs) (h.prefix_printed.trans (List.prefix_append _ _)) (fun hfull ↦ ?_)
    fun hfits' ↦ ⟨rfl, rfl, rfl, ⟨h.heap, h.next, ?_, hfits', hG, h.objects⟩, .refl _,
      Nat.le_succ _⟩
  · simp only [Config.use, Config.move] at hfull
    omega
  · exact congrArg (· ++ [v]) h.printed

end Setting

/-! ### Rules of typing -/

namespace Context

variable {ctx : Context} {t u ty : Ty}

theorem arithType_eq_ok {op : ArithOp} (h : ctx.arithType op t u = .ok ty) : ty = .int := by
  rw [arithType] at h
  split at h
  · exact (Except.ok.inj h).symm
  · cases h

theorem compareType_eq_ok {op : CompareOp} (h : ctx.compareType op t u = .ok ty) : ty = .bool := by
  rw [compareType] at h
  split at h
  · exact (Except.ok.inj h).symm
  · cases h

theorem logicType_eq_ok {op : LogicOp} (h : ctx.logicType op t u = .ok ty) :
    ctx.subtype t .bool = true ∧ ctx.subtype u .bool = true ∧ ty = .bool := by
  rw [logicType] at h
  split at h
  · rename_i hs
    rw [Bool.and_eq_true] at hs
    exact ⟨hs.1, hs.2, (Except.ok.inj h).symm⟩
  · cases h

theorem notType_eq_ok (h : ctx.notType t = .ok ty) : ctx.subtype t .bool = true ∧ ty = .bool := by
  rw [notType] at h
  split at h
  · rename_i hs
    exact ⟨hs, (Except.ok.inj h).symm⟩
  · cases h

end Context

/-! ### Orders of evaluation -/

/-- Whether a comparison holds, given the operands in the order in which they are evaluated. -/
def CompareOp.holds (op : CompareOp) (first second : Int32) : Bool :=
  match op with
  | .eq => first = second
  | .ge | .le => first ≤ second

theorem Expr.eval_compare (call : Caller) (ρ : Bindings) (site : Site) (op : CompareOp)
    (l r : Expr) :
    (Expr.compare site op l r).eval call ρ = do
      let a ← (op.operands l r).1.eval call ρ
      let b ← (op.operands l r).2.eval call ρ
      return truth (op.holds a b) := by
  cases op <;> simp only [Expr.eval, CompareOp.operands, CompareOp.holds]

theorem Expr.eval_logic (call : Caller) (ρ : Bindings) (site : Site) (op : LogicOp) (l r : Expr) :
    (Expr.logic site op l r).eval call ρ = l.eval call ρ >>= fun a ↦
      if a = op.decisive then pure op.decisive else r.eval call ρ := by
  cases op <;> rfl

/-- A value that decides, or the only other one. -/
theorem LogicOp.decisive_or (op : LogicOp) {v : Int32} (h : v = 0 ∨ v = 1) :
    v = if v = op.decisive then op.decisive else 1 - op.decisive := by
  rcases h with rfl | rfl <;> cases op <;> rfl

namespace Setting.Simulates

variable {S : Setting} {G : List Int32} {env : Env} {ρ : Bindings} {σ τ υ : Store}
  {c d e : Config} {ip ip' n k bound : Nat} {stack stack' st printed : List Int32} {ty : Ty}
  {v a b : Int32} {call : Caller} {is rest : List Instr} {site : Site} {x y z : Expr}

/-- A value that is written down.  Integers, booleans and `null` differ only in the
value and its type. -/
theorem literal (hemit : ∀ t, x.emit t = pure [.push v])
    (hcheck : ∀ ctx, x.check ctx = .typed site ty) (heval : ∀ ρ, x.eval call ρ = pure v)
    (hcells : x.cells = 1) (htyped : ∀ w, S.Typed w v ty) :
    S.Simulates n k call x := by
  intro env u ip is ρ G σ c h hip hat
  obtain ⟨⟨i, i', h⟩, hcode, -, hty⟩ := h
  simp only [hemit, emit_pure, Except.ok.injEq, Prod.mk.injEq] at h
  simp only [hcheck, Checked.result_typed, Except.ok.injEq] at hty
  obtain ⟨rfl, -⟩ := h
  subst hip
  rw [heval, hcells]
  exact .pure ((hat.world.push hcode (Nat.le_add_right _ _)).imp fun d hd ↦ ⟨hd, hty ▸ htyped _⟩)

theorem arith (hc : S.Calls n k call) (hx : S.Simulates n k call x) (hy : S.Simulates n k call y)
    (op : ArithOp) : S.Simulates n k call (.arith site op x y) := by
  intro env ty ip is ρ G σ c h hip hat
  obtain ⟨⟨i, i', hemit⟩, hcode, hrec, hcheck⟩ := h
  obtain ⟨left, i₁, right, hl, hr, rfl⟩ := Expr.emit_arith_eq_ok hemit
  rw [Expr.resolve, recorded_append] at hrec
  simp only [Expr.check, Checked.result_bind, Checked.result_judge] at hcheck
  obtain ⟨t, ht, u, hu, hty⟩ := hcheck
  rw [Expr.eval, Expr.cells]
  refine .bind (hx ⟨⟨_, _, hl⟩, hcode.left.left, hrec.1, ht⟩ hip hat) (by omega)
    (fun _ ↦ .bind (y.grows hc.grows ρ) fun _ ↦ op.grows _ _) fun a τ d hd ↦ ?_
  obtain ⟨hd, -⟩ := hd
  refine .bind (hy ⟨⟨_, _, hr⟩, hcode.left.right, hrec.2, hu⟩ hd.ip
      (hat.arrives hd (List.suffix_cons _ _)))
    (by rw [hd.stack, List.length_cons]; omega) (fun _ ↦ op.grows _ _) fun b υ e he ↦ ?_
  obtain ⟨he, -⟩ := he
  have hcode' := hcode.right
  rw [codeSize_append, ← Nat.add_assoc, ← he.ip] at hcode'
  refine (he.world.arith hat.suffix hcode' (by rw [he.stack, hd.stack])).imp (Nat.le_refl _)
    fun v χ f hf ↦ ⟨((hd.trans he).trans hf).to ?_, Context.arithType_eq_ok hty ▸ trivial⟩
  simp only [he.ip, codeSize_append, Nat.add_assoc]
  rfl

theorem compare (hc : S.Calls n k call) (hx : S.Simulates n k call x)
    (hy : S.Simulates n k call y) (op : CompareOp) :
    S.Simulates n k call (.compare site op x y) := by
  intro env ty ip is ρ G σ c h hip hat
  obtain ⟨⟨i, i', hemit⟩, hcode, hrec, hcheck⟩ := h
  obtain ⟨first, i₁, second, h₁, h₂, rfl⟩ := Expr.emit_compare_eq_ok hemit
  rw [Expr.resolve, recorded_append] at hrec
  simp only [Expr.check, Checked.result_bind, Checked.result_judge] at hcheck
  obtain ⟨t, ht, u, hu, hty⟩ := hcheck
  rw [Expr.eval_compare, Expr.cells]
  obtain ⟨hx, hy, hrec₁, hrec₂, ⟨t₁, ht₁⟩, ⟨t₂, ht₂⟩, hcells⟩ :
      S.Simulates n k call (op.operands x y).1 ∧ S.Simulates n k call (op.operands x y).2 ∧
      Recorded S.ctx ((op.operands x y).1.resolve env) ∧
      Recorded S.ctx ((op.operands x y).2.resolve env) ∧
      (∃ t, ((op.operands x y).1.check S.ctx).result = .ok t) ∧
      (∃ t, ((op.operands x y).2.check S.ctx).result = .ok t) ∧
      x.cells + y.cells = (op.operands x y).1.cells + (op.operands x y).2.cells := by
    cases op
    · exact ⟨hx, hy, hrec.1, hrec.2, ⟨t, ht⟩, ⟨u, hu⟩, rfl⟩
    · exact ⟨hy, hx, hrec.2, hrec.1, ⟨u, hu⟩, ⟨t, ht⟩, Nat.add_comm _ _⟩
    · exact ⟨hx, hy, hrec.1, hrec.2, ⟨t, ht⟩, ⟨u, hu⟩, rfl⟩
  rw [hcells]
  generalize (op.operands x y).1 = first' at *
  generalize (op.operands x y).2 = second' at *
  refine .bind (hx ⟨⟨_, _, h₁⟩, hcode.left.left.left, hrec₁, ht₁⟩ hip hat) (by omega)
    (fun _ ↦ .bind (second'.grows hc.grows ρ) fun _ ↦ Eval.grows_pure _) fun a τ d hd ↦ ?_
  obtain ⟨hd, -⟩ := hd
  have hlen : d.stack.length = c.stack.length + 1 := by rw [hd.stack, List.length_cons]
  refine .bind (hy ⟨⟨_, _, h₂⟩, hcode.left.left.right, hrec₂, ht₂⟩ hd.ip
      (hat.arrives hd (List.suffix_cons _ _)))
    (by omega) (fun _ ↦ Eval.grows_pure _) fun b υ e he ↦ ?_
  obtain ⟨he, -⟩ := he
  rw [List.append_assoc] at hcode
  have hcode' := hcode.right
  rw [codeSize_append, ← Nat.add_assoc, ← he.ip] at hcode'
  have hj : op.jump = .ifEq ∧ (op.holds a b = true ↔ a = b) ∨
      op.jump = .ifLessEq ∧ (op.holds a b = true ↔ a ≤ b) := by
    cases op
    · exact .inl ⟨rfl, decide_eq_true_iff⟩
    · exact .inr ⟨rfl, decide_eq_true_iff⟩
    · exact .inr ⟨rfl, decide_eq_true_iff⟩
  refine .pure ((he.world.decides hat.suffix hj hcode' (by rw [he.stack, hd.stack])
    (by omega)).imp fun f hf ↦ ⟨((hd.trans he).trans hf).to ?_, ?_⟩)
  · simp only [he.ip, codeSize_append, Nat.add_assoc]
    rfl
  · rw [Context.compareType_eq_ok hty]
    exact HasType.truth _

theorem logic (hc : S.Calls n k call) (hx : S.Simulates n k call x) (hy : S.Simulates n k call y)
    (op : LogicOp) : S.Simulates n k call (.logic site op x y) := by
  intro env ty ip is ρ G σ c h hip hat
  obtain ⟨⟨i, i', hemit⟩, hcode, hrec, hcheck⟩ := h
  obtain ⟨left, i₁, right, hl, hr, rfl⟩ := Expr.emit_logic_eq_ok hemit
  rw [Expr.resolve, recorded_append] at hrec
  simp only [Expr.check, Checked.result_bind, Checked.result_judge] at hcheck
  obtain ⟨t, ht, u, hu, hty⟩ := hcheck
  obtain ⟨hst, hsu, rfl⟩ := Context.logicType_eq_ok hty
  -- the five pieces: left operand, first test, right operand, second test, result
  have hleft := hcode.left.left.left.left
  have hfirst := hcode.left.left.left.right
  have hright := hcode.left.left.right
  rw [List.append_assoc] at hcode
  have hsecond := hcode.right
  simp only [codeSize_append, ← Nat.add_assoc] at hfirst hright hsecond
  rw [Expr.eval_logic, Expr.cells]
  refine (hx ⟨⟨_, _, hl⟩, hleft, hrec.1, ht⟩ hip hat).bind ?_ (fun a ↦ ?_) fun a τ d hd ↦ ?_
  · omega
  · split
    · exact Eval.grows_pure _
    · exact y.grows hc.grows ρ
  obtain ⟨hd, ha⟩ := hd
  rw [← hd.ip] at hfirst
  have hlen : d.stack.length = c.stack.length + 1 := by rw [hd.stack, List.length_cons]
  have hpos := x.cells_pos
  refine .after (hd.world.branch hat.suffix hfirst hd.stack (by omega)) ?_ fun e he ↦ ?_
  · split
    · exact Eval.grows_pure _
    · exact y.grows hc.grows ρ
  have hip := he.ip
  split at hip
  · -- the first operand decides
    rename_i hdec
    rw [if_pos hdec]
    refine .pure ((he.world.selected hsecond.right hip (by rw [he.stack]; omega)).imp
      fun f hf ↦ ⟨?_, ?_⟩)
    · rw [he.stack] at hf
      refine ((hd.trans he).trans hf).to ?_
      simp only [codeSize_append, Nat.add_assoc]
    · cases op
      · exact .inl rfl
      · exact .inr rfl
  · -- the second operand decides
    rename_i hdec
    rw [if_neg hdec]
    refine (hy ⟨⟨_, _, hr⟩, hright, hrec.2, hu⟩ (hip.trans (congrArg (· + 4) hd.ip))
      (hat.arrives (hd.trans he) List.suffix_rfl)).andThen (by rw [he.stack]; omega)
      fun b υ f hf ↦ ?_
    obtain ⟨hf, hb⟩ := hf
    have hlen' : f.stack.length = c.stack.length + 1 := by rw [hf.stack, he.stack, List.length_cons]
    rw [← hf.ip] at hsecond
    refine (hf.world.push hsecond (by omega)).bind fun g hg ↦ ?_
    have hdecide := hsecond.tail
    rw [← List.append_nil (select _ _ _ _)] at hdecide
    rw [show f.ip + Instr.size (.push op.decisive) = g.ip from hg.ip.symm] at hdecide
    refine (hg.world.decides hat.suffix (.inl ⟨rfl, Iff.rfl⟩) hdecide
      (by rw [hg.stack, hf.stack, he.stack]) (by omega)).imp fun h hh ↦ ⟨?_, ?_⟩
    · rw [← op.decisive_or (hb.subtype hsu)] at hh
      refine ((((hd.trans he).trans hf).trans hg).trans hh).to ?_
      simp only [hg.ip, hf.ip, codeSize_append, Nat.add_assoc]
      rfl
    · exact (hb.subtype hsu).mono (hg.within.trans hh.within)

theorem not (hc : S.Calls n k call) (hx : S.Simulates n k call x) :
    S.Simulates n k call (.not site x) := by
  intro env ty ip is ρ G σ c h hip hat
  obtain ⟨⟨i, i', hemit⟩, hcode, hrec, hcheck⟩ := h
  obtain ⟨operand, he, rfl⟩ := Expr.emit_not_eq_ok hemit
  rw [Expr.resolve] at hrec
  simp only [Expr.check, Checked.result_bind, Checked.result_judge] at hcheck
  obtain ⟨t, ht, hty⟩ := hcheck
  obtain ⟨hst, rfl⟩ := Context.notType_eq_ok hty
  rw [Expr.eval, Expr.cells]
  subst hip
  refine .after (hat.world.push hcode.left.left (by omega))
    (.bind (x.grows hc.grows ρ) fun _ ↦ Eval.grows_pure _) fun d hd ↦ ?_
  have hlen : d.stack.length = c.stack.length + 1 := by rw [hd.stack, List.length_cons]
  refine (hx ⟨⟨_, _, he⟩, hcode.left.right, hrec, ht⟩ hd.ip
    (hat.arrives hd (List.suffix_cons _ _))).bind (by omega) (fun _ ↦ Eval.grows_pure _)
    fun a τ e he ↦ ?_
  obtain ⟨he, ha⟩ := he
  have hcode' := hcode.right
  rw [codeSize_append, ← Nat.add_assoc, ← he.ip] at hcode'
  have hs : e.stack = a :: 1 :: c.stack := by rw [he.stack, hd.stack]
  have hvalue : 1 - a = truth (a = 0) := by
    rcases ha.subtype hst with rfl | rfl <;> rfl
  refine .pure ((he.world.goes (hat.suffix.trans (List.suffix_cons (1 - a) _))
    (.plain hcode' (.sub hs) (by simp [hs]) he.world.prefix_printed he.world.fits)).imp
    fun f hf ↦ ⟨?_, HasType.truth _⟩)
  rw [hvalue] at hf
  refine ((hd.trans he).trans hf).to ?_
  simp only [he.ip, codeSize_append, Nat.add_assoc]
  rfl

theorem cond (hc : S.Calls n k call) (hx : S.Simulates n k call x) (hy : S.Simulates n k call y)
    (hz : S.Simulates n k call z) : S.Simulates n k call (.cond site x y z) := by
  intro env ty ip is ρ G σ c h hip hat
  obtain ⟨⟨i, i', hemit⟩, hcode, hrec, hcheck⟩ := h
  obtain ⟨condition, i₁, otherwise, i₂, consequent, h₁, h₂, h₃, rfl⟩ := Expr.emit_cond_eq_ok hemit
  rw [Expr.resolve, recorded_append, recorded_append] at hrec
  simp only [Expr.check, Checked.result_bind, Checked.result_judge, Checked.result_require]
    at hcheck
  obtain ⟨t, ht, _, -, u, hu, w, hw, hty⟩ := hcheck
  -- the pieces: condition, test, the branch not chosen, the jump over the other one, that, the end
  have htest := hcode.left.left.left.left.right
  have hotherwise := hcode.left.left.left.right
  have hjump := hcode.left.left.right
  have hconsequent := hcode.left.right
  have hend := hcode.right
  have hchosen := Assembled.addressOf_eq S.sized.assembled hjump.tail
  have hdone := Assembled.addressOf_eq S.sized.assembled hend
  simp only [codeSize_append, ← Nat.add_assoc] at htest hotherwise hjump hconsequent hchosen hdone
  rw [Expr.eval, Expr.cells]
  have hgrows : ∀ v : Int32, (if v = 1 then y.eval call ρ else z.eval call ρ).Grows := fun v ↦ by
    split
    · exact y.grows hc.grows ρ
    · exact z.grows hc.grows ρ
  refine (hx ⟨⟨_, _, h₁⟩, hcode.left.left.left.left.left, hrec.1.1, ht⟩ hip hat).bind (by omega)
    hgrows fun a τ d hd ↦ ?_
  obtain ⟨hd, ha⟩ := hd
  rw [← hd.ip] at htest
  have hlen : d.stack.length = c.stack.length + 1 := by rw [hd.stack, List.length_cons]
  have hpos := x.cells_pos
  refine .after (hd.world.branch hat.suffix htest hd.stack (by omega)) (hgrows a) fun e he ↦ ?_
  have hip' := he.ip
  have hat' := hat.arrives (hd.trans he) List.suffix_rfl
  split at hip'
  · rename_i hone
    rw [if_pos hone]
    refine (hy ⟨⟨_, _, h₃⟩, hconsequent, hrec.1.2, hu⟩ (hip'.trans hchosen) hat').imp
      (by rw [he.stack]; omega) fun b υ f hf ↦ ⟨?_, (HasType.condType hty).1 hf.2⟩
    have hf := hf.1
    rw [he.stack] at hf
    refine ((hd.trans he).trans hf).to ?_
    simp only [codeSize_append, Nat.add_assoc]
    rfl
  · rename_i hone
    rw [if_neg hone]
    refine (hz ⟨⟨_, _, h₂⟩, hotherwise, hrec.2, hw⟩ (hip'.trans (congrArg (· + 4) hd.ip))
      hat').andThen (by rw [he.stack]; omega) fun b υ f hf ↦ ?_
    obtain ⟨hf, hb⟩ := hf
    rw [← hf.ip] at hjump
    refine (hf.world.goes hf.world.globals (.jump hjump hf.world.prefix_printed
      hf.world.fits)).imp fun g hg ↦ ⟨?_, ((HasType.condType hty).2 hb).mono hg.within.objects⟩
    rw [hf.stack, he.stack] at hg
    refine (((hd.trans he).trans hf).trans hg).to ?_
    rw [hdone]
    simp only [codeSize_append, Nat.add_assoc]
    rfl

theorem print (hx : S.Simulates n k call x) : S.Simulates n k call (.print site x) := by
  intro env ty ip is ρ G σ c h hip hat
  obtain ⟨⟨i, i', hemit⟩, hcode, hrec, hcheck⟩ := h
  obtain ⟨argument, he, rfl⟩ := Expr.emit_print_eq_ok hemit
  rw [Expr.resolve] at hrec
  simp only [Expr.check, Checked.result_bind, Checked.result_typed, Except.ok.injEq] at hcheck
  obtain ⟨t, ht, rfl⟩ := hcheck
  rw [Expr.eval, Expr.cells]
  refine (hx ⟨⟨_, _, he⟩, hcode.left.left, hrec, ht⟩ hip hat).bind (by omega)
    (fun v ↦ .bind (Eval.grows_print v) fun _ ↦ Eval.grows_pure v) fun v τ d hd ↦ ?_
  obtain ⟨hd, hv⟩ := hd
  have hlen : d.stack.length = c.stack.length + 1 := by rw [hd.stack, List.length_cons]
  have hpos := x.cells_pos
  have huse := hd.world.use_eq
  have hcode' := hcode.left.right
  have hprint := hcode.right
  rw [← hd.ip, ← List.append_nil duplicate] at hcode'
  rw [codeSize_append, ← Nat.add_assoc, ← hd.ip] at hprint
  have hdup := hd.world.goes
    (hat.suffix.trans ((List.suffix_cons v _).trans (List.suffix_cons v _)))
    (.duplicate hcode' hd.stack hd.world.prefix_printed hd.world.fits
      (fun _ ↦ (by omega :
        S.image.top ≤ c.stack.length + (x.cells + 1) + k * S.frameSize + τ.next)))
  refine .ok (τ := { τ with printed := τ.printed ++ [v] }) rfl
    ((hdup.mono (List.prefix_append _ _) (Nat.le_refl _) fun _ h ↦ h).bind fun e he ↦ ?_)
  have hprint' : CodeAt S.image.prog e.ip [.plain .print] := by
    rw [he.ip]
    exact hprint
  refine (he.world.print (hat.suffix.trans (List.suffix_cons v _)) hprint' he.stack).imp
    fun f hf ↦ ⟨((hd.trans he).trans hf).to ?_, hv.mono (he.within.trans hf.within)⟩
  simp only [he.ip, hd.ip, codeSize_append, Nat.add_assoc]
  rfl

end Setting.Simulates

end ObjectLet
