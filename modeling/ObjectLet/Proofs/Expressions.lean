import ObjectLet.Proofs.Accesses

/-!
# Making objects, and all expressions

The code of `new` puts an object on the heap where nothing is yet (`Setting.World.allocate`), which
was the last kind of expression that is missing.

* `Expr.simulates`: **the code of an expression does what the expression does.**
* `Expr.cells_le_codeSize`: **an expression needs no more cells of the stack than its code has
  words.**
-/

set_option autoImplicit false

namespace ObjectLet

namespace Setting

variable {S : Setting} {G : List Int32} {env : Env} {ρ : Bindings} {σ τ : Store} {c d : Config}
  {ip n k : Nat} {st cells : List Int32} {call : Caller} {site : Site} {cls : String}
  {args : List Expr} {o : Object} {v : Int32}

/-- Every object there is has an address below the end of the heap. -/
theorem World.ne_address {i : Nat} (h : S.World G σ c) (ho : S.ObjectAt (space G σ c) v o)
    (hi : c.hp ≤ i) (hi' : i < 2 ^ 31) : v ≠ Int32.ofNat i := by
  rintro rfl
  obtain ⟨a, ha, hv⟩ := ho.address
  have ha : a < c.heap.length := ha
  have hlen := h.heap
  have htoInt := congrArg Int32.toInt hv
  rw [Int32.toInt_ofNat_of_lt hi', Int32.toInt_ofNat_of_lt (by omega)] at htoInt
  omega

/-- **An object is put on the heap**, behind all others, which stay where they are.  The evaluator
has given it the same address. -/
theorem World.allocate {i : Nat} (h : S.World G σ c) (hG : G <:+ st)
    (hd : S.image.Stores c ip (Int32.ofNat (σ.next + i) :: st) cells d) (hb : Image.Before c d)
    (hlen : cells.length = i + 1)
    (ho : ∀ w, (space G σ c).Within w → w.heap = c.heap ++ cells →
      S.ObjectAt w (Int32.ofNat (σ.next + i)) o) :
    S.Arrives G σ c ip (Int32.ofNat (σ.next + i) :: st)
      { σ with
        objects := (Int32.ofNat (σ.next + i), o) :: σ.objects
        next := σ.next + i + 1 } d := by
  have hnext := h.next
  have htop := S.sized.top
  have hfits := hd.fits
  have hhp := hd.hp
  rw [Config.use] at hfits
  have hwithin : (space G σ c).Within (space G { σ with
      objects := (Int32.ofNat (σ.next + i), o) :: σ.objects, next := σ.next + i + 1 } d) := by
    refine ⟨List.suffix_rfl, ?_, fun v p hp ↦ ?_⟩
    · show c.heap <+: d.heap
      rw [hd.heap]
      exact List.prefix_append _ _
    · have hne : Int32.ofNat (σ.next + i) ≠ v :=
        (h.ne_address (h.objects v p hp) (by omega) (by omega)).symm
      show Table.lookupIn v _ = some p
      rw [Table.lookupIn, if_neg hne]
      exact hp
  refine ⟨hd.ip, hd.stack, hd.fp, ⟨hd.length h.heap, ?_, hd.printed.trans h.printed, hd.fits, ?_,
    fun v p hp ↦ ?_⟩, hwithin, hb.steps⟩
  · simp only [hhp, hlen, hnext]
    omega
  · rw [hd.stack]
    exact hG.trans (List.suffix_cons _ _)
  · have hp : Table.lookupIn v ((Int32.ofNat (σ.next + i), o) :: σ.objects) = some p := hp
    rw [Table.lookupIn] at hp
    split at hp
    · rename_i hv
      rw [← hv, ← Option.some.inj hp]
      exact ho _ hwithin hd.heap
    · exact (h.objects v p hp).mono hwithin

end Setting

namespace Setting.Simulates

variable {S : Setting} {n k : Nat} {call : Caller} {site : Site} {cls : String} {args : List Expr}

theorem new (hc : S.Calls n k call) (hargs : ∀ x ∈ args, S.Simulates n k call x) :
    S.Simulates n k call (.new site cls args) := by
  intro env ty ip is ρ G σ c h hip hat
  obtain ⟨⟨i, i', hemit⟩, hcode, hrec, hcheck⟩ := h
  obtain ⟨r, values, hr, hvalues, rfl⟩ := Expr.emit_new_eq_ok hemit
  rw [Expr.resolve, recorded_append] at hrec
  obtain ⟨e, he, hfound⟩ := recorded_useClass hrec.1
  obtain rfl := resolution_eq hr hfound
  simp only [Expr.check, Checked.result_bind, Context.constructor, Context.resolution,
    Checked.result_resolved, hfound, Option.some.injEq, Checked.result_pure, Except.ok.injEq,
    Checked.result_typed] at hcheck
  obtain ⟨s, ⟨_, rfl, shape, hshape, rfl⟩, _, hn, _, hcheck, rfl⟩ := hcheck
  rw [Expr.eval, Expr.cells]
  refine (all hc hargs hvalues hcode.left hrec.2 hcheck (arity_eq hn) hip hat
    (Nat.le_refl _)).bind (by omega) (Eval.grows_construct ρ cls) fun vs τ d hd ↦ ?_
  obtain ⟨hd, hvs⟩ := hd
  have huse : d.use = vs.length + c.stack.length + τ.next := by
    rw [hd.world.use_eq, hd.stack, List.length_append, List.length_reverse]
  obtain ⟨decl, home, hclass, rfl, hlevel, hbinds⟩ := hat.names.findClass hat.suffix he
  cases hbinds with
  | @cls _ outer L p older all' accepts _ kept table =>
  have hhome := older.home all' accepts
  obtain rfl : (outer.classes.layout decl).shape = shape := by
    rw [ClassTable.shape?, hhome.known] at hshape
    exact Option.some.inj hshape
  have hlen : args.length = vs.reverse.length := by
    rw [List.length_reverse, hvs.length_eq, arity_eq hn]
  have hnames : (Layer.fieldNames ((decl.name, .cls decl) :: L) decl.name).length = vs.length := by
    obtain ⟨fields, methods, hlaid, hfields, -⟩ := hhome.laid
    rw [hfields, hvs.length_eq]
    simp only [hlaid.shape_fields, List.length_map]
  have hcode' := hcode.right
  rw [← hd.ip, hlen, ← List.append_nil (Target.construct _ _ _)] at hcode'
  refine .ok (Eval.construct_eq hclass hnames τ) ((Image.Leads.construct hcode' hd.stack
    hd.world.heap hlevel (Image.Loads.mono kept List.suffix_rfl hd.within.heap)
    hd.world.prefix_printed hd.world.fits (by simp only; omega)).before.imp
      fun q hq ↦ ?_)
  obtain ⟨hq, hbefore⟩ := hq
  rw [hd.world.next, List.length_reverse] at hq
  have hobj : ∀ w, (space G τ d).Within w → w.heap = d.heap ++ (vs.reverse ++ [p]) →
      S.ObjectAt w (Int32.ofNat (τ.next + vs.length)) ⟨decl.name, (decl.name, .cls decl) :: L,
        (Layer.fieldNames ((decl.name, .cls decl) :: L) decl.name).zip vs⟩ := by
    intro w hw hheap
    have hall := hd.within.trans hw
    rw [← hd.world.next, ← hd.world.heap]
    exact .new (older.mono hall) (all'.mono hall) accepts (table.mono hall)
      (by rw [hheap, List.append_assoc]) (hvs.imp fun _ _ h ↦ h.mono hw)
  have hq' := hd.world.allocate hat.suffix hq hbefore (by simp) hobj
  refine ⟨(hd.trans hq').to ?_, .inr ⟨_, if_pos rfl, .refl _⟩⟩
  rw [hd.ip, codeSize_append, Nat.add_assoc, hlen, List.length_reverse]

end Setting.Simulates

section All

open Setting

variable {S : Setting} {n k : Nat} {call : Caller}

mutual

/-- **The code of an expression does what the expression does.** The proof goes by recursion on the
expression, with one lemma for each kind; calls are a premise. -/
theorem Expr.simulates (hc : S.Calls n k call) : ∀ e : Expr, S.Simulates n k call e
  | .int _ _ => .literal (fun _ ↦ rfl) (fun _ ↦ rfl) (fun _ ↦ rfl) rfl fun _ ↦ trivial
  | .bool _ b => .literal (fun _ ↦ rfl) (fun _ ↦ rfl) (fun _ ↦ rfl) rfl fun _ ↦ HasType.truth b
  | .null _ => .literal (fun _ ↦ rfl) (fun _ ↦ rfl) (fun _ ↦ rfl) rfl fun _ ↦ rfl
  | .arith _ op l r => .arith hc (Expr.simulates hc l) (Expr.simulates hc r) op
  | .compare _ op l r => .compare hc (Expr.simulates hc l) (Expr.simulates hc r) op
  | .logic _ op l r => .logic hc (Expr.simulates hc l) (Expr.simulates hc r) op
  | .not _ e => .not hc (Expr.simulates hc e)
  | .cond _ c a b => .cond hc (Expr.simulates hc c) (Expr.simulates hc a) (Expr.simulates hc b)
  | .print _ e => .print (Expr.simulates hc e)
  | .ident _ _ => .ident
  | .call _ _ args => .callNamed hc (Expr.simulates_all hc args)
  | .field _ _ _ => .field
  | .invoke _ _ _ args => .invoke hc (Expr.simulates_all hc args)
  | .new _ _ args => .new hc (Expr.simulates_all hc args)
termination_by structural e => e

theorem Expr.simulates_all (hc : S.Calls n k call) :
    ∀ es : List Expr, ∀ e ∈ es, S.Simulates n k call e
  | [] => nofun
  | e :: es => List.forall_mem_cons.2 ⟨Expr.simulates hc e, Expr.simulates_all hc es⟩
termination_by structural es => es

end

end All

/-! ## The height of the stack

What an expression needs of the stack is pushed by the instructions of its code, so it is bounded by
the size of that. -/

theorem Target.two_le_codeSize_address (t : Target) (r : Resolution) :
    2 ≤ codeSize (t.address r) := by
  rw [Target.address]
  split
  · exact Nat.le_refl _
  · rw [codeSize_append]
    exact Nat.le_add_left_of_le (by decide : 2 ≤ 3)

mutual

/-- **An expression needs no more cells of the stack than its code has words.** Every instruction
pushes one value at most. -/
theorem Expr.cells_le_codeSize {t : Target} : ∀ {e : Expr} {is : List Instr} {n n' : Nat},
    e.emit t n = .ok (is, n') → e.cells ≤ codeSize is
  | .int _ _, _, _, _, h | .bool _ _, _, _, _, h | .null _, _, _, _, h => by
    simp only [Expr.emit, emit_pure, Except.ok.injEq, Prod.mk.injEq] at h
    obtain ⟨rfl, -⟩ := h
    exact Nat.le_succ _
  | .arith _ _ _ _, _, _, _, h => by
    obtain ⟨left, _, right, hl, hr, rfl⟩ := Expr.emit_arith_eq_ok h
    have hl := Expr.cells_le_codeSize hl
    have hr := Expr.cells_le_codeSize hr
    simp only [Expr.cells, codeSize_append, codeSize_cons, Instr.size]
    omega
  | .compare _ op l r, _, _, _, h => by
    obtain ⟨first, _, second, h₁, h₂, rfl⟩ := Expr.emit_compare_eq_ok h
    have hl := @Expr.cells_le_codeSize t l
    have hr := @Expr.cells_le_codeSize t r
    have hboth : l.cells + r.cells ≤ codeSize first + codeSize second := by
      cases op with
      | ge => exact Nat.add_comm _ _ ▸ Nat.add_le_add (hr h₁) (hl h₂)
      | _ => exact Nat.add_le_add (hl h₁) (hr h₂)
    simp only [Expr.cells, codeSize_append, codeSize_cons, Instr.size]
    omega
  | .logic _ _ _ _, _, _, _, h => by
    obtain ⟨left, _, right, hl, hr, rfl⟩ := Expr.emit_logic_eq_ok h
    have hl := Expr.cells_le_codeSize hl
    have hr := Expr.cells_le_codeSize hr
    simp only [Expr.cells, codeSize_append, codeSize_cons, Instr.size]
    omega
  | .not _ _, _, _, _, h => by
    obtain ⟨operand, he, rfl⟩ := Expr.emit_not_eq_ok h
    have he := Expr.cells_le_codeSize he
    simp only [Expr.cells, codeSize_append, codeSize_cons, Instr.size]
    omega
  | .cond _ _ _ _, _, _, _, h => by
    obtain ⟨condition, _, otherwise, _, consequent, hc, hb, ha, rfl⟩ := Expr.emit_cond_eq_ok h
    have hc := Expr.cells_le_codeSize hc
    have ha := Expr.cells_le_codeSize ha
    have hb := Expr.cells_le_codeSize hb
    simp only [Expr.cells, codeSize_append, codeSize_cons, Instr.size]
    omega
  | .print _ _, _, _, _, h => by
    obtain ⟨operand, he, rfl⟩ := Expr.emit_print_eq_ok h
    have he := Expr.cells_le_codeSize he
    simp only [Expr.cells, codeSize_append, codeSize_cons, Instr.size]
    omega
  | .ident _ _, _, _, _, h => by
    obtain ⟨r, -, rfl, -⟩ := Expr.emit_ident_eq_ok h
    have haddress := t.two_le_codeSize_address r
    rw [Expr.cells, codeSize_append]
    omega
  | .field _ _ _, _, _, _, h => by
    obtain ⟨r, e, -, -, rfl, -⟩ := Expr.emit_field_eq_ok h
    have haddress := t.two_le_codeSize_address r
    rw [Expr.cells, codeSize_append, codeSize_append]
    omega
  | .call _ _ _, _, _, _, h => by
    obtain ⟨r, values, -, hvalues, rfl⟩ := Expr.emit_call_eq_ok h
    have hvalues := Expr.cells_le_codeSize_backwards hvalues
    simp only [Expr.cells, Target.callNamed, Target.loadAt, duplicate, codeSize_append,
      codeSize_cons, Instr.size]
    omega
  | .invoke _ _ _ _, _, _, _, h => by
    obtain ⟨r, e, values, -, -, hvalues, rfl⟩ := Expr.emit_invoke_eq_ok h
    have hvalues := Expr.cells_le_codeSize_backwards hvalues
    simp only [Expr.cells, Target.callMethod, Target.loadAt, duplicate, codeSize_append,
      codeSize_cons, Instr.size]
    omega
  | .new _ _ _, _, _, _, h => by
    obtain ⟨r, values, -, hvalues, rfl⟩ := Expr.emit_new_eq_ok h
    have hvalues := Expr.cells_le_codeSize_all hvalues
    simp only [Expr.cells, Target.construct, bumpHeap, codeSize_append, codeSize_cons, Instr.size]
    omega
termination_by structural e => e

theorem Expr.cells_le_codeSize_all {t : Target} : ∀ {es : List Expr} {is : List Instr} {n n' : Nat},
    Expr.emitAll t es n = .ok (is, n') → Expr.cellsAll es ≤ codeSize is
  | [], _, _, _, _ => Nat.zero_le _
  | e :: es, _, _, _, h => by
    obtain ⟨first, _, rest, he, hes, rfl⟩ := Expr.emitAll_cons_eq_ok h
    rw [Expr.cellsAll, codeSize_append]
    exact Nat.add_le_add (Expr.cells_le_codeSize he) (Expr.cells_le_codeSize_all hes)
termination_by structural es => es

theorem Expr.cells_le_codeSize_backwards {t : Target} :
    ∀ {es : List Expr} {is : List Instr} {n n' : Nat},
      Expr.emitBackwards t es n = .ok (is, n') → Expr.cellsAll es ≤ codeSize is
  | [], _, _, _, _ => Nat.zero_le _
  | e :: es, _, _, _, h => by
    obtain ⟨rest, _, first, hes, he, rfl⟩ := Expr.emitBackwards_cons_eq_ok h
    rw [Expr.cellsAll, codeSize_append, Nat.add_comm]
    exact Nat.add_le_add (Expr.cells_le_codeSize_backwards hes) (Expr.cells_le_codeSize he)
termination_by structural es => es

end

/-- What a declaration leaves on the stack is pushed by its code, too. -/
theorem Decl.codeSize_pos {t : Target} {d : Decl} {is : List Instr} {s s' : Emission}
    (h : d.emit t s = .ok is s') : 0 < codeSize is := by
  cases d with
  | var site x ty e =>
    rw [Decl.emit, emitter_labels_eq_ok] at h
    obtain ⟨n, he, -⟩ := h
    exact Nat.lt_of_lt_of_le e.cells_pos (Expr.cells_le_codeSize he)
  | func f =>
    obtain ⟨-, rfl⟩ := Decl.emit_func_eq_ok.1 h
    exact Nat.succ_pos _
  | cls c =>
    rw [Decl.emit] at h
    obtain ⟨_, table, _, -, -, -, rfl, -⟩ := ClassDecl.emit_eq_ok h
    exact Nat.add_pos_left Nat.one_pos _

theorem Decl.length_le_codeSize {t : Target} {ds : List Decl} {is : List Instr} {s s' : Emission}
    (h : Decl.emitAll t ds s = .ok is s') : ds.length ≤ codeSize is := by
  induction ds generalizing s is with
  | nil => exact Nat.zero_le _
  | cons d ds ih =>
    obtain ⟨first, _, rest, hfirst, hrest, rfl⟩ := Decl.emitAll_cons_eq_ok.1 h
    rw [List.length_cons, codeSize_append, Nat.add_comm]
    exact Nat.add_le_add (Decl.codeSize_pos hfirst) (ih hrest)

end ObjectLet
