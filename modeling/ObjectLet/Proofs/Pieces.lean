import ObjectLet.Emission
import ObjectLet.Proofs.Leads

/-!
# What pieces of code do

The code generator puts its code together from a few pieces, and each of them has its lemma here:
where it leads from a configuration in which it is about to be executed.  Most pieces only change
the stack; `Image.Goes` says that and leaves open what is in the registers `ra` and `tm`.
-/

set_option autoImplicit false

namespace ObjectLet

namespace Config

@[simp] theorem use_move (c : Config) (ip : Nat) (stack : List Int32) :
    (c.move ip stack).use = stack.length + c.hp := rfl

end Config

namespace Image

/-- One configuration is what becomes of another one that goes on at an address with a new stack. -/
structure Goes (m : Image) (c : Config) (ip : Nat) (stack : List Int32) (d : Config) : Prop where
  /-- It is at that address. -/
  ip : d.ip = ip
  /-- It has that stack. -/
  stack : d.stack = stack
  /-- It has the same heap. -/
  heap : d.heap = c.heap
  /-- The heap ends at the same address. -/
  hp : d.hp = c.hp
  /-- It is in the same frame. -/
  fp : d.fp = c.fp
  /-- Nothing has been printed. -/
  printed : d.printed = c.printed
  /-- Stack and heap are apart. -/
  fits : d.use < m.top

variable {m : Image} {c d : Config} {i : Instr} {rest : List Instr} {printed : List Int32}
  {bound ip : Nat} {stack st : List Int32} {Q : Config → Prop} {v v1 v2 a : Int32}

theorem Goes.move (h : (c.move ip stack).use < m.top) : m.Goes c ip stack (c.move ip stack) :=
  ⟨rfl, rfl, rfl, rfl, rfl, rfl, h⟩

/-- As many cells are in use as the new stack and the heap have. -/
theorem Goes.use_eq (h : m.Goes c ip stack d) : d.use = stack.length + c.hp := by
  rw [Config.use, h.stack, h.hp]

theorem Goes.trans {e : Config} {ip' : Nat} {stack' : List Int32} (h : m.Goes c ip stack d)
    (h' : m.Goes d ip' stack' e) : m.Goes c ip' stack' e :=
  ⟨h'.ip, h'.stack, h'.heap.trans h.heap, h'.hp.trans h.hp, h'.fp.trans h.fp,
    h'.printed.trans h.printed, h'.fits⟩

namespace Leads

/-- A single step.  It may end in a collision, if it leaves no room between stack and heap. -/
theorem one (hat : CodeAt m.prog c.ip (i :: rest)) (hstep : m.Step i c d)
    (hp : c.printed <+: printed) (full : m.top ≤ d.use → m.top ≤ bound)
    (hQ : d.use < m.top → Q d) : m.Leads printed bound Q c :=
  .step hat hstep hp full fun h ↦ .here (hQ h)

/-- A step after which there is still room. -/
theorem fits (hat : CodeAt m.prog c.ip (i :: rest)) (hstep : m.Step i c d)
    (hp : c.printed <+: printed) (hfits : d.use < m.top) (next : m.Leads printed bound Q d) :
    m.Leads printed bound Q c :=
  .step hat hstep hp (fun h ↦ absurd h (Nat.not_le_of_lt hfits)) fun _ ↦ next

/-- One piece after another one, neither of which touches the heap. -/
theorem andThen {ip' : Nat} {stack' : List Int32} (h : m.Leads printed bound (m.Goes c ip stack) c)
    (h' : ∀ d, m.Goes c ip stack d → m.Leads printed bound (m.Goes d ip' stack') d) :
    m.Leads printed bound (m.Goes c ip' stack') c :=
  h.bind fun d hd ↦ (h' d hd).imp fun _ he ↦ hd.trans he

/-- An instruction that pushes a value. -/
theorem pushed (hat : CodeAt m.prog c.ip (i :: rest))
    (hstep : m.Step i c (c.move ip (v :: c.stack)))
    (hp : c.printed <+: printed) (hb : m.top ≤ c.use + 1 → m.top ≤ bound) :
    m.Leads printed bound (m.Goes c ip (v :: c.stack)) c := by
  refine .one hat hstep hp (fun h ↦ hb ?_) fun h ↦ .move h
  simp only [Config.use_move, List.length_cons] at h
  simp only [Config.use]
  omega

theorem push (hat : CodeAt m.prog c.ip (.push v :: rest)) (hp : c.printed <+: printed)
    (hb : m.top ≤ c.use + 1 → m.top ≤ bound) :
    m.Leads printed bound (m.Goes c (c.ip + 2) (v :: c.stack)) c :=
  pushed hat (.push v) hp hb

/-- Two values are compared, and a jump leads on if the comparison holds. -/
theorem test {j : Jump} {l : Label} {holds : Prop} [Decidable holds]
    (hj : j = .ifEq ∧ (holds ↔ v2 = v1) ∨ j = .ifLessEq ∧ (holds ↔ v2 ≤ v1))
    (hat : CodeAt m.prog c.ip (.jump j l :: rest)) (hs : c.stack = v1 :: v2 :: st)
    (hp : c.printed <+: printed) (hfits : c.use < m.top) :
    m.Leads printed bound
      (m.Goes c (if holds then addressOf l m.prog else c.ip + 2) st) c := by
  simp only [Config.use, hs, List.length_cons] at hfits
  rcases hj with ⟨rfl, hiff⟩ | ⟨rfl, hiff⟩
  · refine .one hat (.ifEq l hs) hp (fun h ↦ ?_) fun h ↦ ?_
    · simp only [Config.use_move] at h
      omega
    · simp only [hiff]
      exact .move h
  · refine .one hat (.ifLessEq l hs) hp (fun h ↦ ?_) fun h ↦ ?_
    · simp only [Config.use_move] at h
      omega
    · simp only [hiff]
      exact .move h

theorem jump {l : Label} (hat : CodeAt m.prog c.ip (.jump .always l :: rest))
    (hp : c.printed <+: printed) (hfits : c.use < m.top) :
    m.Leads printed bound (m.Goes c (addressOf l m.prog) c.stack) c :=
  .one hat (.jump l) hp (fun h ↦ absurd h (Nat.not_le_of_lt hfits)) .move

/-- An operation that does not make the stack longer. -/
theorem plain {op : Operation} (hat : CodeAt m.prog c.ip (.plain op :: rest))
    (hstep : m.Step (.plain op) c (c.move (c.ip + 1) st)) (hlen : st.length ≤ c.stack.length)
    (hp : c.printed <+: printed) (hfits : c.use < m.top) :
    m.Leads printed bound (m.Goes c (c.ip + 1) st) c := by
  rw [Config.use] at hfits
  refine .one hat hstep hp (fun h ↦ ?_) fun h ↦ .move h
  rw [Config.use_move] at h
  omega

/-- The top of the stack is pushed once more. -/
theorem duplicate (hat : CodeAt m.prog c.ip (duplicate ++ rest)) (hs : c.stack = v :: st)
    (hp : c.printed <+: printed) (hfits : c.use < m.top)
    (hb : m.top ≤ c.use + 1 → m.top ≤ bound) :
    m.Leads printed bound (m.Goes c (c.ip + 3) (v :: v :: st)) c := by
  simp only [Config.use, hs, List.length_cons] at hfits hb
  refine .step hat (.storeTm hs) hp (fun h ↦ ?_) fun _ ↦
    .step hat.tail .loadTm hp (fun h ↦ ?_) fun _ ↦
    .one hat.tail.tail .loadTm hp (fun h ↦ ?_) fun h ↦ ⟨rfl, rfl, rfl, rfl, rfl, rfl, h⟩
  all_goals
    simp only [Config.use, Config.move, List.length_cons] at h
    omega

/-- What is kept at an offset is loaded. -/
theorem loadAt {offset : Int} (hat : CodeAt m.prog c.ip (Target.loadAt offset ++ rest))
    (hs : c.stack = a :: st) (hl : m.Loads st c.heap (a + Int32.ofInt offset) v)
    (hp : c.printed <+: printed) (hfits : c.use < m.top)
    (hb : m.top ≤ c.use + 1 → m.top ≤ bound) :
    m.Leads printed bound (m.Goes c (c.ip + 4) (v :: st)) c := by
  simp only [Config.use, hs, List.length_cons] at hfits hb
  refine .step hat (.push _) hp (fun h ↦ ?_) fun _ ↦
    .step hat.tail (.add (congrArg (Int32.ofInt offset :: ·) hs)) hp (fun h ↦ ?_) fun _ ↦
    .one hat.tail.tail (.load (Eq.refl (_ :: st)) hl) hp (fun h ↦ ?_) fun h ↦
      ⟨rfl, rfl, rfl, rfl, rfl, rfl, h⟩
  all_goals
    simp only [Config.use, Config.move, hs, List.length_cons] at h
    omega

/-- The end of a test that has not jumped. -/
theorem select_no {taken done : Label} {no yes : Int32} {b : Bytecode} (hm : m.Sized b)
    (hat : CodeAt m.prog c.ip (select taken done no yes ++ rest)) (hp : c.printed <+: printed)
    (hb : m.top ≤ c.use + 1 → m.top ≤ bound) :
    m.Leads printed bound
      (m.Goes c (c.ip + codeSize (select taken done no yes)) (no :: c.stack)) c := by
  have hend : addressOf done m.prog = c.ip + 6 :=
    Assembled.addressOf_eq hm.assembled hat.tail.tail.tail.tail
  simp only [Config.use] at hb
  refine .step hat (.push no) hp (fun h ↦ ?_) fun _ ↦
    .one hat.tail (.jump done) hp (fun h ↦ ?_) fun h ↦ ⟨hend, rfl, rfl, rfl, rfl, rfl, h⟩
  all_goals
    simp only [Config.use, Config.move, List.length_cons] at h
    omega

/-- The end of a test that has jumped. -/
theorem select_yes {taken done : Label} {no yes : Int32} {b : Bytecode} (hm : m.Sized b)
    {ip : Nat} (hat : CodeAt m.prog ip (select taken done no yes ++ rest))
    (hip : c.ip = addressOf taken m.prog) (hp : c.printed <+: printed)
    (hb : m.top ≤ c.use + 1 → m.top ≤ bound) :
    m.Leads printed bound
      (m.Goes c (ip + codeSize (select taken done no yes)) (yes :: c.stack)) c := by
  have hip : c.ip = ip + 4 :=
    hip.trans (Assembled.addressOf_eq hm.assembled hat.tail.tail)
  have hat' : CodeAt m.prog c.ip ([.push yes, .mark done] ++ rest) := by
    rw [hip]
    exact hat.tail.tail.tail
  refine (push hat' hp hb).imp fun d hd ↦ ⟨hd.ip.trans ?_, hd.stack, hd.heap, hd.hp, hd.fp,
    hd.printed, hd.fits⟩
  rw [hip]
  rfl

end Leads

/-! ## Frames -/

/-- Following links from an address, one loads another address in the end.  Each link is found on
the stack or on the heap. -/
inductive Links (m : Image) (stack heap : List Int32) : Nat → Int32 → Int32 → Prop
  | zero (a : Int32) : m.Links stack heap 0 a a
  | succ {n : Nat} {a a' a'' : Int32} (head : m.Loads stack heap a a')
      (tail : m.Links stack heap n a' a'') : m.Links stack heap (n + 1) a a''

/-- What can be loaded can still be loaded when stack and heap have grown. -/
theorem Loads.mono {heap heap' : List Int32} (h : m.Loads st heap a v) (hs : st <:+ stack)
    (hh : heap <+: heap') : m.Loads stack heap' a v := by
  cases h with
  | @heap k v hk =>
    have hlt : k < heap.length := (List.getElem?_eq_some_iff.1 hk).1
    refine .heap ?_
    obtain ⟨more, rfl⟩ := hh
    rw [List.getElem?_append_left hlt, hk]
  | @stack above below v hst =>
    obtain ⟨more, rfl⟩ := hs
    have hst' : more ++ st = (more ++ above) ++ v :: below := by rw [hst, List.append_assoc]
    exact .stack hst'

/-- The frame, or the object, in which a declaration is kept: the fixed one for global declarations,
and otherwise the one at the end of the access links. -/
def FrameAt (m : Image) (t : Target) (r : Resolution) (c : Config) (a : Int32) : Prop :=
  if r.entry.level = 0 then a = t.base else m.Links c.stack c.heap r.hops c.fp a

@[simp] theorem codeSize_replicate (n : Nat) (op : Operation) :
    codeSize (List.replicate n (.plain op)) = n := by
  induction n with
  | zero => rfl
  | succ n ih =>
    rw [List.replicate_succ, codeSize_cons, ih]
    exact Nat.add_comm 1 n

namespace Leads

variable {t : Target} {r : Resolution}

theorem links {n : Nat} (hat : CodeAt m.prog c.ip (List.replicate n (.plain .loadWord) ++ rest))
    (hs : c.stack = a :: st) (hl : m.Links st c.heap n a v) (hp : c.printed <+: printed)
    (hfits : c.use < m.top) : m.Leads printed bound (m.Goes c (c.ip + n) (v :: st)) c := by
  induction n generalizing c a with
  | zero =>
    cases hl
    exact .here ⟨rfl, hs, rfl, rfl, rfl, rfl, hfits⟩
  | succ n ih =>
    cases hl with
    | succ head tail =>
      refine andThen (plain hat (.load hs head) (by simp [hs]) hp hfits) fun d hd ↦ ?_
      have hat' : CodeAt m.prog d.ip (List.replicate n (.plain .loadWord) ++ rest) := by
        rw [hd.ip]
        exact hat.tail
      have := ih hat' hd.stack (by rw [hd.heap]; exact tail) (hd.printed ▸ hp) hd.fits
      rwa [hd.ip, Nat.add_assoc, Nat.add_comm 1] at this

/-- The frame of a declaration is pushed.  While links are followed, one value on the stack takes
the place of another. -/
theorem frame (hat : CodeAt m.prog c.ip (t.frame r ++ rest)) (ha : m.FrameAt t r c a)
    (hp : c.printed <+: printed) (hb : m.top ≤ c.use + 1 → m.top ≤ bound) :
    m.Leads printed bound (m.Goes c (c.ip + codeSize (t.frame r)) (a :: c.stack)) c := by
  rw [FrameAt] at ha
  rw [Target.frame] at hat ⊢
  split at ha
  · rename_i hlevel
    rw [if_pos hlevel] at hat ⊢
    rw [ha]
    exact push hat hp hb
  · rename_i hlevel
    rw [if_neg hlevel] at hat ⊢
    have hfp : m.Leads printed bound (m.Goes c (c.ip + 1) (c.fp :: c.stack)) c :=
      pushed hat .loadFp hp hb
    refine hfp.andThen fun d hd ↦ ?_
    have hat' : CodeAt m.prog d.ip (List.replicate r.hops (.plain .loadWord) ++ rest) := by
      rw [hd.ip]
      exact hat.tail
    have hsize : codeSize (.plain .loadFp :: List.replicate r.hops (.plain .loadWord))
        = 1 + r.hops := by
      rw [codeSize_cons, codeSize_replicate]
      rfl
    rw [hsize, ← Nat.add_assoc, ← hd.ip]
    exact links hat' hd.stack (by rw [hd.heap]; exact ha) (hd.printed ▸ hp) hd.fits

/-- The address at which a declaration is kept is pushed. -/
theorem address (hat : CodeAt m.prog c.ip (t.address r ++ rest)) (ha : m.FrameAt t r c a)
    (hp : c.printed <+: printed) (hb : m.top ≤ c.use + 2 → m.top ≤ bound) :
    m.Leads printed bound (m.Goes c (c.ip + codeSize (t.address r))
      ((a + Int32.ofInt r.entry.offset) :: c.stack)) c := by
  rw [Target.address] at hat ⊢
  split
  · rename_i hlevel
    rw [FrameAt, if_pos hlevel] at ha
    rw [if_pos hlevel] at hat
    rw [ha]
    exact push hat hp fun h ↦ hb (by omega)
  · rename_i hlevel
    rw [if_neg hlevel, List.append_assoc] at hat
    refine andThen (frame hat ha hp fun h ↦ hb (by omega)) fun d hd ↦ ?_
    have huse := hd.use_eq
    rw [List.length_cons] at huse
    rw [Config.use] at hb
    have hat' : CodeAt m.prog d.ip
        (.push (Int32.ofInt r.entry.offset) :: .plain .add :: rest) := by
      rw [hd.ip]
      exact hat.right
    refine andThen (push hat' (hd.printed ▸ hp) fun h ↦ hb (by omega)) fun e he ↦ ?_
    have hat'' : CodeAt m.prog e.ip (.plain .add :: rest) := by
      rw [he.ip]
      exact hat'.tail
    have hs : e.stack = Int32.ofInt r.entry.offset :: a :: c.stack := by rw [he.stack, hd.stack]
    have hsize : codeSize (t.frame r ++ [.push (Int32.ofInt r.entry.offset), .plain .add])
        = codeSize (t.frame r) + 2 + 1 := by
      rw [codeSize_append]
      rfl
    rw [hsize, ← Nat.add_assoc, ← Nat.add_assoc, ← hd.ip, ← he.ip]
    exact plain hat'' (.add hs) (by simp [hs]) ((he.printed.trans hd.printed) ▸ hp) he.fits

/-- What is kept at an offset from the top of the stack is called. -/
theorem call {offset : Int} {l : Label}
    (hat : CodeAt m.prog c.ip (Target.loadAt offset ++ .plain .jumpSub :: rest))
    (hs : c.stack = a :: st) (hl : m.Loads st c.heap (a + Int32.ofInt offset) (m.entry l))
    (hp : c.printed <+: printed) (hfits : c.use < m.top)
    (hb : m.top ≤ c.use + 1 → m.top ≤ bound) :
    m.Leads printed bound
      (fun d ↦ m.Goes c (addressOf l m.prog) st d ∧ d.ra = Int32.ofNat (c.ip + 5)) c := by
  refine (loadAt hat hs hl hp hfits hb).bind fun d hd ↦ ?_
  have hat' : CodeAt m.prog d.ip (.plain .jumpSub :: rest) := by
    rw [hd.ip]
    exact hat.right
  refine .one hat' (.jumpSub hd.stack (addressOf_le l m.prog)) (hd.printed ▸ hp) (fun h ↦ hb ?_)
    fun h ↦ ⟨⟨rfl, rfl, hd.heap, hd.hp, hd.fp, hd.printed, h⟩, ?_⟩
  · simp only [Config.use, Config.move, hd.hp, hs, List.length_cons] at h ⊢
    omega
  · simp only [hd.ip]

/-- The method in whose object's dispatch table an entry is found is called, with the object on the
stack. -/
theorem dispatch {offset : Int} {l : Label} {p : Int32}
    (hat : CodeAt m.prog c.ip
      (ObjectLet.duplicate ++
        (.plain .loadWord :: Target.loadAt offset ++ .plain .jumpSub :: rest)))
    (hs : c.stack = a :: st) (hobj : m.Loads st c.heap a p)
    (hl : m.Loads st c.heap (p + Int32.ofInt offset) (m.entry l))
    (hp : c.printed <+: printed) (hfits : c.use < m.top)
    (hb : m.top ≤ c.use + 2 → m.top ≤ bound) :
    m.Leads printed bound (fun d ↦ m.Goes c (addressOf l m.prog) (a :: st) d ∧
      d.ra = Int32.ofNat (c.ip + 9)) c := by
  have hsuffix : st <:+ a :: st := List.suffix_cons a st
  refine (duplicate hat hs hp hfits fun h ↦ hb (by omega)).bind fun d hd ↦ ?_
  have hat₁ : CodeAt m.prog d.ip
      (.plain .loadWord :: (Target.loadAt offset ++ .plain .jumpSub :: rest)) := by
    rw [hd.ip]
    exact hat.right
  refine (plain hat₁ (.load hd.stack (hobj.mono hsuffix (hd.heap ▸ List.prefix_rfl)))
    (by simp [hd.stack]) (hd.printed ▸ hp) hd.fits).bind fun e he ↦ ?_
  have hat₂ : CodeAt m.prog e.ip (Target.loadAt offset ++ .plain .jumpSub :: rest) := by
    rw [he.ip]
    exact hat₁.tail
  have huse : e.use = c.use + 1 := by
    rw [(hd.trans he).use_eq, Config.use, hs, List.length_cons, List.length_cons]
    omega
  refine (call hat₂ he.stack (hl.mono hsuffix ((he.heap.trans hd.heap) ▸ List.prefix_rfl))
    ((he.printed.trans hd.printed) ▸ hp) he.fits fun h ↦ hb (by omega)).imp fun f hf ↦
      ⟨hd.trans (he.trans hf.1), hf.2.trans ?_⟩
  rw [he.ip, hd.ip]

end Leads

/-! ## The heap -/

/-- One configuration is what becomes of another one that goes on at an address with a new stack and
more cells on the heap. -/
structure Stores (m : Image) (c : Config) (ip : Nat) (stack cells : List Int32) (d : Config) :
    Prop where
  /-- It is at that address. -/
  ip : d.ip = ip
  /-- It has that stack. -/
  stack : d.stack = stack
  /-- The cells have been added. -/
  heap : d.heap = c.heap ++ cells
  /-- The heap ends behind them. -/
  hp : d.hp = c.hp + cells.length
  /-- It is in the same frame. -/
  fp : d.fp = c.fp
  /-- Nothing has been printed. -/
  printed : d.printed = c.printed
  /-- Stack and heap are apart. -/
  fits : d.use < m.top

theorem Goes.stores {e : Config} {ip' : Nat} {stack' cells : List Int32} (h : m.Goes c ip stack d)
    (h' : m.Stores d ip' stack' cells e) : m.Stores c ip' stack' cells e :=
  ⟨h'.ip, h'.stack, h.heap ▸ h'.heap, h.hp ▸ h'.hp, h'.fp.trans h.fp, h'.printed.trans h.printed,
    h'.fits⟩

theorem Stores.trans {e : Config} {ip' : Nat} {stack' cells cells' : List Int32}
    (h : m.Stores c ip stack cells d) (h' : m.Stores d ip' stack' cells' e) :
    m.Stores c ip' stack' (cells ++ cells') e where
  ip := h'.ip
  stack := h'.stack
  heap := by rw [h'.heap, h.heap, List.append_assoc]
  hp := by rw [h'.hp, h.hp, List.length_append, Nat.add_assoc]
  fp := h'.fp.trans h.fp
  printed := h'.printed.trans h.printed
  fits := h'.fits

/-- As many cells are in use as the new stack and the heap with its new cells have. -/
theorem Stores.use_eq {cells : List Int32} (h : m.Stores c ip stack cells d) :
    d.use = stack.length + c.hp + cells.length := by
  rw [Config.use, h.stack, h.hp, Nat.add_assoc]

/-- The heap has no cell that is not counted yet. -/
theorem Stores.length {cells : List Int32} (h : m.Stores c ip stack cells d)
    (hlen : c.heap.length = c.hp) : d.heap.length = d.hp := by
  rw [h.heap, h.hp, List.length_append, hlen]

namespace Leads

/-- The heap pointer is moved over a cell that has been written. -/
theorem bumpHeap (hat : CodeAt m.prog c.ip (bumpHeap ++ rest)) (hlen : c.heap.length = c.hp + 1)
    (hp : c.printed <+: printed) (hb : m.top ≤ c.use + 2 → m.top ≤ bound) :
    m.Leads printed bound (fun d ↦ d.ip = c.ip + 5 ∧ d.stack = c.stack ∧ d.heap = c.heap ∧
      d.hp = c.hp + 1 ∧ d.fp = c.fp ∧ d.printed = c.printed ∧ d.use < m.top) c := by
  refine .step hat .loadHp hp (fun h ↦ hb ?_) fun _ ↦
    .step hat.tail (.push 1) hp (fun h ↦ hb ?_) fun _ ↦
    .step hat.tail.tail (.add rfl) hp (fun h ↦ hb ?_) fun _ ↦
    .one hat.tail.tail.tail (.storeHp (congrArg (· :: c.stack)
      (Int32.ofNat_add c.hp 1).symm) hlen) hp (fun h ↦ hb ?_) fun h ↦
        ⟨rfl, rfl, rfl, rfl, rfl, rfl, h⟩
  all_goals
    simp only [Config.use, Config.move, List.length_cons] at h ⊢
    omega

/-- The top of the stack goes onto the heap. -/
theorem storeOnHeap (hat : CodeAt m.prog c.ip (storeOnHeap ++ rest)) (hs : c.stack = v :: st)
    (hlen : c.heap.length = c.hp) (hp : c.printed <+: printed)
    (hb : m.top ≤ c.use + 1 → m.top ≤ bound) :
    m.Leads printed bound (m.Stores c (c.ip + 7) st [v]) c := by
  simp only [Config.use, hs, List.length_cons] at hb
  refine .step hat .loadHp hp (fun h ↦ hb ?_) fun _ ↦
    .step hat.tail (.store (congrArg (Int32.ofNat c.hp :: ·) hs) hlen) hp (fun h ↦ hb ?_) fun _ ↦
    imp (bumpHeap hat.tail.tail (List.length_append.trans (congrArg (· + 1) hlen)) hp
      fun h ↦ hb ?_) ?_
  rotate_right
  · rintro d ⟨hip, hstack, hheap, hhp, hfp, hprinted, hfits⟩
    exact ⟨hip, hstack, hheap, hhp, hfp, hprinted, hfits⟩
  all_goals
    simp only [Config.use, Config.move, hs, List.length_cons] at h
    omega

/-- Several values go onto the heap, the topmost of them first. -/
theorem storeAll {vs : List Int32} (hat : CodeAt m.prog c.ip
      ((List.replicate vs.length ObjectLet.storeOnHeap).flatten ++ rest)) (hs : c.stack = vs ++ st)
    (hlen : c.heap.length = c.hp) (hp : c.printed <+: printed) (hfits : c.use < m.top)
    (hb : m.top ≤ c.use + 1 → m.top ≤ bound) :
    m.Leads printed bound (m.Stores c
      (c.ip + codeSize (List.replicate vs.length ObjectLet.storeOnHeap).flatten) st vs) c := by
  induction vs generalizing c with
  | nil => exact .here ⟨rfl, hs, (List.append_nil _).symm, rfl, rfl, rfl, hfits⟩
  | cons v vs ih =>
    simp only [List.length_cons, List.replicate_succ, List.flatten_cons] at hat ⊢
    rw [List.append_assoc] at hat
    refine (storeOnHeap hat hs hlen hp hb).bind fun d hd ↦ ?_
    -- the value is on the heap now, so the number of cells in use is the same
    have huse : d.use = c.use := by
      rw [hd.use_eq, Config.use, hs]
      simp only [List.cons_append, List.append_eq, List.length_cons, List.length_nil]
      omega
    refine (ih (c := d) ?_ hd.stack (hd.length hlen) (hd.printed ▸ hp) hd.fits
      (huse ▸ hb)).imp fun e he ↦ ?_
    · rw [hd.ip]
      exact hat.right
    · have := hd.trans he
      rwa [hd.ip, Nat.add_assoc, ← show codeSize ObjectLet.storeOnHeap = 7 from rfl,
        ← codeSize_append] at this

/-- An object is made: the values go onto the heap, and above them the dispatch table of the
class. -/
theorem construct {t : Target} {r : Resolution} {vs : List Int32} {p : Int32}
    (hat : CodeAt m.prog c.ip (t.construct r vs.length ++ rest)) (hs : c.stack = vs ++ st)
    (hlen : c.heap.length = c.hp) (hlevel : r.entry.level = 0)
    (hl : m.Loads st c.heap (t.base + Int32.ofInt r.entry.offset) p)
    (hp : c.printed <+: printed) (hfits : c.use < m.top)
    (hb : m.top ≤ c.use + 3 → m.top ≤ bound) :
    m.Leads printed bound (m.Stores c (c.ip + codeSize (t.construct r vs.length))
      (Int32.ofNat (c.hp + vs.length) :: st) (vs ++ [p])) c := by
  have ha : ∀ d, m.FrameAt t r d t.base := fun d ↦ by rw [FrameAt, if_pos hlevel]
  simp only [Target.construct, List.append_assoc] at hat ⊢
  refine (storeAll hat hs hlen hp hfits fun h ↦ hb (by omega)).bind fun d hd ↦ ?_
  have hat₁ := hat.right
  rw [← hd.ip] at hat₁
  have huse : d.stack.length + d.hp = c.use := by
    rw [Config.use, hd.stack, hd.hp, hs, List.length_append]
    omega
  refine (address hat₁ (ha d) (hd.printed ▸ hp) fun h ↦ hb ?_).bind fun e he ↦ ?_
  · rw [Config.use] at h
    omega
  have hat₂ := hat₁.right
  rw [← he.ip] at hat₂
  have hl' : m.Loads d.stack e.heap (t.base + Int32.ofInt r.entry.offset) p :=
    hl.mono (hd.stack ▸ List.suffix_rfl) (by rw [he.heap, hd.heap]; exact List.prefix_append _ _)
  have hp₂ : e.printed <+: printed := (he.printed.trans hd.printed) ▸ hp
  have hlen₂ : e.heap.length = e.hp := by rw [he.heap, he.hp, hd.length hlen]
  have hhp₂ := he.hp
  refine .step hat₂ (.load he.stack hl') hp₂ (fun h ↦ hb ?_) fun _ ↦
    .step hat₂.tail .loadHp hp₂ (fun h ↦ hb ?_) fun _ ↦
    .step hat₂.tail.tail (.store rfl hlen₂) hp₂ (fun h ↦ hb ?_) fun _ ↦
    .step hat₂.tail.tail.tail .loadHp hp₂ (fun h ↦ hb ?_) fun _ ↦
    imp (bumpHeap hat₂.tail.tail.tail.tail
      (List.length_append.trans (congrArg (· + 1) hlen₂)) hp₂ fun h ↦ hb ?_) ?_
  rotate_right
  · rintro f ⟨hip, hstack, hheap, hhp, hfp, hprinted, hfits⟩
    refine hd.trans (he.stores ⟨?_, ?_, hheap, hhp, hfp, hprinted, hfits⟩)
    · have hsize : ∀ is, codeSize ([.plain .loadWord, .plain .loadHp, .plain .storeWord,
          .plain .loadHp] ++ (ObjectLet.bumpHeap ++ is)) = 9 + codeSize is := fun is ↦ by
        simp only [codeSize_append]
        exact (Nat.add_assoc 4 5 _).symm
      have := hsize []
      rw [List.append_nil] at this
      rw [codeSize_append, codeSize_append, this, ← Nat.add_assoc, ← hd.ip, ← Nat.add_assoc,
        ← he.ip]
      exact hip
    · refine hstack.trans ?_
      show Int32.ofNat e.hp :: d.stack = _
      rw [he.hp, hd.hp, hd.stack]
  all_goals
    simp only [Config.use, Config.move, List.length_cons] at h
    omega

theorem storeEntries {table : List Label}
    (hat : CodeAt m.prog c.ip
      (table.flatMap (fun l ↦ .pushLabel l :: ObjectLet.storeOnHeap) ++ rest))
    (hlen : c.heap.length = c.hp) (hp : c.printed <+: printed) (hfits : c.use < m.top)
    (hb : m.top ≤ c.use + table.length + 1 → m.top ≤ bound) :
    m.Leads printed bound (m.Stores c
      (c.ip + codeSize (table.flatMap fun l ↦ .pushLabel l :: ObjectLet.storeOnHeap)) c.stack
      (table.map m.entry)) c := by
  induction table generalizing c with
  | nil => exact .here ⟨rfl, rfl, (List.append_nil _).symm, rfl, rfl, rfl, hfits⟩
  | cons l table ih =>
    have hcode : (l :: table).flatMap (fun l ↦ .pushLabel l :: ObjectLet.storeOnHeap)
        = (.pushLabel l :: ObjectLet.storeOnHeap)
          ++ table.flatMap fun l ↦ .pushLabel l :: ObjectLet.storeOnHeap := rfl
    rw [hcode] at hat ⊢
    rw [List.append_assoc] at hat
    rw [List.length_cons] at hb
    have hentry : m.Leads printed bound (m.Stores c (c.ip + 9) c.stack [m.entry l]) c := by
      refine .step hat (.pushLabel l) hp (fun h ↦ hb ?_) fun _ ↦
        imp (storeOnHeap hat.tail rfl hlen hp fun h ↦ hb ?_) fun d hd ↦
          ⟨hd.ip, hd.stack, hd.heap, hd.hp, hd.fp, hd.printed, hd.fits⟩
      all_goals
        simp only [Config.use, Config.move, List.length_cons] at h ⊢
        omega
    refine hentry.bind fun d hd ↦ ?_
    have hat' := hat.right
    rw [show c.ip + codeSize (.pushLabel l :: ObjectLet.storeOnHeap) = d.ip from hd.ip.symm] at hat'
    have huse : d.use = c.use + 1 := by
      rw [Config.use, Config.use, hd.stack, hd.hp, List.length_singleton, Nat.add_assoc]
    refine (ih hat' (hd.length hlen) (hd.printed ▸ hp) hd.fits fun h ↦ hb (by omega)).imp
      fun e he ↦ ?_
    have h := hd.trans he
    rw [hd.stack, hd.ip, Nat.add_assoc] at h
    rw [codeSize_append]
    exact h

/-- A dispatch table is built on the heap. -/
theorem buildDispatch {table : List Label}
    (hat : CodeAt m.prog c.ip (buildDispatch table ++ rest)) (hlen : c.heap.length = c.hp)
    (hp : c.printed <+: printed) (hb : m.top ≤ c.use + table.length + 2 → m.top ≤ bound) :
    m.Leads printed bound (m.Stores c (c.ip + codeSize (ObjectLet.buildDispatch table))
      (Int32.ofNat c.hp :: c.stack) (table.map m.entry)) c := by
  have huse : (c.move (c.ip + 1) (Int32.ofNat c.hp :: c.stack)).use = c.use + 1 := by
    simp only [Config.use, Config.move, List.length_cons]
    omega
  refine .step hat .loadHp hp (fun h ↦ hb (by omega)) fun h ↦
    imp (storeEntries hat.tail hlen hp h fun h ↦ hb (by omega)) fun d hd ↦ ?_
  refine ⟨hd.ip.trans ?_, hd.stack, hd.heap, hd.hp, hd.fp, hd.printed, hd.fits⟩
  rw [ObjectLet.buildDispatch, codeSize_cons, ← Nat.add_assoc]
  rfl

end Leads

/-! ## Functions -/

namespace Leads

theorem pops {vs : List Int32}
    (hat : CodeAt m.prog c.ip (List.replicate vs.length (.plain .pop) ++ rest))
    (hs : c.stack = vs ++ st) (hp : c.printed <+: printed) (hfits : c.use < m.top) :
    m.Leads printed bound (fun d ↦ m.Goes c (c.ip + vs.length) st d ∧ d.ra = c.ra ∧ d.tm = c.tm)
      c := by
  induction vs generalizing c with
  | nil => exact .here ⟨⟨rfl, hs, rfl, rfl, rfl, rfl, hfits⟩, rfl, rfl⟩
  | cons v vs ih =>
    have hs : c.stack = v :: (vs ++ st) := hs
    refine .step hat (.pop hs) hp (fun h ↦ ?_) fun h ↦
      imp (ih (c := c.move (c.ip + 1) (vs ++ st)) hat.tail rfl hp h) fun d hd ↦
        ⟨⟨hd.1.ip.trans ?_, hd.1.stack, hd.1.heap, hd.1.hp, hd.1.fp, hd.1.printed, hd.1.fits⟩, hd.2⟩
    · rw [Config.use_move] at h
      simp only [Config.use, hs, List.length_cons] at hfits
      omega
    · rw [List.length_cons, Nat.add_comm vs.length 1, ← Nat.add_assoc]
      rfl

/-- A function sets up its frame: the frame pointer goes to the access link, and the return
address on top of that. -/
theorem prologue {b : Bytecode} {entry : Label} (hm : m.Sized b) {ip : Nat}
    (hat : CodeAt m.prog ip (prologue entry ++ rest)) (hip : c.ip = addressOf entry m.prog)
    (hp : c.printed <+: printed) (hb : m.top ≤ c.use + 1 → m.top ≤ bound) :
    m.Leads printed bound (fun d ↦ d.ip = ip + codeSize (ObjectLet.prologue entry) ∧
      d.stack = c.ra :: c.stack ∧ d.heap = c.heap ∧ d.hp = c.hp ∧ d.fp = m.sp c.stack ∧
      d.printed = c.printed ∧ c.steps < d.steps ∧ d.use < m.top) c := by
  have hip : c.ip = ip := hip.trans (Assembled.addressOf_eq hm.assembled hat)
  subst hip
  refine .step hat.tail .copyFp hp (fun h ↦ hb (Nat.le_succ_of_le h)) fun _ ↦
    .one hat.tail.tail .loadRa hp (fun h ↦ hb ?_) fun h ↦
      ⟨rfl, rfl, rfl, rfl, rfl, rfl, Nat.lt_of_lt_of_le (Nat.lt_succ_self _) (Nat.le_succ _), h⟩
  simp only [Config.use, Config.move, List.length_cons] at h ⊢
  omega

/-- A function takes its frame down and returns to its caller. -/
theorem epilogue {locals params : List Int32} {ret : Nat} {link fp : Int32}
    (hat : CodeAt m.prog c.ip (epilogue locals.length params.length ++ rest))
    (hs : c.stack = v :: (locals ++ Int32.ofNat ret :: link :: (params ++ fp :: st)))
    (hret : ret ≤ codeSize m.prog) (hp : c.printed <+: printed) (hfits : c.use < m.top) :
    m.Leads printed bound (fun d ↦ d.ip = ret ∧ d.stack = v :: st ∧ d.heap = c.heap ∧
      d.hp = c.hp ∧ d.fp = fp ∧ d.printed = c.printed ∧ d.use < m.top) c := by
  simp only [ObjectLet.epilogue, List.append_assoc, List.cons_append, List.nil_append] at hat
  -- the two values that are loaded at the end take the places of two that have been popped
  simp only [Config.use, hs, List.length_cons, List.length_append] at hfits
  have hfits₁ : (c.move (c.ip + 1) (locals ++ Int32.ofNat ret :: link :: (params ++ fp :: st))).use
      < m.top := by
    simp only [Config.use_move, List.length_cons, List.length_append]
    omega
  refine .fits hat (.storeTm hs) hp hfits₁
    (bind (pops hat.tail (Eq.refl (locals ++ _)) hp hfits₁) ?_)
  rintro d ⟨hd, -, htm⟩
  have hdhp : d.hp = c.hp := hd.hp
  have hat₁ : CodeAt m.prog d.ip (.plain .storeRa :: .plain .pop ::
      (List.replicate params.length (.plain .pop) ++ .plain .storeFp :: .plain .loadTm ::
        .plain .loadRa :: .plain .jumpSub :: rest)) := by
    rw [hd.ip]
    have := hat.tail.right
    rwa [codeSize_replicate] at this
  have hp₁ : d.printed <+: printed := hd.printed ▸ hp
  refine .fits hat₁ (.storeRa hd.stack) hp₁ ?_ (.fits hat₁.tail (.pop rfl) hp₁ ?_
    (bind (pops hat₁.tail.tail (Eq.refl (params ++ _)) hp₁ ?_) ?_))
  rotate_right
  · rintro e ⟨he, hra, htm'⟩
    have hehp : e.hp = c.hp := he.hp.trans hdhp
    have hat₂ : CodeAt m.prog e.ip (.plain .storeFp :: .plain .loadTm :: .plain .loadRa ::
        .plain .jumpSub :: rest) := by
      rw [he.ip]
      have := hat₁.tail.tail.right
      rwa [codeSize_replicate] at this
    have hp₂ : e.printed <+: printed := he.printed ▸ hp₁
    have htm₂ : e.tm = v := htm'.trans htm
    refine .fits hat₂ (.storeFp he.stack) hp₂ ?_ (.fits hat₂.tail .loadTm hp₂ ?_
      (.fits hat₂.tail.tail .loadRa hp₂ ?_
      (.fits hat₂.tail.tail.tail (.jumpSub (congrArg (· :: e.tm :: st) hra) hret) hp₂ ?_
        (.here ⟨rfl, congrArg (· :: st) htm₂, he.heap.trans hd.heap, hehp, rfl,
          he.printed.trans hd.printed, ?_⟩))))
    all_goals
      simp only [Config.use, Config.move, List.length_cons]
      omega
  all_goals
    simp only [Config.use, Config.move, List.length_cons, List.length_append]
    omega

end Leads

end Image

end ObjectLet
