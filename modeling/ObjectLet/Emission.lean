import ObjectLet.Emission.Expr
import ObjectLet.Event

/-!
# The code of programs

The code of a declaration leaves the value of the declaration on the stack, where it stays for as
long as the scope lasts: the value of a variable, the address of a function, or the address of the
dispatch table of a class, which is built on the heap.

The bodies of functions and methods do not belong where they are declared.  They are collected, a
nested function before the one around it, and follow after the `halt` of the program.

A dispatch table starts out as a copy of that of the superclass.  Each method of the class then goes
where its layout says: to the place of the method it overrides, or to the end.
-/

set_option autoImplicit false

namespace ObjectLet

/-- What has been emitted apart from the code at hand. -/
structure Emission where
  /-- The number of the next label. -/
  nextLabel : Nat := 0
  /-- The dispatch tables of the classes so far: the entries of their methods. -/
  dispatch : Table String (List Label) := ∅
  /-- The code of the functions and methods so far. -/
  functions : List Instr := []
  /-- What has been logged. -/
  log : List Event := []

/-- Emitting the code of a declaration.  The code itself is the result; what belongs elsewhere is
put into the state, and if there is no code for something, the reason is thrown. -/
abbrev Emitter := EStateM CompileError Emission

namespace Emitter

/-- Uses the label counter for something that needs nothing else.  If that fails, the state is
as it was before. -/
def labels {α : Type} (x : Emit α) : Emitter α := fun s ↦
  match x s.nextLabel with
  | .ok (a, nextLabel) => .ok a { s with nextLabel }
  | .error e => .error e s

/-- Logs an event. -/
def note (e : Event) : Emitter Unit := modify fun s ↦ { s with log := s.log ++ [e] }

/-- Adds the code of a function after that of the functions before it. -/
def addFunction (code : List Instr) : Emitter Unit :=
  modify fun s ↦ { s with functions := s.functions ++ code }

end Emitter

/-! ## Pieces of code -/

/-- How a function begins: it sets up its frame and saves the return address. -/
def prologue (entry : Label) : List Instr := [.mark entry, .plain .copyFp, .plain .loadRa]

/-- How a function with the given numbers of local declarations and parameters ends: it puts its
result aside, takes its frame off the stack and returns to its caller with the result. -/
def epilogue (locals params : Nat) : List Instr :=
  [.plain .storeTm] ++ List.replicate locals (.plain .pop)
    ++ [.plain .storeRa, .plain .pop] ++ List.replicate params (.plain .pop)
    ++ [.plain .storeFp, .plain .loadTm, .plain .loadRa, .plain .jumpSub]

/-- Builds a dispatch table on the heap and leaves its address on the stack.  The entries are stored
one after the other in the next cells, so the address is the heap pointer as it was before. -/
def buildDispatch (table : List Label) : List Instr :=
  .plain .loadHp :: table.flatMap fun entry ↦ .pushLabel entry :: storeOnHeap

/-- Puts the entry of a method at its place in a dispatch table.  Either there is an entry already,
which it replaces, or the place is the one after the last entry.  Everything else is refused, since
there must be no gap. -/
def placeEntry? (table : List Label) (offset : Int) (entry : Label) : Option (List Label) :=
  if offset < 0 then none
  else if offset.toNat < table.length then some (table.set offset.toNat entry)
  else if offset.toNat = table.length then some (table ++ [entry])
  else none

namespace Target

/-- The dispatch table that a class starts out with: that of its superclass, or one without entries
if it has no superclass or none whose table has been built. -/
def inheritedDispatch (t : Target) (cls : String) : Emitter (List Label) := do
  let s ← get
  return ((t.ctx.classes.superclass? cls).bind s.dispatch.find?).getD []

/-- The index that a method has in the dispatch table.  Its layout says so, and if that is missing
or gives an offset below 0, as for a method in the place of a field, there is no code. -/
def methodOffset (t : Target) (site : Site) (name : String) : Emitter Int :=
  match t.ctx.layouts.find? site.id with
  | some e => if 0 ≤ e.offset then pure e.offset else throw (.missingLayout name site.line)
  | none => throw (.missingLayout name site.line)

end Target

/-- Completes the dispatch table of a class: logs how many entries it has, keeps it for the classes
that extend this one, and gives the code that builds it. -/
def finishDispatch (cls : String) (table : List Label) : Emitter (List Instr) := do
  .note (.dispatchTable cls table.length)
  modify fun s ↦ { s with dispatch := s.dispatch.insert cls table }
  return buildDispatch table

/-! ## Declarations -/

mutual

/-- The code of a declaration.  For a function it only pushes the address of its entry; the code of
the function itself goes elsewhere. -/
def Decl.emit (t : Target) : Decl → Emitter (List Instr)
  | .var _ _ _ init => .labels (init.emit t)
  | .func f => do
    let entry ← .labels (Label.fresh .function)
    f.emit t entry
    return [.pushLabel entry]
  | .cls c => c.emit t
termination_by structural d => d

/-- Adds the code of a function or method with the given entry.  What it declares locally has been
emitted by then, so functions inside it come before it. -/
def FunDecl.emit (t : Target) (entry : Label) : FunDecl → Emitter Unit
  | ⟨_, name, _, params, locals, body⟩ => do
    .note (.emittingFunction name entry)
    let declared ← Decl.emitAll t locals
    let result ← .labels (body.emit t)
    .addFunction (prologue entry ++ declared ++ result ++ epilogue locals.length params.length)
termination_by structural f => f

/-- The code of a class.  The code of its methods is added on the way, and only the dispatch table
is built where the class is declared. -/
def ClassDecl.emit (t : Target) : ClassDecl → Emitter (List Instr)
  | ⟨_, name, _, _, methods⟩ => do
    let inherited ← t.inheritedDispatch name
    let table ← FunDecl.emitMethods t inherited methods
    finishDispatch name table
termination_by structural c => c

/-- The code of several declarations, one after the other. -/
def Decl.emitAll (t : Target) : List Decl → Emitter (List Instr)
  | [] => pure []
  | d :: ds => do
    let first ← d.emit t
    let rest ← Decl.emitAll t ds
    return first ++ rest
termination_by structural ds => ds

/-- Adds the code of several methods and puts them into a dispatch table.  The index of a method is
looked up before its entry gets a label, and without an index nothing more is emitted. -/
def FunDecl.emitMethods (t : Target) (table : List Label) : List FunDecl → Emitter (List Label)
  | [] => pure table
  | f :: fs => do
    let offset ← t.methodOffset f.site f.name
    let entry ← .labels (Label.fresh .method)
    f.emit t entry
    match placeEntry? table offset entry with
    | some table => FunDecl.emitMethods t table fs
    | none => throw (.missingLayout f.name f.site.line)
termination_by structural fs => fs

end

/-! ## Programs -/

/-- The main code of a program, up to its `halt`.  With global declarations, a value that is never
used takes the place that the return address has in other frames. -/
def Program.emitMain (t : Target) : Program → Emitter (List Instr)
  | .letIn _ decls body => do
    let declared ← Decl.emitAll t decls
    let result ← .labels (body.emit t)
    return [.push 0] ++ declared ++ result ++ [.plain .halt]
  | .bare body => do
    let result ← .labels (body.emit t)
    return result ++ [.plain .halt]

/-- The whole code of a program: its main code, and the functions after it. -/
def Program.emit (t : Target) (p : Program) : Emitter (List Instr) := do
  let main ← p.emitMain t
  let s ← get
  let code := main ++ s.functions
  .note (.codeGenerated main.length code.length s.dispatch.size)
  return code

/-- The code of a program about which enough is known, and what is logged on the way.  A program
with errors is refused. -/
def generate (t : Target) (p : Program) : Except CompileError (List Instr) × List Event :=
  if t.ctx.errorCounts.isClean then
    match p.emit t {} with
    | .ok code s => (.ok code, s.log)
    | .error e s => (.error e, s.log)
  else (.error (.frontEnd t.ctx.errorCounts), [])

end ObjectLet
