import ObjectLet.Emission
import ObjectLet.Resolution
import ObjectLet.Typing

/-!
# From a program to its run

A `Toolchain` takes a program through all stages: `Toolchain.analyze` goes through both analyses,
`Toolchain.compile` goes on to the code if there are no errors at all, and `Toolchain.run` executes
the code on a new machine.  Each of them gives its result together with the log up to that point.

A tree may come from a reader that has found errors of its own; a toolchain is told how many, and
refuses the program for their sake, too.
-/

set_option autoImplicit false

namespace ObjectLet

/-- The way from a program to its run. -/
structure Toolchain where
  /-- The options of the machine that the program is to run on. -/
  options : Options := {}
  /-- How many malformed words the reader has found. -/
  lexical : Nat := 0
  /-- How many malformed sentences the reader has found. -/
  syntactic : Nat := 0
deriving Inhabited

/-- The result of analysing a program. -/
structure Analysis where
  /-- What is known about the program. -/
  context : Context
  /-- The type of its expression. -/
  mainType : Except CheckError Ty
  /-- How many errors there are. -/
  counts : ErrorCounts
  /-- What was logged. -/
  log : List Event

/-- The code of a program. -/
structure Compiled where
  /-- Its instructions. -/
  instructions : List Instr
  /-- The code that they are assembled to. -/
  bytecode : Bytecode

/-- The assembly text of a compiled program. -/
def Compiled.listing (c : Compiled) : String := ObjectLet.listing c.instructions

/-- The result of compiling a program. -/
structure Compilation where
  /-- The code, or why there is none. -/
  result : Except CompileError Compiled
  /-- What was logged. -/
  log : List Event

/-- Why a program was not run to its proper end. -/
inductive RunError where
  /-- There is no code for it. -/
  | compile (e : CompileError)
  /-- There was a fault. -/
  | fault (f : Fault)
deriving DecidableEq

/-- How a failure is reported. -/
def RunError.message : RunError → String
  | .compile e => e.message
  | .fault f => "Runtime fault: " ++ f.message

/-- The result of running a program. -/
structure Execution where
  /-- What the run amounts to, or why it did not end properly. -/
  result : Except RunError Stats
  /-- What was written. -/
  output : Output
  /-- What was logged. -/
  log : List Event

/-- Instructions with the code that they are assembled to. -/
def Compiled.ofInstrs (is : List Instr) : Except CompileError Compiled :=
  match assemble is with
  | .ok bytecode => .ok ⟨is, bytecode⟩
  | .error e => .error (.assembly e)

/-- The event that the end of a run is logged as, given the machine afterwards. -/
def Machine.endEvent (m : Machine) : Except Fault Stats → Event
  | .ok stats => .executed stats
  | .error f => .faulted f m.state.ip m.state.steps

namespace Toolchain

/-- Goes through both analyses, beginning with nothing known.  Types are checked even if names are
unresolved, and the errors of the reader are counted along with the others. -/
def analyze (t : Toolchain) (p : Program) : Analysis :=
  let (classes, found) := p.resolve .empty
  let resolved : Context := { classes : Context }.addFindings found
  let checked := p.check resolved
  let context := resolved.addRemarks checked.remarks
  let counts := { context.errorCounts with lexical := t.lexical, syntactic := t.syntactic }
  { context, mainType := checked.result, counts
    log := found.filterMap Finding.event?
      ++ [.scopesResolved resolved.scopeErrors.length classes.size]
      ++ checked.remarks.filterMap Remark.event?
      ++ [.typesChecked context.typeErrors.length checked.result.toOption, .analysed counts] }

/-- What code is emitted for, once a program is analysed. -/
def target (t : Toolchain) (a : Analysis) : Target := ⟨a.context, t.options.globalBase⟩

/-- Analyses a program and, if it has no errors of any kind, makes its code.  What the analyses have
logged is kept in either case. -/
def compile (t : Toolchain) (p : Program) : Compilation :=
  let a := t.analyze p
  if a.counts.isClean then
    let (code, log) := generate (t.target a) p
    ⟨code.bind Compiled.ofInstrs, a.log ++ log⟩
  else ⟨.error (.frontEnd a.counts), a.log⟩

/-- Compiles a program and runs it on a new machine for at most `fuel` turns.  If these do not
suffice, there is no result; a program that cannot be compiled has one in any case. -/
def run (t : Toolchain) (p : Program) (output : Output) (fuel : Nat) : Option Execution :=
  let c := t.compile p
  match c.result with
  | .error e => some ⟨.error (.compile e), output, c.log⟩
  | .ok compiled =>
    match Machine.new t.options with
    | .error f => some ⟨.error (.fault f), output, c.log⟩
    | .ok m =>
      (m.execute compiled.bytecode output fuel).map fun (result, m) ↦
        ⟨result.mapError .fault, m.state.output, c.log ++ [m.endEvent result]⟩

/-- The instructions that the run of a program decodes in its first `fuel` turns. -/
def trace (t : Toolchain) (p : Program) (output : Output) (fuel : Nat) : List TraceRow :=
  match (t.compile p).result, Machine.new t.options with
  | .ok compiled, .ok m => m.trace compiled.bytecode output fuel
  | _, _ => []

end Toolchain

end ObjectLet
