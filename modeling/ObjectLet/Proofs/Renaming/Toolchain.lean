import ObjectLet.Proofs.Renaming.Emission
import ObjectLet.Proofs.Renaming.Resolution
import ObjectLet.Proofs.Renaming.Typing
import ObjectLet.Toolchain

/-!
# Renamed programs are compiled alike

All stages together: if the nodes, the names and the lines of a program are renamed, what the
analyses find out is renamed, the log is renamed, and the code is the same.

* `Toolchain.analyze_rename`: **a renamed program is analysed alike.**
* `Toolchain.compile_rename`: **and has the same code**, or none for the same reason.
-/

set_option autoImplicit false

namespace ObjectLet

variable (r : Renaming)

/-! ## The log -/

theorem Finding.event?_rename (n : Finding) :
    (n.rename r).event? = n.event?.map (Event.rename r) := by
  cases n <;> rfl

theorem Remark.event?_rename (n : Remark) :
    (n.rename r).event? = n.event?.map (Event.rename r) := by
  cases n <;> rfl

/-- What is logged for notes that are renamed. -/
theorem filterMap_rename {α : Type} {rename : α → α} {event? : α → Option Event}
    (h : ∀ n, event? (rename n) = (event? n).map (Event.rename r)) (ns : List α) :
    (ns.map rename).filterMap event? = (ns.filterMap event?).map (Event.rename r) := by
  rw [List.filterMap_map, List.map_filterMap]
  exact List.filterMap_congr fun n _ ↦ h n

/-! ## Stages -/

/-- The result of analysing a program, renamed. -/
def Analysis.rename (a : Analysis) : Analysis where
  context := a.context.rename r
  mainType := mapBoth (CheckError.rename r) (Ty.rename r.names) a.mainType
  counts := a.counts
  log := a.log.map (Event.rename r)

/-- The result of compiling a program, renamed. -/
def Compilation.rename (c : Compilation) : Compilation where
  result := mapBoth (CompileError.rename r) id c.result
  log := c.log.map (Event.rename r)

namespace Toolchain

variable (t : Toolchain) (p : Program)

/-- **A renamed program is analysed alike**, with everything about it renamed, down to the log. -/
theorem analyze_rename : t.analyze (p.relabel r) = (t.analyze p).rename r := by
  have hresolve : (p.relabel r).resolve .empty
      = ((p.resolve .empty).1.rename r.names, (p.resolve .empty).2.map (Finding.rename r)) :=
    Program.resolve_rename r .empty p
  have hresolved : ({ classes := (p.resolve .empty).1.rename r.names : Context }).addFindings
        ((p.resolve .empty).2.map (Finding.rename r))
      = (({ classes := (p.resolve .empty).1 : Context }).addFindings
        (p.resolve .empty).2).rename r :=
    Context.addFindings_rename r { classes := (p.resolve .empty).1 } (p.resolve .empty).2
  simp only [analyze, hresolve, hresolved, Program.check_rename, Checked.rename,
    Context.addRemarks_rename, Context.errorCounts_rename, ClassTable.size_rename,
    Context.length_scopeErrors_rename, Context.length_typeErrors_rename, toOption_mapBoth,
    filterMap_rename r (Finding.event?_rename r), filterMap_rename r (Remark.event?_rename r)]
  simp only [Analysis.rename, List.map_append, List.map_cons, List.map_nil, Event.rename]

/-- The code of a program is generated alike. -/
theorem generate_rename (t : Target) :
    generate (t.rename r) (p.relabel r)
      = (mapBoth (CompileError.rename r) id (generate t p).1,
        (generate t p).2.map (Event.rename r)) := by
  have hcounts : (t.rename r).ctx.errorCounts = t.ctx.errorCounts := Context.errorCounts_rename r _
  have hemit : (p.relabel r).emit (t.rename r) {} = renameEnd r (p.emit t {}) :=
    Program.emit_alike r t p {}
  rw [generate, hcounts, hemit, generate]
  split
  · cases p.emit t {} <;> rfl
  · rfl

/-- **A renamed program has the same code**, or none for the same reason. -/
theorem compile_rename : t.compile (p.relabel r) = (t.compile p).rename r := by
  have htarget : t.target ((t.analyze p).rename r) = (t.target (t.analyze p)).rename r := rfl
  have hcounts : ((t.analyze p).rename r).counts = (t.analyze p).counts := rfl
  have hlog : ((t.analyze p).rename r).log = (t.analyze p).log.map (Event.rename r) := rfl
  simp only [compile, analyze_rename, htarget, hcounts, hlog, generate_rename]
  split
  · simp only [Compilation.rename, List.map_append]
    congr 1
    cases (generate (t.target (t.analyze p)) p).1 with
    | error e => rfl
    | ok is =>
      show Compiled.ofInstrs is = mapBoth _ id (Compiled.ofInstrs is)
      rw [Compiled.ofInstrs]
      cases assemble is <;> rfl
  · rfl

end Toolchain

end ObjectLet
