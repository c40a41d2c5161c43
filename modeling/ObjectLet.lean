import ObjectLet.ClassTable
import ObjectLet.Code.Bytecode
import ObjectLet.Code.Instr
import ObjectLet.Code.Opcode
import ObjectLet.Context
import ObjectLet.Diagnostics
import ObjectLet.Emission
import ObjectLet.Emission.Expr
import ObjectLet.Event
import ObjectLet.Hierarchy
import ObjectLet.Machine.Fault
import ObjectLet.Machine.Memory
import ObjectLet.Machine.Output
import ObjectLet.Machine.Run
import ObjectLet.Machine.State
import ObjectLet.Machine.Step
import ObjectLet.Resolution
import ObjectLet.Resolution.ClassLayout
import ObjectLet.Scope
import ObjectLet.Storage
import ObjectLet.Table
import ObjectLet.Text.Json
import ObjectLet.Text.Literal
import ObjectLet.Text.Visible
import ObjectLet.Toolchain
import ObjectLet.Tree
import ObjectLet.Tree.Numbering
import ObjectLet.Tree.Outline
import ObjectLet.Ty
import ObjectLet.Ty.Subtyping
import ObjectLet.Ty.Term
import ObjectLet.Typing
import ObjectLet.Proofs.Accesses
import ObjectLet.Proofs.Correctness
import ObjectLet.Proofs.Overriding
import ObjectLet.Proofs.Dispatch
import ObjectLet.Proofs.Decoration
import ObjectLet.Proofs.Visibility
import ObjectLet.Proofs.Members
import ObjectLet.Proofs.Ancestry
import ObjectLet.Proofs.History
import ObjectLet.Proofs.Courses
import ObjectLet.Proofs.Symbolic
import ObjectLet.Proofs.Bounds
import ObjectLet.Proofs.Words
import ObjectLet.Proofs.Sessions
import ObjectLet.Proofs.Order
import ObjectLet.Proofs.Joins
import ObjectLet.Proofs.Cutoffs
import ObjectLet.Proofs.Renaming.Trees
import ObjectLet.Proofs.Renaming.Context
import ObjectLet.Proofs.Renaming.Resolution
import ObjectLet.Proofs.Renaming.Typing
import ObjectLet.Proofs.Renaming.Emission
import ObjectLet.Proofs.Renaming.Toolchain
import ObjectLet.Proofs.Renaming.Correspondence
import ObjectLet.Proofs.Decoding
import ObjectLet.Proofs.Sections
import ObjectLet.Proofs.Frames
import ObjectLet.Proofs.References
import ObjectLet.Proofs.Listings
import ObjectLet.Proofs.Shares
import ObjectLet.Proofs.Stretches
import ObjectLet.Proofs.Construction
import ObjectLet.Proofs.Returning
