import ObjectLet.Machine.Run
import ObjectLet.Text.Json

/-!
# Stored options and code

Machine options and code are stored as JSON.  Each is an object with the names of its parts, or a
list of its parts in order.  Options may leave out parts, which then have their usual values, and
the objects may have members that mean nothing here; but no member that means something may occur
twice.
-/

set_option autoImplicit false

namespace ObjectLet

open Text

/-! ## Parts -/

/-- A number that fits into 64 bits without a sign. -/
def Text.Json.Value.count? : Json.Value → Option Nat
  | .number (some n) => if 0 ≤ n ∧ n < 18446744073709551616 then some n.toNat else none
  | _ => none

/-- A number that fits into 32 bits with a sign. -/
def Text.Json.Value.word? : Json.Value → Option Int32
  | .number (some n) =>
    if -2147483648 ≤ n ∧ n < 2147483648 then some (Int32.ofInt n) else none
  | _ => none

/-- A limit, or none. -/
def Text.Json.Value.limit? : Json.Value → Option (Option Nat)
  | .null => some none
  | v => v.count?.map some

/-- A list of words. -/
def Text.Json.Value.words? : Json.Value → Option (List Int32)
  | .array vs => vs.mapM Json.Value.word?
  | _ => none

/-- The members of an object, if all names stand for a text. -/
def namedMembers? (members : List (Option String × Json.Value)) :
    Option (List (String × Json.Value)) :=
  members.mapM fun (k, v) ↦ k.map fun k ↦ (k, v)

/-- The member of a given name, if there is one; fails if there are several. -/
def uniqueMember? (name : String) (members : List (String × Json.Value)) :
    Option (Option Json.Value) :=
  match members.filter fun m ↦ m.1 == name with
  | [] => some none
  | [m] => some (some m.2)
  | _ => none

/-- Reads a part that may be missing. -/
def readPart {α : Type} (read : Json.Value → Option α) (usual : α) : Option Json.Value → Option α
  | none => some usual
  | some v => read v

/-! ## Options -/

namespace Options

/-- Options from the parts that are there. -/
def ofParts? (memorySize maxSteps : Option Json.Value) : Option Options := do
  let usual : Options := {}
  let memorySize ← readPart Json.Value.count? usual.memorySize memorySize
  let maxSteps ← readPart Json.Value.limit? usual.maxSteps maxSteps
  return { memorySize, maxSteps }

/-- The options that a value stands for. -/
def ofJson? : Json.Value → Option Options
  | .object members => do
    let members ← namedMembers? members
    ofParts? (← uniqueMember? "memory_size" members) (← uniqueMember? "max_steps" members)
  | .array [] => ofParts? none none
  | .array [size] => ofParts? size none
  | .array [size, steps] => ofParts? size steps
  | _ => none

/-- Reads stored options. -/
def ofText? (text : String) : Option Options := (Json.parse? text).bind ofJson?

/-- Stores options. -/
def toText (o : Options) : String :=
  "\x7b\"memory_size\":" ++ toString o.memorySize ++ ",\"max_steps\":"
    ++ (match o.maxSteps with
      | some n => toString n
      | none => "null")
    ++ "\x7d"

end Options

/-! ## Code -/

namespace Bytecode

/-- The code that a value stands for. -/
def ofJson? : Json.Value → Option Bytecode
  | .object members => do
    let members ← namedMembers? members
    let words ← (← uniqueMember? "code" members).bind Json.Value.words?
    return ⟨words.toArray⟩
  | .array [v] => v.words?.map fun ws ↦ ⟨ws.toArray⟩
  | _ => none

/-- Reads stored code. -/
def ofText? (text : String) : Option Bytecode := (Json.parse? text).bind ofJson?

/-- Stores code. -/
def toText (b : Bytecode) : String :=
  "\x7b\"code\":[" ++ ",".intercalate (b.code.toList.map fun w ↦ toString w.toInt) ++ "]\x7d"

end Bytecode

end ObjectLet
