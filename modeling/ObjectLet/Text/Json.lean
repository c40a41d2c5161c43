/-!
# Reading JSON

`Json.parse?` reads a JSON text into a `Json.Value`, strictly: nothing may follow the value, lists
have no comma at their end, numbers have no needless zeros.  Objects keep all their members in
order, even two of one name.

Only what is needed of a value is kept.  A number is an integer or it is not; one with a fraction
or an exponent is not, and neither is `-0`.  A text with half of a surrogate pair in it stands for
no text, but is well-formed.
-/

set_option autoImplicit false

namespace ObjectLet.Text.Json

/-- A JSON value. -/
inductive Value where
  /-- Nothing. -/
  | null
  /-- A truth value. -/
  | bool (b : Bool)
  /-- A number, if it is an integer. -/
  | number (n : Option Int)
  /-- A text, if it stands for one. -/
  | string (s : Option String)
  /-- A list. -/
  | array (elements : List Value)
  /-- Named values. -/
  | object (members : List (Option String × Value))

/-! ## Blanks and digits -/

/-- Whether a character may stand between the parts of a text. -/
def isBlank (c : Char) : Bool := c == ' ' || c == '\t' || c == '\n' || c == '\r'

/-- A text without the blanks it begins with. -/
def skipBlank (cs : List Char) : List Char := cs.dropWhile isBlank

/-- The number that some decimal digits stand for. -/
def ofDigits (ds : List Char) : Nat := ds.foldl (fun n c ↦ 10 * n + (c.toNat - '0'.toNat)) 0

/-- The value of a digit to base 16. -/
def hexValue? (c : Char) : Option Nat :=
  if '0' ≤ c ∧ c ≤ '9' then some (c.toNat - '0'.toNat)
  else if 'a' ≤ c ∧ c ≤ 'f' then some (c.toNat - 'a'.toNat + 10)
  else if 'A' ≤ c ∧ c ≤ 'F' then some (c.toNat - 'A'.toNat + 10)
  else none

/-! ## Numbers -/

/-- Reads at least one digit. -/
def digits? (cs : List Char) : Option (List Char × List Char) :=
  match cs.span Char.isDigit with
  | ([], _) => none
  | (ds, rest) => some (ds, rest)

/-- Reads the part of a number before the point: a single zero, or digits that do not begin with
one. -/
def natural? (cs : List Char) : Option (Nat × List Char) := do
  let (ds, rest) ← digits? cs
  match ds with
  | '0' :: _ :: _ => none
  | _ => some (ofDigits ds, rest)

/-- Reads a fraction, if there is one, and says whether there was. -/
def fraction? : List Char → Option (Bool × List Char)
  | '.' :: cs => (digits? cs).map fun p ↦ (true, p.2)
  | cs => some (false, cs)

/-- A text without the sign it may begin with. -/
def skipSign : List Char → List Char
  | '+' :: cs | '-' :: cs => cs
  | cs => cs

/-- Reads an exponent, if there is one, and says whether there was. -/
def exponent? : List Char → Option (Bool × List Char)
  | 'e' :: cs | 'E' :: cs => (digits? (skipSign cs)).map fun p ↦ (true, p.2)
  | cs => some (false, cs)

/-- Reads a number. -/
def number? (cs : List Char) : Option (Option Int × List Char) := do
  let (negative, cs) := match cs with
    | '-' :: cs => (true, cs)
    | cs => (false, cs)
  let (n, cs) ← natural? cs
  let (fractional, cs) ← fraction? cs
  let (scaled, cs) ← exponent? cs
  if fractional || scaled || (negative && n == 0) then return (none, cs)
  return (some (if negative then -(n : Int) else n), cs)

/-! ## Texts -/

/-- A piece of a text between quotes. -/
inductive Piece where
  /-- A character that stands for itself, or a short escape. -/
  | char (c : Char)
  /-- A 16-bit unit, given by its number. -/
  | unit (u : Nat)

/-- What a short escape stands for. -/
def shortEscape? : Char → Option Char
  | '"' => some '"'
  | '\\' => some '\\'
  | '/' => some '/'
  | 'b' => some '\x08'
  | 'f' => some '\x0c'
  | 'n' => some '\n'
  | 'r' => some '\r'
  | 't' => some '\t'
  | _ => none

/-- Reads the rest of a text after its opening quote. -/
def pieces? : List Char → Option (List Piece × List Char)
  | [] => none
  | '"' :: cs => some ([], cs)
  | '\\' :: 'u' :: a :: b :: c :: d :: cs => do
    let a ← hexValue? a
    let b ← hexValue? b
    let c ← hexValue? c
    let d ← hexValue? d
    let (ps, rest) ← pieces? cs
    return (.unit (((a * 16 + b) * 16 + c) * 16 + d) :: ps, rest)
  | '\\' :: e :: cs => do
    let c ← shortEscape? e
    let (ps, rest) ← pieces? cs
    return (.char c :: ps, rest)
  | c :: cs =>
    if c == '\\' || c.toNat < 32 then none
    else (pieces? cs).map fun (ps, rest) ↦ (.char c :: ps, rest)

/-- The characters that some pieces stand for.  Units that are halves of a pair come in pairs. -/
def characters? : List Piece → Option (List Char)
  | [] => some []
  | .char c :: ps => (characters? ps).map (c :: ·)
  | .unit u :: ps =>
    if 0xD800 ≤ u ∧ u < 0xDC00 then
      match ps with
      | .unit v :: qs =>
        if 0xDC00 ≤ v ∧ v < 0xE000 then
          (characters? qs).map
            (Char.ofNat (0x10000 + (u - 0xD800) * 0x400 + (v - 0xDC00)) :: ·)
        else none
      | _ => none
    else if 0xDC00 ≤ u ∧ u < 0xE000 then none
    else (characters? ps).map (Char.ofNat u :: ·)

/-- Reads a text after its opening quote. -/
def string? (cs : List Char) : Option (Option String × List Char) :=
  (pieces? cs).map fun (ps, rest) ↦ ((characters? ps).map String.ofList, rest)

/-! ## Values -/

mutual

/-- Reads a value that is at most `fuel` characters long. -/
def value? : (fuel : Nat) → List Char → Option (Value × List Char)
  | 0, _ => none
  | fuel + 1, cs =>
    match skipBlank cs with
    | 'n' :: 'u' :: 'l' :: 'l' :: rest => some (.null, rest)
    | 't' :: 'r' :: 'u' :: 'e' :: rest => some (.bool true, rest)
    | 'f' :: 'a' :: 'l' :: 's' :: 'e' :: rest => some (.bool false, rest)
    | '"' :: rest => (string? rest).map fun (s, rest) ↦ (.string s, rest)
    | '[' :: rest =>
      match skipBlank rest with
      | ']' :: rest => some (.array [], rest)
      | rest => (elements? fuel rest).map fun (vs, rest) ↦ (.array vs, rest)
    | '{' :: rest =>
      match skipBlank rest with
      | '}' :: rest => some (.object [], rest)
      | rest => (members? fuel rest).map fun (ms, rest) ↦ (.object ms, rest)
    | rest => (number? rest).map fun (n, rest) ↦ (.number n, rest)

/-- Reads the elements of a list, of which there is at least one, and its end. -/
def elements? : (fuel : Nat) → List Char → Option (List Value × List Char)
  | 0, _ => none
  | fuel + 1, cs => do
    let (v, rest) ← value? fuel cs
    match skipBlank rest with
    | ',' :: rest => (elements? fuel rest).map fun (vs, rest) ↦ (v :: vs, rest)
    | ']' :: rest => some ([v], rest)
    | _ => none

/-- Reads the members of an object, of which there is at least one, and its end. -/
def members? : (fuel : Nat) → List Char → Option (List (Option String × Value) × List Char)
  | 0, _ => none
  | fuel + 1, cs =>
    match skipBlank cs with
    | '"' :: rest => do
      let (k, rest) ← string? rest
      match skipBlank rest with
      | ':' :: rest =>
        let (v, rest) ← value? fuel rest
        match skipBlank rest with
        | ',' :: rest => (members? fuel rest).map fun (ms, rest) ↦ ((k, v) :: ms, rest)
        | '}' :: rest => some ([(k, v)], rest)
        | _ => none
      | _ => none
    | _ => none

end

/-- Reads a text that consists of one value. -/
def parse? (text : String) : Option Value := do
  let cs := text.toList
  let (v, rest) ← value? (2 * cs.length + 2) cs
  if (skipBlank rest).isEmpty then some v else none

end ObjectLet.Text.Json
