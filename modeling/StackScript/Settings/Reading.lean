import StackScript.Settings.Basic
import StackScript.Settings.Scalar

/-!
# StackScript.Settings.Reading — settings as text

A line of settings opens a table with a name in brackets, opens one of several tables with a name
in two pairs of brackets, or adds a value with a key, `=` and the value to the table opened last.
`Settings.ofText?` reads all lines of a text; a text that is not well formed is refused.  This stands
for the reader of a TOML library, of which the program sees only the tree or the refusal.
-/

namespace StackScript.Settings

/-! ### Values -/

/-- Lists and tables within each other are fewer than this. -/
def depthLimit : Nat := 80

mutual

/-- A value in at most `depth` lists and tables, and what follows it. -/
def value? : Nat → Nat → List Char → Option (Setting × List Char)
  | 0, _, _ => none
  | fuel + 1, depth, cs =>
    match cs with
    | '[' :: rest => if depth = 0 then none else items? fuel (depth - 1) [] (skipBlank rest)
    | '\x7b' :: rest => if depth = 0 then none else entries? fuel (depth - 1) [] (skipGap rest)
    | _ =>
      match string? cs with
      | some (s, rest) => some (.text s, rest)
      | none => (afterScalar? cs).map (.scalar, ·)

/-- The items of a list after those in `items`, and what follows the list. -/
def items? : Nat → Nat → List Setting → List Char → Option (Setting × List Char)
  | 0, _, _, _ => none
  | fuel + 1, depth, items, cs =>
    match cs with
    | ']' :: rest => some (.list items, rest)
    | _ =>
      (value? fuel depth cs).bind fun (v, rest) =>
        match skipBlank rest with
        | ',' :: more => items? fuel depth (items ++ [v]) (skipBlank more)
        | ']' :: behind => some (.list (items ++ [v]), behind)
        | _ => none

/-- The entries of a table after those in `s`, and what follows the table. -/
def entries? : Nat → Nat → Settings → List Char → Option (Setting × List Char)
  | 0, _, _, _ => none
  | fuel + 1, depth, s, cs =>
    match cs with
    | '\x7d' :: rest => if s.isEmpty then some (.table .closed s, rest) else none
    | _ =>
      (key? cs).bind fun ((path, name), rest) =>
        (after? '=' rest).bind fun rest =>
          (value? fuel depth (skipGap rest)).bind fun (v, rest) =>
            (s.put? path name v .header).bind fun s =>
              match skipGap rest with
              | ',' :: more => entries? fuel depth s (skipGap more)
              | '\x7d' :: behind => some (.table .closed s, behind)
              | _ => none

end

/-! ### Lines -/

/-- What a line says. -/
inductive Statement where
  | blank
  | table (path : List String) (name : String)
  | row (path : List String) (name : String)
  | value (path : List String) (name : String) (v : Setting)
deriving Repr, Inhabited

/-- A key and a value, and what follows them. -/
def keyValue? (cs : List Char) : Option (Statement × List Char) := do
  let ((path, name), rest) ← key? cs
  let rest ← after? '=' rest
  let (v, rest) ← value? (2 * rest.length + 1) (depthLimit - 1) (skipGap rest)
  return (.value path name v, rest)

/-- A header after its brackets, and what follows it. -/
def header? (make : List String → String → Statement) (brackets : List Char) (cs : List Char) :
    Option (Statement × List Char) := do
  let ((path, name), rest) ← key? cs
  let rest ← Text.dropStart? brackets rest
  return (make path name, rest)

/-- What a line says, and the next lines. -/
def statement? (cs : List Char) : Option (Statement × List Char) :=
  match lineEnd? cs with
  | some rest => some (.blank, rest)
  | none => do
    let (s, rest) ←
      match skipGap cs with
      | '[' :: '[' :: rest => header? .row [']', ']'] rest
      | '[' :: rest => header? .table [']'] rest
      | rest => keyValue? rest
    return (s, ← lineEnd? rest)

/-- Reads lines, with the table that is open at the end of `path`. -/
def readLines : Nat → List String → Settings → List Char → Option Settings
  | _, _, s, [] => some s
  | 0, _, _, _ => none
  | fuel + 1, opened, s, cs =>
    (statement? cs).bind fun (said, rest) =>
      match said with
      | .blank => readLines fuel opened s rest
      | .table path name =>
        (s.open? path name).bind fun s => readLines fuel (path ++ [name]) s rest
      | .row path name =>
        (s.openRow? path name).bind fun s => readLines fuel (path ++ [name]) s rest
      | .value path name v =>
        (s.change? false (put? path name v) opened .header).bind fun s =>
          readLines fuel opened s rest

/-- Reads settings.  A mark of the byte order in front of them is no part of them. -/
def ofText? (text : String) : Option Settings :=
  let cs :=
    match text.toList with
    | '\ufeff' :: rest => rest
    | cs => cs
  readLines cs.length [] [] cs

end StackScript.Settings
