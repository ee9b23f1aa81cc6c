import StackScript.Names

/-!
# StackScript.Settings.Basic — trees of settings

Settings are named values in tables, which may lie in tables.  A table comes about when a header
names it, when the header of a table within it names it in passing, or when a key with points names
it; what may still be added to it depends on that.  `Settings.put?` adds a value, `Settings.open?`
a table and `Settings.openRow?` one of several tables of the same name.  Each refuses to define
what is defined already.

The program leaves the reading of its theme file to a library for the TOML format.  The modules
under `StackScript.Settings` stand for that library: they follow the format and keep what a theme
can ask for, which is texts by name.  No theorem is about them.
-/

namespace StackScript

/-- How a table came about. -/
inductive Origin where
  /-- a header names it -/
  | header
  /-- the header of a table within it names it in passing -/
  | passing
  /-- a key with points names it -/
  | dotted
  /-- it is written as a value, and nothing can be added -/
  | closed
deriving DecidableEq, Repr, Inhabited

/-- The value of a name. -/
inductive Setting where
  | text (s : String)
  /-- a number, a boolean or a date -/
  | scalar
  | list (items : List Setting)
  | table (origin : Origin) (entries : List (String × Setting))
  /-- tables of one name, each with its own header -/
  | rows (tables : List (List (String × Setting)))
deriving Repr, Inhabited

/-- The entries of a table. -/
abbrev Settings := Names Setting

namespace Settings

/-- Changes the table at a path and makes the tables that are missing on the way.  `dotted` says
that the path is a key, which does not lead into a table that has a header.  Of tables of the same
name it leads into the last. -/
def change? (dotted : Bool) (f : Origin → Settings → Option Settings) :
    List String → Origin → Settings → Option Settings
  | [], origin, s => f origin s
  | key :: path, _, s =>
    match s.find? key with
    | none =>
      let origin := if dotted then Origin.dotted else .passing
      (change? dotted f path origin []).map fun t => s.put key (.table origin t)
    | some (.table origin t) =>
      if origin = .closed ∨ dotted ∧ origin = .header then none
      else (change? dotted f path origin t).map fun t => s.put key (.table origin t)
    | some (.rows tables) =>
      tables.getLast?.bind fun t =>
        (change? dotted f path .header t).map fun t => s.put key (.rows (tables.dropLast ++ [t]))
    | some _ => none

/-- Adds a value to a table of the given origin.  Only a key with points adds to a table that came
about by one, and it adds to no other. -/
def add? (dotted : Bool) (name : String) (v : Setting) (origin : Origin) (s : Settings) :
    Option Settings :=
  if dotted == (origin == .dotted) then
    match s.find? name with
    | none => some (s.put name v)
    | some _ => none
  else none

/-- Adds a value by its key, in parts, the last of which is `name`. -/
def put? (key : List String) (name : String) (v : Setting) (origin : Origin) (s : Settings) :
    Option Settings :=
  change? true (add? (!key.isEmpty) name v) key origin s

/-- Opens a table whose header is `path` and then `name`. -/
def open? (path : List String) (name : String) (s : Settings) : Option Settings :=
  change? false (fun _ s =>
    match s.find? name with
    | none => some (s.put name (.table .header []))
    | some (.table .passing t) => some (s.put name (.table .header t))
    | some _ => none) path .header s

/-- Opens one more of the tables whose header is `path` and then `name`. -/
def openRow? (path : List String) (name : String) (s : Settings) : Option Settings :=
  change? false (fun _ s =>
    match s.find? name with
    | none => some (s.put name (.rows [[]]))
    | some (.rows tables) => some (s.put name (.rows (tables ++ [[]])))
    | some _ => none) path .header s

end Settings

end StackScript
