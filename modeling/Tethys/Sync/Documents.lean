import Tethys.Lib.Members
import Tethys.Schema.Sync

/-!
# Documents

`format/json_cst.rs` and `format/toml.rs`: editing a config file through the syntax tree of
its text. The two parsers are parameters. A JSON object keeps its members in order, and a
name may occur more than once; TOML tables have distinct keys, and their order is a matter of
printing, so they are kept in ascending order.
-/

namespace Tethys.Sync

open Schema Lib

inductive Node where
  /-- null, a boolean, a number or a date, as it is written -/
  | scalar (text : String)
  | string (value : String)
  | array (items : List Node)
  /-- a JSON object or a TOML inline table -/
  | object (members : List (String × Node))
  /-- a TOML table, under a header or made by dotted keys -/
  | table (members : List (String × Node))

abbrev Members := List (String × Node)

namespace Node

def asStr : Node → Option String
  | .string value => some value
  | _ => none

def asArray : Node → Option (List Node)
  | .array items => some items
  | _ => none

def asObject : Node → Option Members
  | .object members => some members
  | _ => none

def asTable : Node → Option Members
  | .table members => some members
  | _ => none

end Node

/-- A format-preserving editor: `parse` reads a text, and `print text doc` is the text of the
tree that was parsed from `text` and then edited into `doc`. -/
structure Codec (δ : Type) where
  parse : String → Except String δ
  print : String → δ → String

/-- The libraries behind the projection: `jsonc_parser`, with or without comments and
trailing commas, `toml_edit`, and the printer of `imara_diff`. -/
structure Formats where
  json : Bool → Codec Node
  toml : Codec Members
  patch : String → String → String

inductive SyncError where
  | registry (message : String)
  | parse (path message : String)
  | unsupported (what : String)
  | stalePlan (path : String)
  | conflict (message : String)
  | missingSecrets (refs : List String)
  | secretStore (message : String)
  | notFound (what : String)
  | io (message : String)
  deriving DecidableEq

namespace JsonCst

def parse (F : Formats) (text : String) (loose : Bool) : Except SyncError Node :=
  (F.json loose).parse text |>.mapError (.parse "")

/-- The root object, or an error when the document is not an object. -/
def rootObject : Node → Except SyncError Members
  | .object members => .ok members
  | _ => .error (.registry "root must be a JSON object")

/-- The object under a name, when there is one. -/
def object (object : Members) (name : String) : Option Members :=
  (object.lookup name).bind Node.asObject

/-- Edit the object under a name, setting it to an empty one first when there is none. -/
def objectOrSet (object : Members) (name : String) (f : Members → Members) : Members :=
  edit name (fun value => .object (f ((value.bind Node.asObject).getD []))) object

/-- Set a property, replacing its value in place or appending it. -/
def set (object : Members) (name : String) (value : Node) : Members :=
  edit name (fun _ => value) object

end JsonCst

namespace Toml

def parse (F : Formats) (text : String) : Except SyncError Members :=
  F.toml.parse text |>.mapError (.parse "")

/-- Edit a top-level table, inserting an empty one when absent. -/
def tableOrInsert (doc : Members) (key : String) (f : Members → Except SyncError Members) :
    Except SyncError Members :=
  match doc.lookup key with
  | none => (f []).map fun table => insertSorted key (.table table) doc
  | some (.table table) => (f table).map fun table => insertSorted key (.table table) doc
  | some _ => .error (.registry (key ++ " must be a table"))

end Toml

/-- `char::is_whitespace`. -/
def isWhitespace (c : Char) : Bool :=
  let n := c.toNat
  decide (9 ≤ n ∧ n ≤ 13) || decide (0x2000 ≤ n ∧ n ≤ 0x200a) ||
    [0x20, 0x85, 0xa0, 0x1680, 0x2028, 0x2029, 0x202f, 0x205f, 0x3000].contains n

/-- `text.trim().is_empty()`. -/
def blank (text : String) : Bool := text.toList.all isWhitespace

end Tethys.Sync
