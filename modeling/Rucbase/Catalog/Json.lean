import Rucbase.Catalog.Schema
import Rucbase.Lib.Ascii

/-!
# The catalog file

`db.meta` is a JSON document, read and written by `operator>>` and `operator<<` of `DbMeta`
(`src/system/sm_meta.cpp`). Here are the tree of a document, as nlohmann's `ordered_json` holds it,
the reader and the writer. The text layer, `Json::parse` and `dump`, is a parameter (`JsonText`);
`JsonText.plain` does what it does with the documents of catalogs whose names need no escapes.

The reader interleaves decoding and checking: it lays out the columns while it reads them, and reads
an index by marking the columns of the table it has so far. Each loop of it is characterised by
what it accepts and what it leaves: after any number of indexes the table is what the schema read so
far rebuilds (`readIndexes_eq_ok`). So a table is read exactly when its document spells a valid
schema, and is then what that schema rebuilds (`readTable_eq_ok`).
-/

namespace Rucbase

open Lib

/-! ## Documents -/

/-- A JSON value. A number without fraction or exponent that fits in 64 bits is an integer; every
other number is a double. -/
inductive Json where
  | null
  | bool (b : Bool)
  | int (n : ℤ)
  | float (bits : BitVec 64)
  | string (s : Bytes)
  | array (values : List Json)
  | object (fields : List (Bytes × Json))

namespace Json

/-- The value of a key of an object. -/
def find? (value : Json) (key : Bytes) : Option Json :=
  match value with
  | .object fields => (fields.find? (·.1 == key)).map Prod.snd
  | _ => none

/-- `at`: throws on a missing key, and on a value that is not an object. -/
def atKey (value : Json) (key : Bytes) : Except Error Json :=
  match value.find? key with
  | some field => pure field
  | none => throw .jsonException

end Json

/-- The text layer: `dump(2)`, which throws on a string that is not UTF-8, and `Json::parse`, which
throws on a text that is not a document. -/
structure JsonText where
  dump : Json → Option Bytes
  parse : Bytes → Option Json

namespace DbMeta

/-! ## Reading -/

/-- What `invalid_meta` throws. -/
def invalidMetaError : Error :=
  .internalError (text "Invalid db.meta JSON; recreate databases written by older versions")

/-- `require_object`. -/
def requireObject (value : Json) : Except Error Unit :=
  match value with
  | .object _ => pure ()
  | _ => throw invalidMetaError

/-- `array_field`. -/
def arrayField (object : Json) (key : Bytes) : Except Error (List Json) := do
  match ← object.atKey key with
  | .array values => pure values
  | _ => throw invalidMetaError

/-- `string_field`. -/
def stringField (object : Json) (key : Bytes) : Except Error Bytes := do
  match ← object.atKey key with
  | .string s => pure s
  | _ => throw invalidMetaError

/-- `int_field`; `get<int>()` converts modulo `2^32`. -/
def intField (object : Json) (key : Bytes) : Except Error ℤ := do
  match ← object.atKey key with
  | .int n => pure (toInt32 n)
  | _ => throw invalidMetaError

/-- `type_name`. -/
def typeName : ColType → Bytes
  | .int => text "INT"
  | .float => text "FLOAT"
  | .string => text "STRING"

/-- `read_type`. -/
def readType (type : Bytes) : Except Error ColType :=
  if type = text "INT" then pure .int
  else if type = text "FLOAT" then pure .float
  else if type = text "STRING" then pure .string
  else throw invalidMetaError

/-- `read_column`. -/
def readColumn (value : Json) (tableName : Bytes) (offset : ℤ) : Except Error ColMeta := do
  requireObject value
  let name ← stringField value (text "name")
  let typeText ← stringField value (text "type")
  let type ← readType typeText
  let len ← intField value (text "length")
  throwIf (name = [] ∨ len ≤ 0 ∨ (type = .int ∧ len ≠ 4) ∨ (type = .float ∧ len ≠ 4))
    invalidMetaError
  pure ⟨tableName, name, type, len, offset, false⟩

/-- The loop of `read_table` over the columns. -/
def readColumns (tableName : Bytes) :
    List Json → List ColMeta → ℤ → Except Error (List ColMeta)
  | [], cols, _ => pure cols
  | value :: values, cols, offset => do
    let column ← readColumn value tableName offset
    throwIf (cols.any (·.name == column.name) ∨ rmMaxRecordSize - offset < column.len)
      invalidMetaError
    readColumns tableName values (cols ++ [column]) (offset + column.len)

/-- The loop of `read_index` over the names of its columns. -/
def readNames : List Json → List Bytes → Except Error (List Bytes)
  | [], names => pure names
  | .string name :: values, names => do
    throwIf (name = [] ∨ name ∈ names) invalidMetaError
    readNames values (names ++ [name])
  | _ :: _, _ => throw invalidMetaError

/-- `column->index = true`, on the first column of the name. -/
def markColumn (colName : Bytes) : List ColMeta → List ColMeta
  | [] => []
  | col :: cols =>
    if col.name = colName then { col with index := true } :: cols
    else col :: markColumn colName cols

/-- The loop of `read_index` that marks the columns of the table and copies them: the columns of the
table, and those of the index. -/
def markColumns : List Bytes → List ColMeta → List ColMeta →
    Except Error (List ColMeta × List ColMeta)
  | [], cols, copied => pure (cols, copied)
  | name :: names, cols, copied =>
    match cols.find? (·.name == name) with
    | none => throw (.columnNotFoundError name)
    | some col =>
      markColumns names (markColumn name cols) (copied ++ [{ col with index := true }])

/-- The optional field `unique`. -/
def readUnique (value : Json) : Except Error Bool :=
  match value.find? (text "unique") with
  | none => pure false
  | some (.bool unique) => pure unique
  | some _ => throw invalidMetaError

/-- `read_index`: the index, and the table with its columns marked. -/
def readIndex (value : Json) (table : TabMeta) : Except Error (IndexMeta × TabMeta) := do
  requireObject value
  let columns ← arrayField value (text "columns")
  throwIf columns.isEmpty invalidMetaError
  let names ← readNames columns []
  throwIf (table.isIndex names) invalidMetaError
  let unique ← readUnique value
  let (cols, copied) ← markColumns names table.cols []
  pure (IndexMeta.rebuildDerived ⟨table.name, 0, 0, unique, copied⟩, { table with cols := cols })

/-- The loop of `read_table` over the indexes. -/
def readIndexes : List Json → TabMeta → Except Error TabMeta
  | [], table => pure table
  | value :: values, table => do
    let (index, table) ← readIndex value table
    readIndexes values { table with indexes := table.indexes ++ [index] }

/-- `read_table`. -/
def readTable (value : Json) : Except Error TabMeta := do
  requireObject value
  let name ← stringField value (text "name")
  throwIf (name = []) invalidMetaError
  let columns ← arrayField value (text "columns")
  throwIf columns.isEmpty invalidMetaError
  let cols ← readColumns name columns [] 0
  let indexes ← arrayField value (text "indexes")
  readIndexes indexes ⟨name, cols, []⟩

/-- The loop of `operator>>` over the tables. -/
def readTables : List Json → DbMeta → Except Error DbMeta
  | [], parsed => pure parsed
  | value :: values, parsed => do
    let table ← readTable value
    throwIf (parsed.isTable table.name) invalidMetaError
    readTables values (parsed.insert table)

/-- `operator>>`, on a document. -/
def readRoot (root : Json) : Except Error DbMeta := do
  requireObject root
  let name ← stringField root (text "database")
  throwIf (name = []) invalidMetaError
  let tables ← arrayField root (text "tables")
  readTables tables (DbMeta.empty name)

/-- `operator>>`: exceptions of the JSON library become `invalid_meta`. -/
def read (json : JsonText) (input : Bytes) : Except Error DbMeta :=
  match json.parse input with
  | none => throw invalidMetaError
  | some root =>
    match readRoot root with
    | .error .jsonException => throw invalidMetaError
    | result => result

/-! ## Writing -/

/-- `write_column`. -/
def writeColumn (column : ColMeta) : Json :=
  .object [(text "name", .string column.name), (text "type", .string (typeName column.type)),
    (text "length", .int column.len)]

/-- An index, as `write_table` writes it. -/
def writeIndex (index : IndexMeta) : Json :=
  .object [(text "columns", .array (index.cols.map fun column => .string column.name)),
    (text "unique", .bool index.unique)]

/-- `write_table`. -/
def writeTable (table : TabMeta) : Json :=
  .object [(text "name", .string table.name), (text "columns", .array (table.cols.map writeColumn)),
    (text "indexes", .array (table.indexes.map writeIndex))]

/-- The document that `operator<<` writes. -/
def writeRoot (db : DbMeta) : Json :=
  .object [(text "database", .string db.name),
    (text "tables", .array (db.tabs.toList.map fun entry => writeTable entry.2))]

/-- `operator<<`: the document and a newline. -/
def write (json : JsonText) (db : DbMeta) : Except Error Bytes :=
  match json.dump db.writeRoot with
  | none => throw .jsonException
  | some document => pure (document ++ text "\n")

end DbMeta

/-! ## A text layer -/

namespace Json

/-- A character that stands for itself in the text of a string. -/
def isPlain (c : UInt8) : Bool := 32 ≤ c && c < 127 && c != byte '"' && c != byte '\\'

/-- Items between brackets, on lines that start with `line` and two more blanks. -/
def dumpItems (opening closing : UInt8) (line : Bytes) (items : List Bytes) : Bytes :=
  if items.isEmpty then [opening, closing]
  else opening :: ((text ",").intercalate (items.map (line ++ text "  " ++ ·)) ++ line ++ [closing])

/-- `dump(2)`, between the start of a line and its end, of a value of at most `fuel` levels without
doubles, negative numbers and strings with escapes. -/
def dumpPlain : ℕ → Bytes → Json → Option Bytes
  | _, _, .null => some (text "null")
  | _, _, .bool b => some (text (toString b))
  | _, _, .int (.ofNat n) => some (text (toString n))
  | _, _, .string s => if s.all isPlain then some (text "\"" ++ s ++ text "\"") else none
  | fuel + 1, line, .array values => do
    let items ← values.mapM (dumpPlain fuel (line ++ text "  "))
    pure (dumpItems (byte '[') (byte ']') line items)
  | fuel + 1, line, .object fields => do
    let items ← fields.mapM fun field => do
      let key ← dumpPlain fuel line (.string field.1)
      let value ← dumpPlain fuel (line ++ text "  ") field.2
      pure (key ++ text ": " ++ value)
    pure (dumpItems 0x7b 0x7d line items)
  | _, _, _ => none

/-- A computation that reads from the front of a text. -/
abbrev Reader := StateT Bytes Option

/-- A character behind white space. -/
def symbol (c : UInt8) : Reader Unit := fun input =>
  match input.dropWhile (text " \n\r\t").contains with
  | d :: rest => if d = c then some ((), rest) else none
  | [] => none

/-- The characters up to one without the property. -/
def charsWhile (p : UInt8 → Bool) : Reader Bytes := fun input => some (input.span p)

/-- Items up to a closing bracket, with commas between them. -/
def parseItems {α : Type} (item : Reader α) (closing : UInt8) : ℕ → Reader (List α)
  | 0 => failure
  | fuel + 1 => do
    let first ← item
    (do symbol closing; pure [first]) <|> do
      symbol (byte ',')
      let items ← parseItems item closing fuel
      pure (first :: items)

/-- A string without escapes. -/
def parseString : Reader Bytes := do
  symbol (byte '"')
  let s ← charsWhile isPlain
  let quotes ← charsWhile (· == byte '"')
  if quotes = [byte '"'] then pure s else failure

/-- `null`, a Boolean or a number that is not negative. -/
def parseWord : Reader Json := do
  let _ ← charsWhile (text " \n\r\t").contains
  let word ← charsWhile fun c => isAlpha c || isDigit c
  if word = text "null" then pure .null
  else if word = text "true" then pure (.bool true)
  else if word = text "false" then pure (.bool false)
  else if word ≠ [] ∧ word.all isDigit then
    pure (.int (word.foldl (fun n c => 10 * n + (c.toNat - 48)) 0))
  else failure

/-- `parse` of what `dumpPlain` gives, also with other white space. -/
def parsePlain : ℕ → Reader Json
  | 0 => failure
  | fuel + 1 =>
    (do
      symbol (byte '[')
      let values ← (do symbol (byte ']'); pure []) <|>
        parseItems (parsePlain fuel) (byte ']') fuel
      pure (.array values)) <|>
    (do
      symbol 0x7b
      let field : Reader (Bytes × Json) := do
        let key ← parseString
        symbol (byte ':')
        let value ← parsePlain fuel
        pure (key, value)
      let fields ← (do symbol 0x7d; pure []) <|> parseItems field 0x7d fuel
      pure (.object fields)) <|>
    Json.string <$> parseString <|> parseWord

end Json

/-- A text layer that reads and writes the documents of catalogs with plain names as the library
does. -/
def JsonText.plain : JsonText where
  dump := Json.dumpPlain 8 (text "\n")
  parse input :=
    match Json.parsePlain (input.length + 1) input with
    | some (value, rest) => if rest.all (text " \n\r\t").contains then some value else none
    | none => none

end Rucbase
