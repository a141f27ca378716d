import Rucbase.Lib.Bytes

/-!
# Exceptions

The exceptions of `src/common/errors.h` that the modelled code throws, with the data their
constructors take, and the text that `what()` gives of them. Three constructors are not classes of
`errors.h`. `outOfRange` is what `at()` of a standard map throws, `jsonException` stands for the
exceptions of the JSON library, and `assertionFailed` and `undefinedBehaviour` mark a run that
reaches a failing `assert` or leaves the language's rules: such a run does not return.
-/

namespace Rucbase

open Lib

/-- `ColType` of `src/common/defs.h`. -/
inductive ColType where
  | int
  | float
  | string
  deriving DecidableEq, Repr

/-- `coltype2str`. -/
def coltype2str : ColType → Bytes
  | .int => text "INT"
  | .float => text "FLOAT"
  | .string => text "STRING"

/-- The exceptions that the modelled code throws. -/
inductive Error where
  | internalError (msg : Bytes)
  | notImplementedError (component : Bytes)
  | fileNotOpenError (fd : ℤ)
  | fileNotClosedError (filename : Bytes)
  | fileExistsError (filename : Bytes)
  | fileNotFoundError (filename : Bytes)
  | invalidRecordSizeError (recordSize : ℤ)
  | invalidColLengthError (colLen : ℤ)
  | indexEntryNotFoundError
  | duplicateKeyError
  | tableNotFoundError (tabName : Bytes)
  | tableExistsError (tabName : Bytes)
  | columnNotFoundError (colName : Bytes)
  | columnExistsError (colName : Bytes)
  | indexNotFoundError (tabName : Bytes) (colNames : List Bytes)
  | invalidKnobError (name value : Bytes)
  | invalidValueCountError
  | stringOverflowError
  | incompatibleTypeError (lhs rhs : Bytes)
  | ambiguousColumnError (colName : Bytes)
  | outOfRange
  | jsonException
  | assertionFailed
  | undefinedBehaviour
  deriving DecidableEq, Repr

/-- `error_detail::format_index_name`: `table.(column, column)`. -/
def formatIndexName (tabName : Bytes) (colNames : List Bytes) : Bytes :=
  tabName ++ text ".(" ++ (colNames.intersperse (text ", ")).flatten ++ text ")"

/-- The message that a class of `errors.h` hands to the constructor of `RMDBError`, or `none` for
the constructors that are not such classes. -/
def Error.message : Error → Option Bytes
  | .internalError msg => some msg
  | .notImplementedError component => some (component ++ text " is not implemented")
  | .fileNotOpenError fd => some (text "Invalid file descriptor: " ++ text (toString fd))
  | .fileNotClosedError filename => some (text "File is opened: " ++ filename)
  | .fileExistsError filename => some (text "File already exists: " ++ filename)
  | .fileNotFoundError filename => some (text "File not found: " ++ filename)
  | .invalidRecordSizeError size => some (text "Invalid record size: " ++ text (toString size))
  | .invalidColLengthError len => some (text "Invalid column length: " ++ text (toString len))
  | .indexEntryNotFoundError => some (text "Index entry not found")
  | .duplicateKeyError => some (text "Duplicate key on unique index")
  | .tableNotFoundError tabName => some (text "Table not found: " ++ tabName)
  | .tableExistsError tabName => some (text "Table already exists: " ++ tabName)
  | .columnNotFoundError colName => some (text "Column not found: " ++ colName)
  | .columnExistsError colName => some (text "Column already exists: " ++ colName)
  | .indexNotFoundError tabName colNames =>
    some (text "Index not found: " ++ formatIndexName tabName colNames)
  | .invalidKnobError name value => some (text "Invalid setting: " ++ name ++ text " = " ++ value)
  | .invalidValueCountError => some (text "Invalid value count")
  | .stringOverflowError => some (text "String is too long")
  | .incompatibleTypeError lhs rhs =>
    some (text "Incompatible type error: lhs " ++ lhs ++ text ", rhs " ++ rhs)
  | .ambiguousColumnError colName => some (text "Ambiguous column: " ++ colName)
  | .outOfRange | .jsonException | .assertionFailed | .undefinedBehaviour => none

/-- `RMDBError::what`: the message behind the prefix that the base class adds. -/
def Error.what (e : Error) : Option Bytes := e.message.map (text "Error: " ++ ·)

end Rucbase
