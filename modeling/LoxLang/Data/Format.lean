import LoxLang.Data.Json
import LoxLang.Data.Yaml

/-!
# Text formats

The formats that plain data can be written in, by name. A format is named in letters of either case.
-/

namespace LoxLang.Data

inductive Format
  | json
  | yaml
deriving DecidableEq

def Format.ofName? (name : String) : Option Format :=
  match String.ofList (name.toList.map Char.toLower) with
  | "json" => some .json
  | "yaml" => some .yaml
  | _ => none

/-- What is said of a format that there is none of. -/
def Format.unsupported (name : Option String) : String :=
  "Unsupported serialization format: " ++ match name with
    | some s => Text.quoted s
    | none => "None"

/-- Data in a format; only JSON text can be written on one line. -/
def write (format : Format) (pretty : Bool) (d : Data) : String :=
  match format with
  | .json => Json.render pretty d
  | .yaml => Yaml.render d

end LoxLang.Data
