import ShotSim.Report

/-!
# Results as JSON text

Two renderings of one tree: on a single line, and indented by two spaces.
-/

namespace ShotSim

/-- A JSON value. Numbers are already text. -/
inductive Document
  | number (text : String)
  | bool (value : Bool)
  | string (text : String)
  | list (items : List Document)
  | object (fields : List (String × Document))

namespace Document

def hex4 (n : Nat) : List Char :=
  [n / 4096 % 16, n / 256 % 16, n / 16 % 16, n % 16].map Nat.digitChar

def escape (c : Char) : List Char :=
  match c with
  | '"' => ['\\', '"']
  | '\\' => ['\\', '\\']
  | '\n' => ['\\', 'n']
  | '\r' => ['\\', 'r']
  | '\t' => ['\\', 't']
  | c =>
    if c.toNat = 8 then ['\\', 'b']
    else if c.toNat = 12 then ['\\', 'f']
    else if c.toNat < 32 then '\\' :: 'u' :: hex4 c.toNat
    else [c]

def quote (text : String) : String :=
  "\"" ++ String.ofList (text.toList.flatMap escape) ++ "\""

mutual

def compact : Document → String
  | number text => text
  | bool value => if value then "true" else "false"
  | string text => quote text
  | list items => "[" ++ String.intercalate "," (compactItems items) ++ "]"
  | object fields => "\x7b" ++ String.intercalate "," (compactFields fields) ++ "\x7d"

def compactItems : List Document → List String
  | [] => []
  | item :: rest => compact item :: compactItems rest

def compactFields : List (String × Document) → List String
  | [] => []
  | (key, value) :: rest => (quote key ++ ":" ++ compact value) :: compactFields rest

end

def newline (depth : Nat) : String := "\n" ++ String.ofList (List.replicate (2 * depth) ' ')

/-- Rendered entries between brackets, one per line; empty brackets without entries. -/
def block (opening closing : String) (depth : Nat) (entries : List String) : String :=
  if entries.isEmpty then opening ++ closing
  else
    opening ++ newline (depth + 1) ++ String.intercalate ("," ++ newline (depth + 1)) entries ++
      newline depth ++ closing

mutual

def prettyAt (depth : Nat) : Document → String
  | number text => text
  | bool value => if value then "true" else "false"
  | string text => quote text
  | list items => block "[" "]" depth (prettyItems (depth + 1) items)
  | object fields => block "\x7b" "\x7d" depth (prettyFields (depth + 1) fields)

def prettyItems (depth : Nat) : List Document → List String
  | [] => []
  | item :: rest => prettyAt depth item :: prettyItems depth rest

def prettyFields (depth : Nat) : List (String × Document) → List String
  | [] => []
  | (key, value) :: rest => (quote key ++ ": " ++ prettyAt depth value) :: prettyFields depth rest

end

def pretty (d : Document) : String := prettyAt 0 d

def nat (n : Nat) : Document := number (toString n)

def single (x : Float32) : Document := number (Decimal.dataText x)

end Document

namespace ShotStatus

def document (s : ShotStatus) : Document :=
  .object (("status", .string s.name) ::
    match s with
    | ok => []
    | unsupportedOperation op opcode => [("op_idx", .nat op), ("opcode", .nat opcode.toNat)]
    | invalidQubit op => [("op_idx", .nat op)])

end ShotStatus

namespace RunResults

def recordDocument (r : Record Float32) : Document :=
  .object [("entry_idx", .nat r.index), ("probability", .single r.probability)]

def shotDocument (s : ShotResult Float32) : Document :=
  .object
    [("shot_id", .nat s.id.toNat),
     ("status", s.status.document),
     ("records", .list (s.records.map recordDocument)),
     ("dropped_records", .nat s.dropped),
     ("measurements", .list (s.measurements.map fun o => .nat o.toNat)),
     ("elapsed", .single s.elapsed),
     ("qubit_heat", .list (s.heat.map .single))]

/-- The results without the amplitudes. -/
def document (r : RunResults Float32) : Document :=
  .object
    [("shots", .list (r.shots.map shotDocument)),
     ("success", .bool r.success),
     ("device", .string r.device)]

end RunResults

end ShotSim
