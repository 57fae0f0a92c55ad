namespace DocTypes

inductive Json where
  | number (n : Nat)
  | text (s : String)
  | array (items : List Json)
  | object (fields : List (String × Json))

namespace Json

def hexDigit (n : Nat) : Char :=
  if n < 10 then Char.ofNat (48 + n) else Char.ofNat (87 + n)

def escapeChar (c : Char) : List Char :=
  if c = '"' then ['\\', '"']
  else if c = '\\' then ['\\', '\\']
  else if c = '\n' then ['\\', 'n']
  else if c = '\r' then ['\\', 'r']
  else if c = '\t' then ['\\', 't']
  else if c = '\x08' then ['\\', 'b']
  else if c = '\x0c' then ['\\', 'f']
  else if c.toNat < 32 then
    ['\\', 'u', '0', '0', hexDigit (c.toNat / 16), hexDigit (c.toNat % 16)]
  else [c]

def quote (s : String) : String :=
  "\"" ++ String.ofList (s.toList.flatMap escapeChar) ++ "\""

def indent (level : Nat) : String :=
  String.ofList (List.replicate (2 * level) ' ')

/-- Items between brackets, each on a line of its own. -/
def block (level : Nat) (left right : String) (items : List String) : String :=
  match items with
  | [] => left ++ right
  | _ =>
    let lines := items.map fun item => indent (level + 1) ++ item
    left ++ "\n" ++ String.intercalate ",\n" lines ++ "\n" ++ indent level ++ right

mutual

/-- The text of a value that starts inside `level` brackets. -/
def pretty (level : Nat) : Json → String
  | number n => toString n
  | text s => quote s
  | array items => block level "[" "]" (prettyItems (level + 1) items)
  | object fields => block level "\x7b" "\x7d" (prettyFields (level + 1) fields)

def prettyItems (level : Nat) : List Json → List String
  | [] => []
  | item :: items => pretty level item :: prettyItems level items

def prettyFields (level : Nat) : List (String × Json) → List String
  | [] => []
  | (name, value) :: fields =>
    (quote name ++ ": " ++ pretty level value) :: prettyFields level fields

end

end Json

end DocTypes
