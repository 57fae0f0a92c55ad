namespace DocTypes.Toml

inductive Value where
  | bool (value : Bool)
  | text (value : String)
  | texts (values : List String)
deriving DecidableEq, Repr

/-- Reading of characters that may fail. -/
abbrev Parse := StateT (List Char) Option

def peek : Parse (Option Char) := do
  return (← get).head?

def eat (start : List Char) : Parse Bool := do
  let cs ← get
  if start.isPrefixOf cs then
    set (cs.drop start.length)
    return true
  else return false

def expect (start : List Char) : Parse Unit := do
  guard (← eat start)

/-- The longest stretch of characters that satisfy `p`. -/
def takeWhile (p : Char → Bool) : Parse (List Char) := do
  let cs ← get
  set (cs.dropWhile p)
  return cs.takeWhile p

def isControl (c : Char) : Bool :=
  (c.toNat < 0x20 && c != '\t') || c.toNat == 0x7f

def blanks : Parse Unit := do
  discard (takeWhile fun c => c == ' ' || c == '\t')

def newline : Parse Bool := do
  if ← eat ['\n'] then return true else eat ['\r', '\n']

/-- A comment up to the end of its line, if one starts here. -/
def comment : Parse Unit := do
  if ← eat ['#'] then
    let text ← takeWhile fun c => c != '\n' && c != '\r'
    guard (!text.any isControl)

/-- Blanks, comments and line ends, as many as there are. -/
def linesWithin : Nat → Parse Unit
  | 0 => return
  | n + 1 => do
    blanks
    comment
    if ← newline then linesWithin n

def lines : Parse Unit := do
  linesWithin ((← get).length + 1)

def hexValue? (c : Char) : Option Nat :=
  if c.isDigit then some (c.toNat - 48)
  else if 'a' ≤ c && c ≤ 'f' then some (c.toNat - 87)
  else if 'A' ≤ c && c ≤ 'F' then some (c.toNat - 55)
  else none

/-- The character with a code of so many hexadecimal digits. -/
def codedChar (digits : Nat) : Parse Char := do
  let cs ← get
  let code := cs.take digits
  guard (code.length = digits)
  let values ← code.mapM fun c => (hexValue? c : Option Nat)
  let n := values.foldl (fun n digit => 16 * n + digit) 0
  guard (n < 0xd800 || (0xe000 ≤ n && n < 0x110000))
  set (cs.drop digits)
  return Char.ofNat n

/-- What a backslash stands for, with the characters after it. -/
def escape : Parse Char := do
  match ← get with
  | [] => failure
  | c :: cs =>
    set cs
    match c with
    | 'b' => return '\x08'
    | 't' => return '\t'
    | 'n' => return '\n'
    | 'f' => return '\x0c'
    | 'r' => return '\r'
    | 'e' => return '\x1b'
    | '"' => return '"'
    | '\\' => return '\\'
    | 'x' => codedChar 2
    | 'u' => codedChar 4
    | 'U' => codedChar 8
    | _ => failure

/-- The rest of a string in double quotes. -/
def basicWithin : Nat → Parse (List Char)
  | 0 => failure
  | n + 1 => do
    if ← eat ['"'] then return []
    else if ← eat ['\\'] then
      let c ← escape
      return c :: (← basicWithin n)
    else
      match ← get with
      | [] => failure
      | c :: cs =>
        guard (!isControl c)
        set cs
        return c :: (← basicWithin n)

/-- The rest of a string in single quotes, which is taken as it stands. -/
def literal : Parse (List Char) := do
  let text ← takeWhile fun c => c != '\'' && !isControl c
  expect ['\'']
  return text

/-- The quotes that end a string of several lines; up to two more of them belong to it. -/
def closing? (quote : Char) : Parse (Option (List Char)) := do
  let cs ← get
  let quotes := cs.takeWhile (· == quote)
  if 3 ≤ quotes.length && quotes.length ≤ 5 then
    set (cs.drop quotes.length)
    return some (quotes.drop 3)
  else return none

/-- A backslash at the end of a line takes all blanks and line ends after it along. -/
def continuation : Parse Bool := do
  let cs ← get
  let rest := cs.dropWhile fun c => c == ' ' || c == '\t'
  if ['\n'].isPrefixOf rest || ['\r', '\n'].isPrefixOf rest then
    set (rest.dropWhile fun c => c == ' ' || c == '\t' || c == '\n' || c == '\r')
    return true
  else return false

/-- The rest of a string of several lines. -/
def multilineWithin (quote : Char) (escapes : Bool) : Nat → Parse (List Char)
  | 0 => failure
  | n + 1 => do
    match ← closing? quote with
    | some more => return more
    | none =>
      if ← newline then return '\n' :: (← multilineWithin quote escapes n)
      else if (← peek) = some '\\' && escapes then
        expect ['\\']
        if ← continuation then multilineWithin quote escapes n
        else
          let c ← escape
          return c :: (← multilineWithin quote escapes n)
      else
        match ← get with
        | [] => failure
        | c :: cs =>
          guard (!isControl c)
          set cs
          return c :: (← multilineWithin quote escapes n)

def multiline (quote : Char) (escapes : Bool) : Parse (List Char) := do
  discard newline
  multilineWithin quote escapes ((← get).length + 1)

/-- A string on one line, if a quote stands here. -/
def oneLine? : Parse (Option String) := do
  if ← eat ['"'] then return some (String.ofList (← basicWithin ((← get).length + 1)))
  else if ← eat ['\''] then return some (String.ofList (← literal))
  else return none

def string? : Parse (Option String) := do
  if ← eat ['"', '"', '"'] then return some (String.ofList (← multiline '"' true))
  else if ← eat ['\'', '\'', '\''] then return some (String.ofList (← multiline '\'' false))
  else oneLine?

/-- The rest of an array of strings. -/
def itemsWithin : Nat → Parse (List String)
  | 0 => failure
  | n + 1 => do
    lines
    if ← eat [']'] then return []
    let some item ← string? | failure
    lines
    if ← eat [','] then return item :: (← itemsWithin n)
    else
      expect [']']
      return [item]

def value : Parse Value := do
  match ← string? with
  | some text => return .text text
  | none =>
    if ← eat ['['] then return .texts (← itemsWithin ((← get).length + 1))
    else
      match String.ofList (← takeWhile Char.isAlpha) with
      | "true" => return .bool true
      | "false" => return .bool false
      | _ => failure

def key : Parse String := do
  match ← oneLine? with
  | some text => return text
  | none =>
    let text ← takeWhile fun c => c.isAlphanum || c == '_' || c == '-'
    guard (!text.isEmpty)
    return String.ofList text

/-- One setting and the end of its line. -/
def setting : Parse (String × Value) := do
  let name ← key
  blanks
  expect ['=']
  blanks
  let given ← value
  blanks
  comment
  guard ((← get).isEmpty || (← newline))
  return (name, given)

def settingsWithin : Nat → Parse (List (String × Value))
  | 0 => failure
  | n + 1 => do
    lines
    if (← get).isEmpty then return []
    let first ← setting
    let more ← settingsWithin n
    guard (more.all (·.1 != first.1))
    return first :: more

/-- The settings in a file; `none` if it is not well formed, or if it holds anything else. -/
def parse? (text : String) : Option (List (String × Value)) :=
  let cs := match text.toList with
    | c :: rest => if c.toNat = 0xfeff then rest else c :: rest
    | [] => []
  (settingsWithin (cs.length + 1) cs).map (·.1)

end DocTypes.Toml
