import DocTypes.Text.Bytes
import DocTypes.Text.Blank

namespace DocTypes

/-- One token: its text, its bytes, and whether a blank stands right before it. -/
structure Token where
  text : String
  start : Nat
  stop : Nat
  spaced : Bool
deriving DecidableEq, Repr

/-- Where the tokens end: at the end of the text, or at the quote of an unclosed string. -/
structure Ending where
  start : Nat
  stop : Nat
  spaced : Bool
deriving DecidableEq, Repr

/-- The tokens of a text, and where they end. -/
structure TokenStream where
  tokens : List Token
  ending : Ending
deriving DecidableEq, Repr

namespace Token

def isWordStart (c : Char) : Bool :=
  c.isAlpha || c == '_' || c == '$' || c == '\\'

/-- A variable holds letters, digits and `_`; any other word also `-` and a backslash. -/
def continuesWord (first c : Char) : Bool :=
  c.isAlphanum || c == '_' || (first != '$' && (c == '-' || c == '\\'))

/-- How many characters go on a number: digits, `_` and at most one point. -/
def numberTail (point : Bool) : List Char → Nat
  | [] => 0
  | c :: cs =>
    if c.isDigit || c == '_' then numberTail point cs + 1
    else if c == '.' && !point then numberTail true cs + 1
    else 0

/-- How many characters complete a string opened by `quote`; a backslash takes the next character
with it. -/
def quotedTail (quote : Char) : List Char → Option Nat
  | [] => none
  | c :: cs =>
    if c = quote then some 1
    else if c = '\\' then
      match cs with
      | [] => none
      | _ :: rest => (quotedTail quote rest).map (· + 2)
    else (quotedTail quote cs).map (· + 1)

/-- How many characters after the first belong to its token; `none` for an unclosed string. -/
def tailLength (first : Char) (cs : List Char) : Option Nat :=
  if isWordStart first then some (cs.takeWhile (continuesWord first)).length
  else if first.isDigit || (first == '-' && cs.head?.any Char.isDigit) then
    some (numberTail false cs)
  else if first == '"' || first == '\'' then quotedTail first cs
  else if first == '.' && ['.', '.'].isPrefixOf cs then some 2
  else if first == ':' && [':'].isPrefixOf cs then some 1
  else some 0

/-- The tokens of the characters found at byte `offset`. -/
def scanFrom (offset : Nat) (spaced : Bool) : List Char → TokenStream
  | [] => ⟨[], ⟨offset, offset, spaced⟩⟩
  | c :: cs =>
    if Text.isTypeSpace c then scanFrom (offset + 1) true cs
    else
      match tailLength c cs with
      | none => ⟨[], ⟨offset, offset + Text.byteSize (c :: cs), spaced⟩⟩
      | some n =>
        let text := c :: cs.take n
        let stop := offset + Text.byteSize text
        let rest := scanFrom stop false (cs.drop n)
        ⟨⟨String.ofList text, offset, stop, spaced⟩ :: rest.tokens, rest.ending⟩
termination_by cs => cs.length
decreasing_by
  all_goals simp only [List.length_cons, List.length_drop]
  all_goals omega

/-- The tokens of a whole text. -/
def scan (text : List Char) : TokenStream :=
  scanFrom 0 false text

/-- Whether a token starts as a number does, after at most one minus sign. -/
def startsWithDigit (text : String) : Bool :=
  match text.toList with
  | '-' :: c :: _ => c.isDigit
  | c :: _ => c.isDigit
  | [] => false

/-- An integer literal: `12`, `-3`, `1_000`. -/
def isIntLiteral (text : String) : Bool :=
  startsWithDigit text && !text.toList.contains '.'

/-- A decimal literal: `1.5`, `-0.25`. -/
def isFloatLiteral (text : String) : Bool :=
  startsWithDigit text && text.toList.contains '.'

/-- A quoted string. -/
def isStringLiteral (text : String) : Bool :=
  text.toList.head?.any fun c => c == '"' || c == '\''

/-- Whether a token names a variable. -/
def isVariable (text : String) : Bool :=
  text.toList.head? == some '$'

/-- Whether a token starts with a letter or `_`. -/
def startsName (text : String) : Bool :=
  text.toList.head?.any fun c => c.isAlpha || c == '_'

/-- A bare word that can be the key of a shape. -/
def isShapeWord (text : String) : Bool :=
  startsName text && text.toList.all fun c => c.isAlphanum || c == '_'

end Token

end DocTypes
