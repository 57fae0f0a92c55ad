namespace DocTypes.Glob

/-- One item of a pattern. -/
inductive Item where
  | byte (b : UInt8)
  /-- Any byte within a component. -/
  | one
  /-- Any bytes within a component. -/
  | many
  /-- A byte in one of the ranges, or in none of them. -/
  | oneOf (negated : Bool) (ranges : List (UInt8 × UInt8))
  /-- Any directories in front. -/
  | anyDirs
  /-- Anything inside a directory. -/
  | below
  /-- A slash, or any directories between two slashes. -/
  | between
deriving DecidableEq, Repr

abbrev Pattern := List Item

/-- What has been read of a pattern: what the current branch may be, and for every open group what
stood before it and its finished branches. -/
structure Progress where
  current : List Pattern
  groups : List (List Pattern × List (List Pattern))

namespace Progress

def start : Progress :=
  ⟨[[]], []⟩

def push (progress : Progress) (items : List Item) : Progress :=
  { progress with current := progress.current.map (· ++ items) }

/-- The item read last in the current branch. -/
def last? (progress : Progress) : Option Item :=
  progress.current.head?.bind List.getLast?

/-- The progress with the last item exchanged. -/
def replaceLast (progress : Progress) (item : Item) : Progress :=
  { progress with current := progress.current.map fun items => items.dropLast ++ [item] }

def openGroup (progress : Progress) : Progress :=
  ⟨[[]], (progress.current, []) :: progress.groups⟩

def nextBranch (progress : Progress) : Progress :=
  match progress.groups with
  | [] => progress
  | (before, branches) :: outer => ⟨[[]], (before, branches ++ [progress.current]) :: outer⟩

/-- Ends a group; branches with nothing in them do not count. -/
def closeGroup? (progress : Progress) : Option Progress :=
  match progress.groups with
  | [] => none
  | (before, branches) :: outer =>
    let choices := (branches ++ [progress.current]).flatten.filter (!·.isEmpty)
    if choices.isEmpty then some ⟨before, outer⟩
    else some ⟨before.flatMap fun start => choices.map (start ++ ·), outer⟩

end Progress

def bytes (s : String) : List UInt8 :=
  s.toUTF8.data.toList

def charBytes (c : Char) : List UInt8 :=
  bytes (String.ofList [c])

def slash : UInt8 := 47

/-- A character that stands for itself. -/
def literal (c : Char) : List Item :=
  (charBytes c).map .byte

/-- The byte ranges of a range of characters. Of a longer character the byte next to the dash
bounds the range, and the others count singly. -/
def byteRanges (low high : Char) : List (UInt8 × UInt8) :=
  let single (b : UInt8) := (b, b)
  let lows := charBytes low
  let highs := charBytes high
  if low = high then lows.map single
  else lows.dropLast.map single ++ lows.getLast?.toList.zip highs ++ highs.tail.map single

/-- The rest of a character class: its ranges and what follows it. `pending` tells whether a `-`
waits for the end of its range. -/
def classRanges (first pending : Bool) (ranges : List (Char × Char)) :
    List Char → Option (List (Char × Char) × List Char)
  | [] => none
  | c :: cs =>
    if c = ']' && !first then
      some (if pending then ranges ++ [('-', '-')] else ranges, cs)
    else if c = '-' && !first && !pending then classRanges false true ranges cs
    else if pending then
      match ranges.getLast? with
      | some (low, _) =>
        if low ≤ c then classRanges false false (ranges.dropLast ++ [(low, c)]) cs else none
      | none => none
    else classRanges false false (ranges ++ [(c, c)]) cs

/-- A character class, from after its bracket on. -/
def charClass (cs : List Char) : Option (Item × List Char) :=
  let negated := cs.head? == some '!' || cs.head? == some '^'
  match classRanges true false [] (if negated then cs.drop 1 else cs) with
  | none => none
  | some (ranges, rest) => some (.oneOf negated (ranges.flatMap fun (a, b) => byteRanges a b), rest)

/-- What two stars are, by what stands before and after them, and what of the rest they take. -/
def stars (progress : Progress) (previous : Option Char) (cs : List Char) : Progress × List Char :=
  let plain := (progress.push [.many, .many], cs)
  let atSlash := cs.head? == some '/'
  if progress.last?.isNone then
    if cs.isEmpty || atSlash then (progress.push [.anyDirs], cs.drop 1) else plain
  else if previous != some '/' then plain
  else
    let atGroupEnd := !progress.groups.isEmpty && (cs.head? == some ',' || cs.head? == some '\x7d')
    let exchange (item : Item) :=
      match progress.last? with
      | some .anyDirs => progress
      | some .below => progress
      | _ => progress.replaceLast item
    if cs.isEmpty || atGroupEnd then (exchange .below, cs)
    else if atSlash then (exchange .between, cs.drop 1)
    else plain

/-- Reads the rest of a pattern. -/
def readWithin : Nat → Progress → Option Char → List Char → Option Progress
  | 0, _, _, _ => none
  | _ + 1, progress, _, [] => if progress.groups.isEmpty then some progress else none
  | n + 1, progress, previous, c :: cs =>
    match c with
    | '?' => readWithin n (progress.push [.one]) (some c) cs
    | '*' =>
      match cs with
      | '*' :: rest =>
        let (progress, after) := stars progress previous rest
        readWithin n progress (if after.length < rest.length then some '/' else some '*') after
      | _ => readWithin n (progress.push [.many]) (some c) cs
    | '[' =>
      match charClass cs with
      | some (item, rest) => readWithin n (progress.push [item]) (some ']') rest
      | none => none
    | '\x7b' => readWithin n progress.openGroup (some c) cs
    | '\x7d' =>
      match progress.closeGroup? with
      | some progress => readWithin n progress (some c) cs
      | none => none
    | ',' =>
      if progress.groups.isEmpty then readWithin n (progress.push (literal c)) (some c) cs
      else readWithin n progress.nextBranch (some c) cs
    | '\\' =>
      match cs with
      | [] => none
      | next :: rest => readWithin n (progress.push (literal next)) (some next) rest
    | _ => readWithin n (progress.push (literal c)) (some c) cs

/-- The patterns that a text stands for; `none` if it is malformed. -/
def parse? (text : String) : Option (List Pattern) :=
  let cs := text.toList
  (readWithin (cs.length + 1) .start none cs).map Progress.current

/-- One step of matching. -/
inductive Step where
  | byte (b : UInt8)
  | one
  | many
  | oneOf (negated : Bool) (ranges : List (UInt8 × UInt8))
  /-- Any bytes up to and with a slash. -/
  | throughSlash
  /-- Any bytes. -/
  | anything
deriving DecidableEq, Repr

/-- The ways to match an item. -/
def Item.ways : Item → List (List Step)
  | .byte b => [[.byte b]]
  | .one => [[.one]]
  | .many => [[.many]]
  | .oneOf negated ranges => [[.oneOf negated ranges]]
  | .anyDirs => [[], [.throughSlash]]
  | .below => [[.byte slash, .anything]]
  | .between => [[.byte slash], [.byte slash, .throughSlash]]

/-- The ways to match a pattern, item after item. -/
def ways : Pattern → List (List Step)
  | [] => [[]]
  | item :: items => item.ways.flatMap fun start => (ways items).map (start ++ ·)

/-- Whether steps match a text as a whole. -/
def matchSteps : List Step → List UInt8 → Bool
  | [], input => input.isEmpty
  | .byte b :: steps, input =>
    match input with
    | [] => false
    | c :: rest => c == b && matchSteps steps rest
  | .one :: steps, input =>
    match input with
    | [] => false
    | c :: rest => c != slash && matchSteps steps rest
  | .oneOf negated ranges :: steps, input =>
    match input with
    | [] => false
    | c :: rest =>
      (ranges.any fun (low, high) => low ≤ c && c ≤ high) != negated && matchSteps steps rest
  | .many :: steps, input =>
    matchSteps steps input ||
      match input with
      | [] => false
      | c :: rest => c != slash && matchSteps (.many :: steps) rest
  | .throughSlash :: steps, input =>
    match input with
    | [] => false
    | c :: rest => (c == slash && matchSteps steps rest) || matchSteps (.throughSlash :: steps) rest
  | .anything :: steps, input =>
    matchSteps steps input ||
      match input with
      | [] => false
      | _ :: rest => matchSteps (.anything :: steps) rest
termination_by steps input => steps.length + input.length

/-- Whether one of the patterns of a text matches a path as a whole; two stars alone match
everything. -/
def matchesAny (patterns : List Pattern) (path : String) : Bool :=
  patterns == [[.anyDirs]] ||
    patterns.any fun pattern => (ways pattern).any (matchSteps · (bytes path))

end DocTypes.Glob
