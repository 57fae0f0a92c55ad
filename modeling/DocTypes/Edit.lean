import DocTypes.Text.Bytes

namespace DocTypes

structure Edit where
  offset : Nat
  len : Nat
  replacement : String
deriving DecidableEq, Repr

namespace Edit

def stop (edit : Edit) : Nat :=
  edit.offset + edit.len

/-- Whether an edit goes before another when working from the back: the later offset first, and of
two at one offset the longer. -/
def laterFirst (a b : Edit) : Bool :=
  b.offset < a.offset || (a.offset == b.offset && b.len ≤ a.len)

/-- Makes the edit if it ends before `limit`, lies within the text and splits no character. -/
def applyBefore (limit : Option Nat) (edit : Edit) (text : List Char) : Option (List Char) :=
  if limit.all (edit.stop ≤ ·) && edit.stop ≤ Text.byteSize text &&
      Text.isBoundary edit.offset text && Text.isBoundary edit.stop text then
    some (Text.splice edit.offset edit.len edit.replacement.toList text)
  else none

/-- Makes the edits one after the other, where each has to end before the last one made. -/
def applyFrom (limit : Option Nat) (text : List Char) : List Edit → List Char
  | [] => text
  | edit :: edits =>
    match edit.applyBefore limit text with
    | some changed => applyFrom (some edit.offset) changed edits
    | none => applyFrom limit text edits

/-- Makes all edits of a text, from the back, so that offsets stay valid. An edit that overlaps one
already made is left out. -/
def applyAll (text : List Char) (edits : List Edit) : List Char :=
  applyFrom none text (edits.mergeSort laterFirst)

end Edit

end DocTypes
