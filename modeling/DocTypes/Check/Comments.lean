import DocTypes.DocComment.Basic
import DocTypes.Php.Lexeme

namespace DocTypes.Check

open DocTypes.Php (Comment)

/-- The doc comment found by going back from byte `boundary` over comments, the last one first. -/
def attachedBack (source : List Char) (boundary : Nat) : List Comment → Option Comment
  | [] => none
  | comment :: earlier =>
    if boundary < comment.span.stop then none
    else if !(Text.slice comment.span.stop boundary source).all Text.isBlank then none
    else if comment.isDoc then some comment
    else attachedBack source comment.span.start earlier

/-- The doc comment of what starts at byte `start`. -/
def attached? (source : List Char) (comments : List Comment) (start : Nat) : Option Comment :=
  attachedBack source start (comments.takeWhile (·.span.start < start)).reverse

/-- The tags of a comment. -/
def docComment (comment : Comment) : DocComment :=
  DocComment.parse comment.text comment.span.start

end DocTypes.Check
