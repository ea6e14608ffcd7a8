/-
  ByteMachine.Text.Outline — nested values laid out over many lines.

  Every value inside another stands on lines of its own, four columns further in, and is followed
  by a comma.  An empty list alone stays on its line.
-/

namespace ByteMachine.Text

/-- A value to be laid out. -/
inductive Outline where
  | word (text : String)
  | tagged (tag : String) (content : Outline)
  | list (items : List Outline)

namespace Outline

/-- The lines of a value that stands inside another. -/
def inside : List String → List String
  | [] => []
  | [line] => ["    " ++ line ++ ","]
  | line :: rest => ("    " ++ line) :: inside rest

mutual

/-- The lines of a value. -/
def lines : Outline → List String
  | .word text => [text]
  | .tagged tag content => (tag ++ "(") :: inside content.lines ++ [")"]
  | .list [] => ["[]"]
  | .list (item :: items) => "[" :: inside item.lines ++ itemLines items ++ ["]"]

/-- The lines of the items of a list. -/
def itemLines : List Outline → List String
  | [] => []
  | item :: items => inside item.lines ++ itemLines items

end

/-- The value as text, without a line end behind its last line. -/
def text (o : Outline) : String := "\n".intercalate o.lines

end Outline

end ByteMachine.Text
