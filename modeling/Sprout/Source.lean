namespace Sprout

/-- A line and a column, both counted from one; columns count characters. Both are exact numbers
here. That they fit the 32 bits they are counted in is asked for along with the other partial
operations of a compilation. -/
structure Position where
  line : Nat
  column : Nat
deriving DecidableEq, Repr, Inhabited

namespace Position

/-- The position of the first character of a text. -/
def start : Position := ⟨1, 1⟩

/-- The position just past `c`, when `c` stands at `p`: a line feed opens the next line. -/
def next (p : Position) (c : Char) : Position :=
  if c = '\n' then ⟨p.line + 1, 1⟩ else ⟨p.line, p.column + 1⟩

/-- The position just past `text`, when `text` starts at `p`. -/
def after (p : Position) (text : List Char) : Position :=
  text.foldl next p

/-- The written form `line:column`. -/
def render (p : Position) : String :=
  toString p.line ++ ":" ++ toString p.column

@[simp] theorem after_nil (p : Position) : p.after [] = p := rfl

@[simp] theorem after_cons (p : Position) (c : Char) (text : List Char) :
    p.after (c :: text) = (p.next c).after text := rfl

/-- Reading a text in two parts reaches the same position as reading it at once. -/
theorem after_append (p : Position) (front back : List Char) :
    p.after (front ++ back) = (p.after front).after back :=
  List.foldl_append

end Position

/-- The text that repeats `c`, `count` times. -/
def repeated (c : Char) (count : Nat) : String :=
  String.ofList (List.replicate count c)

/-- The parts of a text between the occurrences of `separator`. A text without one is a single
part. -/
def splitAt (separator : Char) : List Char → List (List Char)
  | [] => [[]]
  | c :: text =>
    if c = separator then [] :: splitAt separator text
    else
      match splitAt separator text with
      | [] => [[c]]
      | part :: others => (c :: part) :: others

/-- The lines of a text. -/
def lines (text : List Char) : List (List Char) :=
  splitAt '\n' text

/-- A line without the carriage return that may end it. -/
def dropReturn (line : List Char) : List Char :=
  if line.getLast? = some '\r' then line.dropLast else line

/-- A text and the name it is reported under. -/
structure Source where
  name : String
  text : String
deriving DecidableEq, Repr, Inhabited

namespace Source

/-- The characters of line `number`, counted from one, without its terminator. -/
def line? (source : Source) (number : Nat) : Option (List Char) :=
  if number = 0 then none else (lines source.text.toList)[number - 1]?.map dropReturn

/-- How many carets mark `width` columns from `column` on in a line of `length` characters: at least
one, and otherwise none past the end of the line. -/
def caretCount (length column width : Nat) : Nat :=
  max 1 (min width (length - (column - 1)))

/-- The line of `position` above a run of carets under `width` columns; nothing if the text has no
such line. -/
def highlight (source : Source) (position : Position) (width : Nat) : String :=
  match source.line? position.line with
  | none => ""
  | some line =>
    let gutter := toString position.line
    gutter ++ " | " ++ String.ofList line ++ "\n"
      ++ repeated ' ' gutter.length ++ " | " ++ repeated ' ' (position.column - 1)
      ++ repeated '^' (caretCount line.length position.column width)

/-- The form `name:line:column` that heads a message. -/
def describe (source : Source) (position : Position) : String :=
  source.name ++ ":" ++ position.render

end Source

/-- A cause together with the columns of the text that show it. -/
structure Defect (κ : Type) where
  cause : κ
  position : Position
  width : Nat
deriving DecidableEq, Repr

/-- A cause together with the place it is blamed on, where that is known. -/
structure Located (κ : Type) where
  cause : κ
  position : Option Position
deriving Repr

namespace Located

/-- A cause blamed on no place yet. -/
def unplaced {κ : Type} (cause : κ) : Located κ := ⟨cause, none⟩

/-- A cause blamed on `position`. -/
def placed {κ : Type} (cause : κ) (position : Position) : Located κ := ⟨cause, some position⟩

/-- Blames `position` unless a place is known already. -/
def orAt {κ : Type} (blame : Located κ) (position : Position) : Located κ :=
  { blame with position := some (blame.position.getD position) }

@[simp] theorem orAt_placed {κ : Type} (cause : κ) (known position : Position) :
    (placed cause known).orAt position = placed cause known := rfl

@[simp] theorem orAt_unplaced {κ : Type} (cause : κ) (position : Position) :
    (unplaced cause).orAt position = placed cause position := rfl

end Located

end Sprout
