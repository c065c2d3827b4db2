/-!
# Cursors

A place in a text: the characters already passed, nearest first, and the characters ahead. Reading
moves characters from one side to the other and never changes the text as a whole
(`source_passOver`), so a position always means the number of characters passed.
-/

namespace ResourceQuery

structure Cursor where
  passed : List Char
  ahead : List Char
  deriving DecidableEq, Repr

namespace Cursor

def start (text : List Char) : Cursor :=
  ⟨[], text⟩

/-- The whole text, on both sides of the cursor. -/
def source (cursor : Cursor) : List Char :=
  cursor.passed.reverse ++ cursor.ahead

def position (cursor : Cursor) : Nat :=
  cursor.passed.length

def atEnd (cursor : Cursor) : Bool :=
  cursor.ahead.isEmpty

def peek (cursor : Cursor) : Option Char :=
  cursor.ahead.head?

/-- The character `offset` places further on than the next one. -/
def peekAt (cursor : Cursor) (offset : Nat) : Option Char :=
  cursor.ahead[offset]?

/-- The character just passed. -/
def previous (cursor : Cursor) : Option Char :=
  cursor.passed.head?

/-- Moves past the next `count` characters, or as many as there are. -/
def passOver (cursor : Cursor) (count : Nat) : Cursor :=
  ⟨(cursor.ahead.take count).reverse ++ cursor.passed, cursor.ahead.drop count⟩

def read (cursor : Cursor) : Option Char × Cursor :=
  (cursor.peek, cursor.passOver 1)

/-- Reads the next character if there is one of the class. -/
def readIf (inClass : Char → Bool) (cursor : Cursor) : Option Char × Cursor :=
  if cursor.peek.any inClass then cursor.read else (none, cursor)

def readWhile (inClass : Char → Bool) (cursor : Cursor) : List Char × Cursor :=
  let run := cursor.ahead.takeWhile inClass
  (run, cursor.passOver run.length)

/-- Reads characters of the class, but at most `limit`. -/
def readAtMost (limit : Nat) (inClass : Char → Bool) (cursor : Cursor) : List Char × Cursor :=
  let run := (cursor.ahead.take limit).takeWhile inClass
  (run, cursor.passOver run.length)

/-- How many characters of the class come next. -/
def countAhead (inClass : Char → Bool) (cursor : Cursor) : Nat :=
  (cursor.ahead.takeWhile inClass).length

/-- The cursor at another position of its text; a position beyond the end is the end. -/
def moveTo (position : Nat) (cursor : Cursor) : Cursor :=
  (start cursor.source).passOver position

/-- The text between an earlier position and the cursor. -/
def textFrom (position : Nat) (cursor : Cursor) : List Char :=
  (cursor.passed.take (cursor.position - position)).reverse

@[simp]
theorem source_start (text : List Char) : (start text).source = text := by
  simp [start, source]

@[simp]
theorem source_passOver (cursor : Cursor) (count : Nat) :
    (cursor.passOver count).source = cursor.source := by
  simp [passOver, source]

@[simp]
theorem source_moveTo (position : Nat) (cursor : Cursor) :
    (cursor.moveTo position).source = cursor.source := by
  simp [moveTo]

end Cursor

end ResourceQuery
