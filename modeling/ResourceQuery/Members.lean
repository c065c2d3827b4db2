import ResourceQuery.Query.Search
import ResourceQuery.QueryError
import ResourceQuery.Text.Blank

/-!
# Members

The member paths of a resource that queries may use. A declared path admits every path it begins
with, so a query may name a member on the way to a declared one but nothing beyond it.
-/

namespace ResourceQuery

structure Members where
  paths : List Property

namespace Members

def isIdentifierStart (c : Char) : Bool :=
  Text.isLetter c || c == '_'

/-- An ASCII identifier: a letter or `_`, and then letters, digits and `_`. -/
def isIdentifier : List Char → Bool
  | [] => false
  | c :: rest => isIdentifierStart c && rest.all fun d ↦ isIdentifierStart d || Text.isDigit d

/-- Identifiers with single dots between them. -/
def isMemberPath (text : List Char) : Bool :=
  (text.splitOn '.').all isIdentifier

def ofPath (path : String) : Except Conflict Property :=
  let text := Text.trim path.toList
  if isMemberPath text then return Property.ofPath (String.ofList text)
  else throw (.malformedMember (String.ofList text))

/-- The set of the declared paths; the first malformed one is refused. -/
def ofPaths (paths : List String) : Except Conflict Members :=
  Members.mk <$> paths.mapM ofPath

def size (members : Members) : Nat :=
  members.paths.length

def isEmpty (members : Members) : Bool :=
  members.paths.isEmpty

def admits (members : Members) (path : Property) : Bool :=
  members.paths.any (·.startsWith false path)

/-- The first property of a query that is not admitted. -/
def unknown? (members : Members) (query : Query) : Option Property :=
  query.allProperties.find? (!members.admits ·)

def check (members : Members) (query : Query) : Except Conflict Unit :=
  match members.unknown? query with
  | some property => throw (.unknownMember property)
  | none => return ()

end Members

end ResourceQuery
