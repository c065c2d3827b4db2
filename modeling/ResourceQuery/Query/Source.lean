import ResourceQuery.Query.Census
import ResourceQuery.Query.Consolidate
import ResourceQuery.Query.Parser
import ResourceQuery.Text.Percent
import ResourceQuery.Token.Lexer

/-!
# Reading a query

From the text of a query to its tree: the text is percent-decoded and freed of what introduces it,
cut into tokens and parsed; the tree is validated and its select and sort clauses are
consolidated.
-/

namespace ResourceQuery

structure ReadOptions where
  /-- The offset of dates that are written without one. -/
  localOffset : UtcOffset := .utc
  percentDecode : Bool := true
  consolidate : Bool := true

namespace Query

/-- The text behind a question mark at its front. -/
def dropQuestionMark : List Char → List Char
  | '?' :: rest => rest
  | text => text

/-- The text behind `rql=` at its front, in any case of the letters. -/
def dropName (text : List Char) : List Char :=
  if Text.lowerAscii (text.take 4) = "rql=".toList then text.drop 4 else text

/-- The query itself, without what introduces it. -/
def strip (text : List Char) : List Char :=
  dropName (dropQuestionMark (Text.trim text))

def decode (options : ReadOptions) (text : List Char) : Except QueryError (List Char) :=
  if options.percentDecode then
    (Text.Percent.decode text).mapError fun fault ↦ .lexical 0 (.percentEncoding fault)
  else return text

def prepare (options : ReadOptions) (text : List Char) : Except QueryError (List Char) :=
  (decode options text).map strip

/-- Validates a parsed query and folds its lists. -/
def finish (options : ReadOptions) (query : Query) : Except QueryError Query := do
  query.validate
  if options.consolidate then
    return (query.foldSpine (.clause .select)).foldSpine (.clause .sort)
  else return query

/-- Parses one complete query off a stream of tokens. -/
def next (options : ReadOptions) (stream : TokenStream) : Except QueryError Query × TokenStream :=
  match Parse.query stream with
  | .ok query rest => (finish options query, rest)
  | .error fault rest => (.error fault, rest)

def ofTokens (options : ReadOptions) (queue : TokenQueue) : Except QueryError Query :=
  (next options (.ofQueue queue)).1

/-- Reads a query that needs no preparation. -/
def scan (options : ReadOptions) (text : List Char) : Except QueryError Query := do
  ofTokens options (← Lexer.scan text options.localOffset)

def read (options : ReadOptions) (text : String) : Except QueryError Query := do
  scan options (← prepare options text.toList)

end Query

end ResourceQuery
