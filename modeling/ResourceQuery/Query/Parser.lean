import ResourceQuery.Query.Child
import ResourceQuery.Token

/-!
# Parsing

A query is a term, or terms joined by one and the same sign. A term is a group in parentheses, a
function, or a property with a comparison sign and a value. Parsing takes tokens off the front of
a stream and reports the first token that the grammar has no place for; what is left of the stream
stays available.
-/

namespace ResourceQuery

/-- The tokens still to be read, and the place where the query ends. -/
structure TokenStream where
  tokens : List Token
  stop : Nat

/-- A stream of the tokens of a queue, which ends where its last token stands. -/
def TokenStream.ofQueue (queue : TokenQueue) : TokenStream :=
  ⟨queue.tokens, queue.tokens.getLast?.elim 0 (·.position)⟩

abbrev Parse := EStateM QueryError TokenStream

namespace Parse

/-- Takes the next token; beyond the last one, there is always an end. -/
def advance : Parse Token :=
  modifyGet fun stream ↦
    match stream.tokens with
    | [] => (Token.stop stream.stop, stream)
    | token :: rest => (token, { stream with tokens := rest })

def skip : Parse Unit := do
  let _ ← advance

/-- The symbol of the next token. -/
def peek : Parse Symbol :=
  return (← get).tokens.head?.elim .stop (·.symbol)

def nextIs (symbol : Symbol) : Parse Bool :=
  return (← peek) == symbol

/-- The position of the next token. -/
def position : Parse Nat :=
  return (← get).tokens.head?.elim (← get).stop (·.position)

def fail {α : Type} (position : Nat) (fault : SyntaxFault) : Parse α :=
  throw (.syntactic position fault)

def unexpected {α : Type} (token : Token) (expected : Expected) : Parse α :=
  fail token.position (.unexpected token.describe expected)

def expect (symbol : Symbol) (expected : Expected) : Parse Token := do
  let token ← advance
  if token.symbol = symbol then return token else unexpected token expected

/-- Runs a step that can only fail by its shape, and places its fault. -/
def shaped {α : Type} (position : Nat) : Except ShapeFault α → Parse α
  | .ok a => return a
  | .error fault => fail position (.shape fault)

/-- More items, each behind a separator; there are at most as many as tokens. -/
def itemsAfter {α : Type} (separator : Symbol) (item : Parse α) : (limit : Nat) → Parse (List α)
  | 0 => return []
  | limit + 1 => do
    if ← nextIs separator then
      skip
      return (← item) :: (← itemsAfter separator item limit)
    else return []

/-- One or more items with a separator between them. -/
def items {α : Type} (separator : Symbol) (item : Parse α) : Parse (List α) := do
  let head ← item
  return head :: (← itemsAfter separator item (← get).tokens.length)

/-- A list of arguments, without the parentheses around it. -/
def list {α : Type} (item : Parse α) : Parse (List α) :=
  items .comma item

/-- The segments that a token adds to a path: a word its dotted parts, a whole number its text. -/
def segments? (token : Token) : Option Property :=
  match token.symbol, token.value with
  | .property, _ => some (Property.ofPath token.text)
  | .literal, some (.integer _) => some ⟨[token.text]⟩
  | _, _ => none

/-- The segments behind a slash. -/
def segment : Parse Property := do
  let token ← advance
  match segments? token with
  | some segments => return segments
  | none => unexpected token .property

/-- A word with any number of segments behind it. -/
def path : Parse Property := do
  let token ← expect .property .property
  let more ← itemsAfter .slash segment (← get).tokens.length
  return more.foldl (· ++ ·) (Property.ofPath token.text)

/-- A path, or several in parentheses, which make up one property. -/
def property : Parse Property := do
  if ← nextIs .openParen then
    skip
    let parts ← list path
    let _ ← expect .closeParen .closeParen
    return parts.foldl (· ++ ·) ⟨[]⟩
  else path

/-- What follows the segments at the front of a list of tokens. -/
def afterSegments : List Token → List Token
  | slash :: token :: rest =>
    if slash.symbol = .slash && (token.symbol = .property || token.symbol = .literal) then
      afterSegments rest
    else slash :: token :: rest
  | short => short

/-- The tokens, of which the first opens a parenthesis, begin with a property in parentheses and not
with a group: a path comes first, and a comma or a closing parenthesis next. -/
def beginsCompound : List Token → Bool
  | _ :: word :: rest =>
    word.symbol == .property &&
      (afterSegments rest).head?.any fun token ↦
        token.symbol == .comma || token.symbol == .closeParen
  | _ => false

/-- The words behind slashes at the front of a list of tokens, and what follows them. -/
def slashedWords : List Token → List String × List Token
  | slash :: word :: rest =>
    if slash.symbol = .slash && word.symbol = .property then
      let (words, rest) := slashedWords rest
      (word.text :: words, rest)
    else ([], slash :: word :: rest)
  | short => ([], short)

/-- The text of a bare value that begins with `head`; words behind slashes belong to it. -/
def bareText (head : String) : Parse String :=
  modifyGet fun stream ↦
    let (words, rest) := slashedWords stream.tokens
    (words.foldl (fun text word ↦ text ++ "/" ++ word) head, { stream with tokens := rest })

/-- A literal, or a bare word read as a string, which may begin with a sign. -/
def value : Parse Value := do
  let token ← advance
  match token.symbol with
  | .literal => return token.value.getD .null
  | .property => return .string (← bareText token.text)
  | .direction _ =>
    if ← nextIs .property then
      let word ← advance
      return .string (← bareText (token.text ++ word.text))
    else unexpected token .value
  | _ => unexpected token .value

/-- A comparison sign and a value, behind a property. -/
def infixTail (property : Property) : Parse Query := do
  let token ← advance
  match token.symbol with
  | .comparison op => return .compare op property (← value)
  | _ => unexpected token .comparison

/-- A property and a comma, the first argument of a function. -/
def subject : Parse Property := do
  let property ← property
  let _ ← expect .comma .comma
  return property

def limitNumber : Parse UInt64 := do
  let token ← advance
  match token.symbol, token.value with
  | .literal, some value => shaped token.position (Query.limitArgument value)
  | _, _ => unexpected token .count

def limit : Parse Limit := do
  let number ← limitNumber
  if ← nextIs .comma then
    skip
    return ⟨some number, ← limitNumber⟩
  else return ⟨none, number⟩

def sortKey : Parse SortKey := do
  match ← peek with
  | .direction order =>
    skip
    return ⟨order, ← property⟩
  | _ => return ⟨.ascending, ← property⟩

/-- The pattern of `like` has to be a text. -/
def isText : Value → Bool
  | .string _ | .char _ => true
  | _ => false

def pattern (op : PatternOp) : Parse Query := do
  let property ← subject
  let position ← position
  let value ← value
  if op = .like && !isText value then fail position (.notAPattern value.typeName)
  else return .pattern op property value

def count : Parse Query := do
  if ← nextIs .closeParen then return .count none else return .count (some (← property))

/-- The arguments of a function, in parentheses. -/
def call {α : Type} (arguments : Parse α) : Parse α := do
  skip
  let _ ← expect .openParen .openParen
  let result ← arguments
  let _ ← expect .closeParen .closeParen
  return result

/-- A grouping property, or a call of a function. -/
def aggregateItem : Parse Child := do
  match ← peek with
  | .function (.summary op) => return .node (← call (.summary op <$> property))
  | .function .count => return .node (← call count)
  | .property | .openParen => return .property (← property)
  | _ => unexpected (← advance) .groupOrFunction

/-- One more item of an aggregate. -/
def addItem (query : Query) : Parse Query := do
  let position ← position
  let item ← aggregateItem
  shaped position (query.add item)

/-- More items of an aggregate, each behind a comma. -/
def addItems (query : Query) : (limit : Nat) → Parse Query
  | 0 => return query
  | limit + 1 => do
    if ← nextIs .comma then
      skip
      addItems (← addItem query) limit
    else return query

def aggregate : Parse Query := do
  let query ← addItem (.aggregate [] [])
  addItems query (← get).tokens.length

/-- The arguments of a function; those of a group are queries, read by `inner`. -/
def arguments (inner : Parse Query) : Keyword → Parse Query
  | .limit => .limit <$> limit
  | .select => .select <$> list property
  | .sort => .sort <$> list sortKey
  | .group joiner => .group joiner <$> list inner
  | .compare op => return .compare op (← subject) (← value)
  | .pattern op => pattern op
  | .membership op => return .membership op (← subject) (← list value)
  | .distinct => return .distinct
  | .first => return .first
  | .one => return .one
  | .count => count
  | .values => .values <$> property
  | .summary op => .summary op <$> property
  | .aggregate => aggregate

/-- A single term; `inner` reads what is between parentheses. -/
def term (inner : Parse Query) : Parse Query := do
  match ← peek with
  | .openParen =>
    if beginsCompound (← get).tokens then infixTail (← property)
    else
      skip
      let query ← inner
      let _ ← expect .closeParen .closeParen
      return query
  | .function keyword => call (arguments inner keyword)
  | .property => infixTail (← property)
  | _ => unexpected (← advance) .property

/-- Refuses a sign that joins terms behind terms joined by another one. -/
def noOtherJoiner (joiner : Joiner) : Parse Unit := do
  match ← peek with
  | .joiner _ =>
    let token ← advance
    fail token.position (.mixedJoiners token.describe joiner)
  | _ => return ()

/-- One term, or terms joined by one sign; at most `depth` parentheses can be open at once. -/
def terms : (depth : Nat) → Parse Query
  | 0 => do unexpected (← advance) .property
  | depth + 1 => do
    let item := term (terms depth)
    let head ← item
    match ← peek with
    | .joiner joiner =>
      let rest ← itemsAfter (.joiner joiner) item (← get).tokens.length
      noOtherJoiner joiner
      return .group joiner (head :: rest)
    | _ => return head

/-- A complete query. Every open parenthesis is a token, which bounds the depth. -/
def query : Parse Query := do
  if ← nextIs .stop then return .noop
  else
    let query ← terms ((← get).tokens.length + 1)
    let _ ← expect .stop .joinerOrStop
    return query

end Parse

end ResourceQuery
