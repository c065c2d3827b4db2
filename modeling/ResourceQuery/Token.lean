import ResourceQuery.Operation
import ResourceQuery.Property
import ResourceQuery.Value

/-!
# Tokens

The pieces a query is cut into: a symbol, the text it was written as, where it began, and for a
literal its value. A queue holds the tokens between scanning and parsing.
-/

namespace ResourceQuery

inductive Symbol where
  | openParen
  | closeParen
  | comma
  | joiner (kind : Joiner)
  | slash
  /-- A plus or minus sign that is no part of a number. -/
  | direction (order : SortOrder)
  | comparison (op : Comparison)
  /-- A reserved word in front of an opening parenthesis. -/
  | function (keyword : Keyword)
  | property
  | literal
  | stop
  deriving DecidableEq, Repr

def Symbol.text : Symbol → String
  | openParen => "("
  | closeParen => ")"
  | comma => ","
  | joiner kind => kind.sign.toString
  | slash => "/"
  | direction order => order.sign.toString
  | comparison op => op.sign
  | function keyword => keyword.name
  | property => "PROPERTY"
  | literal => "VALUE"
  | stop => "end of input"

structure Token where
  symbol : Symbol
  value : Option Value
  text : String
  position : Nat
  deriving DecidableEq

namespace Token

/-- The token that ends a query. -/
def stop (position : Nat) : Token :=
  ⟨.stop, none, "", position⟩

/-- How the token reads in a message. -/
def describe (token : Token) : String :=
  if token.symbol = .stop then "end of input" else "'" ++ token.text ++ "'"

end Token

/-- Tokens in the order they will be read. -/
structure TokenQueue where
  tokens : List Token

namespace TokenQueue

def empty : TokenQueue := ⟨[]⟩

def size (queue : TokenQueue) : Nat :=
  queue.tokens.length

def isEmpty (queue : TokenQueue) : Bool :=
  queue.tokens.isEmpty

def enqueue (queue : TokenQueue) (token : Token) : TokenQueue :=
  ⟨queue.tokens ++ [token]⟩

/-- Gives a token back, so that it is the next one. -/
def requeue (queue : TokenQueue) (token : Token) : TokenQueue :=
  ⟨token :: queue.tokens⟩

def dequeue (queue : TokenQueue) : Option Token × TokenQueue :=
  (queue.tokens.head?, ⟨queue.tokens.tail⟩)

def peek (queue : TokenQueue) : Option Token :=
  queue.tokens.head?

/-- The token `offset` places behind the next one. -/
def peekAt (queue : TokenQueue) (offset : Nat) : Option Token :=
  queue.tokens[offset]?

theorem dequeue_requeue (queue : TokenQueue) (token : Token) :
    (queue.requeue token).dequeue = (some token, queue) := rfl

end TokenQueue

end ResourceQuery
