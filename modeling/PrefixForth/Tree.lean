import PrefixForth.Token

/-!
# Trees

A program is a list of trees, one for each top-level form. A node holds the token of its form's head
and its parts in order; a leaf holds an operand, a name or a type. `Node.text` writes a tree as one
line with all parentheses: a minus sign is marked as unary or binary, and a node whose token is a
parenthesis (a declaration of one name) shows no head.
-/

namespace PrefixForth

/-- A tree of tokens. -/
inductive Node where
  | mk (token : Token) (children : List Node)
  deriving Repr, Inhabited

/-- The trees of the top-level forms, in order. -/
abbrev Program := List Node

namespace Node

/-- The token of the form's head, or of the leaf. -/
def token : Node → Token
  | mk t _ => t

/-- The parts, in order. -/
def children : Node → List Node
  | mk _ cs => cs

/-- A node without parts. -/
def leaf (t : Token) : Node :=
  mk t []

/-- The node has no parts. -/
def isLeaf (n : Node) : Bool :=
  n.children.isEmpty

/-- The head of a form as it is written: a minus sign is marked, a parenthesis is left out. -/
def headText (t : Token) : Bytes :=
  if t.kind = .openParen then
    []
  else if t.text = utf8 "-" ∧ t.kind = .unaryOperator then
    utf8 "u-"
  else if t.text = utf8 "-" ∧ t.kind = .binaryOperator then
    utf8 "b-"
  else
    t.text

mutual

/-- The tree as one line with all parentheses. -/
def text : Node → Bytes
  | mk t [] => t.text
  | mk t (c :: cs) =>
    let first := if t.kind = .openParen then c.text else headText t ++ utf8 " " ++ c.text
    utf8 "(" ++ first ++ textAll cs ++ utf8 ")"

/-- The trees, each after a blank. -/
def textAll : List Node → Bytes
  | [] => []
  | c :: cs => utf8 " " ++ c.text ++ textAll cs

end

mutual

/-- The number of nodes of a tree. -/
def size : Node → Nat
  | mk _ cs => 1 + sizeAll cs

/-- The number of nodes of some trees. -/
def sizeAll : List Node → Nat
  | [] => 0
  | c :: cs => c.size + sizeAll cs

end

end Node

/-- The trees of a program, with blanks between them. -/
def Program.text (p : Program) : Bytes :=
  spaced (p.map Node.text)

end PrefixForth
