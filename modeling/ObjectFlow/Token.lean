/-
  File:      ObjectFlow/Token.lean
  Subject:   THE TOKENS of the program language and their spelling.
-/
import ObjectFlow.Domain.Const

namespace ObjectFlow

/-! ## 1. Words -/

/-- The built-in types. -/
inductive Prim where
  | int | boolean | byte | short | char | long | float | double | void
  deriving DecidableEq, Inhabited

namespace Prim

def name : Prim → String
  | int => "int"
  | boolean => "boolean"
  | byte => "byte"
  | short => "short"
  | char => "char"
  | long => "long"
  | float => "float"
  | double => "double"
  | void => "void"

def all : List Prim := [int, boolean, byte, short, char, long, float, double, void]

/-- The type with a given name. -/
def ofName? (s : String) : Option Prim := all.find? (·.name = s)

/-- The types whose values fit a 32-bit integer. -/
def holdsInt : Prim → Bool
  | int | boolean | byte | short | char => true
  | _ => false

end Prim

/-- The kinds of call. -/
inductive CallKind where
  | static | special | virtual | interface | dynamic
  deriving DecidableEq, Inhabited

namespace CallKind

/-- The word that starts a call of this kind. -/
def word : CallKind → String
  | static => "staticinvoke"
  | special => "specialinvoke"
  | virtual => "virtualinvoke"
  | interface => "interfaceinvoke"
  | dynamic => "dynamicinvoke"

def name : CallKind → String
  | static => "Static"
  | special => "Special"
  | virtual => "Virtual"
  | interface => "Interface"
  | dynamic => "Dynamic"

def all : List CallKind := [static, special, virtual, interface, dynamic]

/-- The kind with a given name. -/
def ofName? (s : String) : Option CallKind := all.find? (·.name = s)

/-- Calls of the other kinds name no receiver. -/
def hasReceiver : CallKind → Bool
  | special | virtual | interface => true
  | static | dynamic => false

end CallKind

/-- The reserved words. -/
inductive Keyword where
  | classDecl | interfaceDecl | abstractMark | extendsClause | implementsClause | staticMark
  | fieldDecl | methodDecl | varDecl
  | newObject | ifJump | gotoJump | switchJump | caseArm | defaultArm | returnJump | nopMark
  | invoke (kind : CallKind)
  | prim (type : Prim)
  deriving DecidableEq, Inhabited

namespace Keyword

def word : Keyword → String
  | classDecl => "class"
  | interfaceDecl => "interface"
  | abstractMark => "abstract"
  | extendsClause => "extends"
  | implementsClause => "implements"
  | staticMark => "static"
  | fieldDecl => "field"
  | methodDecl => "method"
  | varDecl => "var"
  | newObject => "new"
  | ifJump => "if"
  | gotoJump => "goto"
  | switchJump => "switch"
  | caseArm => "case"
  | defaultArm => "default"
  | returnJump => "return"
  | nopMark => "nop"
  | invoke kind => kind.word
  | prim type => type.name

def all : List Keyword :=
  [classDecl, interfaceDecl, abstractMark, extendsClause, implementsClause, staticMark,
    fieldDecl, methodDecl, varDecl, newObject, ifJump, gotoJump, switchJump, caseArm, defaultArm,
    returnJump, nopMark] ++ CallKind.all.map invoke ++ Prim.all.map prim

/-- The reserved word with a given spelling. -/
def ofWord? (s : String) : Option Keyword := all.find? (·.word = s)

end Keyword

/-! ## 2. Marks and tokens -/

/-- Separators. -/
inductive Mark where
  | assign | leftParen | rightParen | leftBrace | rightBrace | leftBracket | rightBracket
  | colon | semicolon | comma | dot
  deriving DecidableEq, Inhabited

def Mark.text : Mark → String
  | .assign => "="
  | .leftParen => "("
  | .rightParen => ")"
  | .leftBrace => "\x7b"
  | .rightBrace => "\x7d"
  | .leftBracket => "["
  | .rightBracket => "]"
  | .colon => ":"
  | .semicolon => ";"
  | .comma => ","
  | .dot => "."

/-- A token. Every list of tokens the lexer gives ends with its only `endOfFile`. -/
inductive Token where
  | ident (name : String)
  | integer (value : Int32)
  /-- The text between the angle brackets of a method signature such as `<C: T m(P)>`. -/
  | signature (text : String)
  | keyword (word : Keyword)
  | operator (op : BinaryOp)
  | mark (mark : Mark)
  | endOfFile
  deriving DecidableEq, Inhabited

namespace Token

/-- The token as it is written in a program. -/
def text : Token → String
  | ident name => name
  | integer value => toString value.toInt
  | signature inner => "<" ++ inner ++ ">"
  | keyword k => k.word
  | operator op => op.symbol
  | mark m => m.text
  | endOfFile => "END_OF_FILE"

/-- The name a token enters into the name table. -/
def name? : Token → Option String
  | ident name => some name
  | signature inner => some inner
  | _ => none

end Token

/-- A token and the line it stands on; lines count from 1. -/
structure LineToken where
  token : Token
  line : Nat
  deriving DecidableEq, Inhabited

/-! ## 3. Names -/

/-- The different names in a list of tokens, in the order of their first occurrence. -/
def nameTable (tokens : List LineToken) : List String :=
  (tokens.filterMap (·.token.name?)).foldl
    (fun names name => if name ∈ names then names else names ++ [name]) []

/-- The token with its name replaced by the number of that name in a table. -/
def Token.numbered (names : List String) : Token → String
  | .ident name => s!"ident_{names.idxOf name}"
  | .signature inner => s!"signature_{names.idxOf inner}"
  | t => t.text

end ObjectFlow
