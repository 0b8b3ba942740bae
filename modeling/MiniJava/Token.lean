/-!
# Tokens

The words of the language: keywords, symbols, identifiers and numbers. A token that was read from a
text carries the bytes it covers (`Spanned`). `describe` is how messages name a token.
-/

namespace MiniJava

/-- The reserved words. Printing is one word with dots inside. -/
inductive Keyword where
  | classKw
  | publicKw
  | staticKw
  | voidKw
  | extendsKw
  | returnKw
  | intKw
  | booleanKw
  | ifKw
  | elseKw
  | whileKw
  | printlnKw
  | trueKw
  | falseKw
  | thisKw
  | newKw
  deriving DecidableEq, Repr

namespace Keyword

def text : Keyword → String
  | classKw => "class"
  | publicKw => "public"
  | staticKw => "static"
  | voidKw => "void"
  | extendsKw => "extends"
  | returnKw => "return"
  | intKw => "int"
  | booleanKw => "boolean"
  | ifKw => "if"
  | elseKw => "else"
  | whileKw => "while"
  | printlnKw => "System.out.println"
  | trueKw => "true"
  | falseKw => "false"
  | thisKw => "this"
  | newKw => "new"

/-- The keywords that have the shape of an identifier: all but printing. -/
def words : List Keyword :=
  [classKw, publicKw, staticKw, voidKw, extendsKw, returnKw, intKw, booleanKw, ifKw, elseKw,
    whileKw, trueKw, falseKw, thisKw, newKw]

/-- The keyword that is written like this word, if any. -/
def ofWord? (word : String) : Option Keyword := words.find? (·.text == word)

end Keyword

inductive Symbol where
  | andAnd
  | orOr
  | equal
  | notEqual
  | ge
  | le
  | gt
  | lt
  | bang
  | assign
  | plus
  | minus
  | star
  | slash
  | percent
  | lbrace
  | rbrace
  | lbracket
  | rbracket
  | lparen
  | rparen
  | comma
  | dot
  | semicolon
  deriving DecidableEq, Repr

namespace Symbol

def chars : Symbol → List Char
  | andAnd => ['&', '&']
  | orOr => ['|', '|']
  | equal => ['=', '=']
  | notEqual => ['!', '=']
  | ge => ['>', '=']
  | le => ['<', '=']
  | gt => ['>']
  | lt => ['<']
  | bang => ['!']
  | assign => ['=']
  | plus => ['+']
  | minus => ['-']
  | star => ['*']
  | slash => ['/']
  | percent => ['%']
  | lbrace => ['{']
  | rbrace => ['}']
  | lbracket => ['[']
  | rbracket => [']']
  | lparen => ['(']
  | rparen => [')']
  | comma => [',']
  | dot => ['.']
  | semicolon => [';']

def text (s : Symbol) : String := .ofList s.chars

/-- All symbols, longer ones first, so that the first match is the longest one. -/
def all : List Symbol :=
  [andAnd, orOr, equal, notEqual, ge, le, gt, lt, bang, assign, plus, minus, star, slash, percent,
    lbrace, rbrace, lbracket, rbracket, lparen, rparen, comma, dot, semicolon]

theorem mem_all (s : Symbol) : s ∈ all := by cases s <;> decide

theorem chars_ne_nil (s : Symbol) : s.chars ≠ [] := by cases s <;> simp [chars]

end Symbol

inductive Token where
  | keyword (k : Keyword)
  | symbol (s : Symbol)
  | ident (name : String)
  | number (value : Int32)
  deriving DecidableEq, Repr

namespace Token

def describe : Token → String
  | keyword k => s!"'{k.text}'"
  | symbol s => s!"'{s.text}'"
  | ident name => s!"identifier '{name}'"
  | number value => s!"number {value.toInt}"

end Token

/-- A token and the bytes of the source it covers, from `start` up to and without `stop`. -/
structure Spanned where
  token : Token
  start : Nat
  stop : Nat
  deriving DecidableEq, Repr

end MiniJava
