import Unroll.Span
/-! # Tokens

Words of the language, its symbols, literals, and four layout marks that stand for line ends and for
changes of indentation.  A word is a keyword where the table of spellings says so, and a name
otherwise.
-/
namespace Unroll

inductive Keyword
  | val
  | cell
  | type
  | trait
  | record
  | const
  | priv
  | mut
  | ifWord
  | elseWord
  | whileWord
  | expand
  | inWord
  | breakWord
  | continueWord
  | returnWord
  | assert
  | trueWord
  | falseWord
deriving DecidableEq, Repr, Inhabited

namespace Keyword

def spelling : Keyword → String
  | .val => "val"
  | .cell => "cell"
  | .type => "type"
  | .trait => "trait"
  | .record => "record"
  | .const => "const"
  | .priv => "priv"
  | .mut => "mut"
  | .ifWord => "if"
  | .elseWord => "else"
  | .whileWord => "while"
  | .expand => "expand"
  | .inWord => "in"
  | .breakWord => "break"
  | .continueWord => "continue"
  | .returnWord => "return"
  | .assert => "assert"
  | .trueWord => "true"
  | .falseWord => "false"

def all : List Keyword :=
  [.val, .cell, .type, .trait, .record, .const, .priv, .mut, .ifWord, .elseWord, .whileWord,
    .expand, .inWord, .breakWord, .continueWord, .returnWord, .assert, .trueWord, .falseWord]

theorem mem_all (k : Keyword) : k ∈ all := by cases k <;> simp [all]

/-- The keyword with the given spelling, if the word is one. -/
def ofWord? (w : String) : Option Keyword := all.find? (·.spelling = w)

/-- The name under which a diagnostic asks for the keyword. -/
def label : Keyword → String
  | .val => "KwVal"
  | .cell => "KwCell"
  | .type => "KwType"
  | .trait => "KwTrait"
  | .record => "KwRecord"
  | .const => "KwConst"
  | .priv => "KwPriv"
  | .mut => "KwMut"
  | .ifWord => "KwIf"
  | .elseWord => "KwElse"
  | .whileWord => "KwWhile"
  | .expand => "KwExpand"
  | .inWord => "KwIn"
  | .breakWord => "KwBreak"
  | .continueWord => "KwContinue"
  | .returnWord => "KwReturn"
  | .assert => "KwAssert"
  | .trueWord => "KwTrue"
  | .falseWord => "KwFalse"

end Keyword

inductive Symbol
  | arrow
  | pathSep
  | colon
  | semi
  | assign
  | eq
  | ne
  | lt
  | gt
  | le
  | ge
  | plus
  | minus
  | star
  | slash
  | percent
  | andAnd
  | orOr
  | bang
  | dot
  | comma
  | lparen
  | rparen
  | lbrace
  | rbrace
  | lbracket
  | rbracket
deriving DecidableEq, Repr, Inhabited

namespace Symbol

def spelling : Symbol → String
  | .arrow => "->"
  | .pathSep => "::"
  | .colon => ":"
  | .semi => ";"
  | .assign => "="
  | .eq => "=="
  | .ne => "!="
  | .lt => "<"
  | .gt => ">"
  | .le => "<="
  | .ge => ">="
  | .plus => "+"
  | .minus => "-"
  | .star => "*"
  | .slash => "/"
  | .percent => "%"
  | .andAnd => "&&"
  | .orOr => "||"
  | .bang => "!"
  | .dot => "."
  | .comma => ","
  | .lparen => "("
  | .rparen => ")"
  | .lbrace => "\x7b"
  | .rbrace => "\x7d"
  | .lbracket => "["
  | .rbracket => "]"

def label : Symbol → String
  | .arrow => "Arrow"
  | .pathSep => "ColonColon"
  | .colon => "Colon"
  | .semi => "Semi"
  | .assign => "Eq"
  | .eq => "EqEq"
  | .ne => "Neq"
  | .lt => "Lt"
  | .gt => "Gt"
  | .le => "Le"
  | .ge => "Ge"
  | .plus => "Plus"
  | .minus => "Minus"
  | .star => "Star"
  | .slash => "Slash"
  | .percent => "Percent"
  | .andAnd => "AndAnd"
  | .orOr => "OrOr"
  | .bang => "Bang"
  | .dot => "Dot"
  | .comma => "Comma"
  | .lparen => "LParen"
  | .rparen => "RParen"
  | .lbrace => "LBrace"
  | .rbrace => "RBrace"
  | .lbracket => "LBracket"
  | .rbracket => "RBracket"

/-- Reads the longest symbol at the front: the symbol, and how many characters after the first it
takes.  A one-character symbol is read only where no two-character one stands. -/
def scan? (c : Char) (rest : List Char) : Option (Symbol × Nat) :=
  match c, rest with
  | '-', '>' :: _ => some (.arrow, 1)
  | ':', ':' :: _ => some (.pathSep, 1)
  | '=', '=' :: _ => some (.eq, 1)
  | '!', '=' :: _ => some (.ne, 1)
  | '<', '=' :: _ => some (.le, 1)
  | '>', '=' :: _ => some (.ge, 1)
  | '&', '&' :: _ => some (.andAnd, 1)
  | '|', '|' :: _ => some (.orOr, 1)
  | ':', _ => some (.colon, 0)
  | ';', _ => some (.semi, 0)
  | '=', _ => some (.assign, 0)
  | '<', _ => some (.lt, 0)
  | '>', _ => some (.gt, 0)
  | '+', _ => some (.plus, 0)
  | '-', _ => some (.minus, 0)
  | '*', _ => some (.star, 0)
  | '/', _ => some (.slash, 0)
  | '%', _ => some (.percent, 0)
  | '!', _ => some (.bang, 0)
  | '.', _ => some (.dot, 0)
  | ',', _ => some (.comma, 0)
  | '(', _ => some (.lparen, 0)
  | ')', _ => some (.rparen, 0)
  | '{', _ => some (.lbrace, 0)
  | '}', _ => some (.rbrace, 0)
  | '[', _ => some (.lbracket, 0)
  | ']', _ => some (.rbracket, 0)
  | _, _ => none

end Symbol

inductive TokenKind
  | keyword (word : Keyword)
  | symbol (symbol : Symbol)
  | name (name : String)
  | int (value : Nat)
  | char (value : Char)
  | text (value : String)
  | newline
  | indent
  | dedent
  | eof
deriving DecidableEq, Repr, Inhabited

namespace TokenKind

def label : TokenKind → String
  | keyword k => k.label
  | symbol s => s.label
  | name _ => "Ident"
  | int _ => "Int"
  | char _ => "Char"
  | text _ => "String"
  | newline => "Newline"
  | indent => "Indent"
  | dedent => "Dedent"
  | eof => "Eof"

/-- The number of brackets open after the token; none where it closes a bracket that nothing
opened.  The three kinds of bracket are counted together: which closes which is the grammar's
business. -/
def depthAfter (depth : Nat) : TokenKind → Option Nat
  | symbol .lparen | symbol .lbrace | symbol .lbracket => some (depth + 1)
  | symbol .rparen | symbol .rbrace | symbol .rbracket =>
    match depth with
    | 0 => none
    | d + 1 => some d
  | _ => some depth

end TokenKind

structure Token where
  kind : TokenKind
  span : Span
deriving DecidableEq, Repr, Inhabited

end Unroll
