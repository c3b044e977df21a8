/-
Tokens of a C15 source: literals, names, built-in functions, keywords and punctuation, each with the text it was read
from.
-/
import C15.Literal
import C15.Span

namespace C15

inductive Keyword where
  | int
  | uint
  | float
  | void
  | const
  | struct
  | return_
  | do_
  | for_
  | while_
  | break_
  | continue_
  | if_
  | else_
deriving DecidableEq, Repr

namespace Keyword

def all : List Keyword :=
  [.int, .uint, .float, .void, .const, .struct, .return_, .do_, .for_, .while_, .break_, .continue_, .if_, .else_]

def text : Keyword → String
  | .int => "int"
  | .uint => "uint"
  | .float => "float"
  | .void => "void"
  | .const => "const"
  | .struct => "struct"
  | .return_ => "return"
  | .do_ => "do"
  | .for_ => "for"
  | .while_ => "while"
  | .break_ => "break"
  | .continue_ => "continue"
  | .if_ => "if"
  | .else_ => "else"

def ofText? (s : String) : Option Keyword := all.find? fun k => k.text == s

/-- keywords a declared type can start with -/
def startsType : Keyword → Bool
  | .int | .uint | .float | .void | .const => true
  | _ => false

end Keyword

/-- punctuation and operators -/
inductive Punct where
  | lparen
  | rparen
  | lbrace
  | rbrace
  | comma
  | semicolon
  | assign
  | plusAssign
  | minusAssign
  | starAssign
  | slashAssign
  | percentAssign
  | ampAssign
  | pipeAssign
  | caretAssign
  | shlAssign
  | shrAssign
  | plus
  | minus
  | star
  | slash
  | percent
  | plusPlus
  | minusMinus
  | amp
  | pipe
  | caret
  | tilde
  | not
  | andAnd
  | orOr
  | shl
  | shr
  | lt
  | gt
  | le
  | ge
  | eq
  | ne
deriving DecidableEq, Repr

namespace Punct

/-- every mark, longer ones before shorter ones -/
def all : List Punct :=
  [.shlAssign, .shrAssign, .plusAssign, .minusAssign, .starAssign, .slashAssign, .percentAssign, .ampAssign,
   .pipeAssign, .caretAssign, .plusPlus, .minusMinus, .andAnd, .orOr, .shl, .shr, .le, .ge, .eq, .ne, .lparen,
   .rparen, .lbrace, .rbrace, .comma, .semicolon, .assign, .plus, .minus, .star, .slash, .percent, .amp, .pipe,
   .caret, .tilde, .not, .lt, .gt]

def spelling : Punct → List Char
  | .lparen => ['(']
  | .rparen => [')']
  | .lbrace => ['{']
  | .rbrace => ['}']
  | .comma => [',']
  | .semicolon => [';']
  | .assign => ['=']
  | .plusAssign => ['+', '=']
  | .minusAssign => ['-', '=']
  | .starAssign => ['*', '=']
  | .slashAssign => ['/', '=']
  | .percentAssign => ['%', '=']
  | .ampAssign => ['&', '=']
  | .pipeAssign => ['|', '=']
  | .caretAssign => ['^', '=']
  | .shlAssign => ['<', '<', '=']
  | .shrAssign => ['>', '>', '=']
  | .plus => ['+']
  | .minus => ['-']
  | .star => ['*']
  | .slash => ['/']
  | .percent => ['%']
  | .plusPlus => ['+', '+']
  | .minusMinus => ['-', '-']
  | .amp => ['&']
  | .pipe => ['|']
  | .caret => ['^']
  | .tilde => ['~']
  | .not => ['!']
  | .andAnd => ['&', '&']
  | .orOr => ['|', '|']
  | .shl => ['<', '<']
  | .shr => ['>', '>']
  | .lt => ['<']
  | .gt => ['>']
  | .le => ['<', '=']
  | .ge => ['>', '=']
  | .eq => ['=', '=']
  | .ne => ['!', '=']

/-- the longest mark a text starts with -/
def leading? (cs : List Char) : Option Punct := all.find? fun p => p.spelling.isPrefixOf cs

end Punct

inductive TokenKind where
  | literal (value : Literal)
  | ident (name : String)
  | intrinsic (i : Intrinsic)
  | keyword (k : Keyword)
  | punct (p : Punct)
  | eof
deriving DecidableEq, Repr

namespace TokenKind

/-- the kind of a name-shaped text: a keyword, a built-in function, or a name -/
def ofWord (s : String) : TokenKind :=
  match Keyword.ofText? s with
  | some k => .keyword k
  | none =>
    match Intrinsic.ofName? s with
    | some i => .intrinsic i
    | none => .ident s

/-- whether a declared type can start here -/
def startsType : TokenKind → Bool
  | .keyword k => k.startsType
  | _ => false

end TokenKind

structure Token where
  kind : TokenKind
  lexeme : String
  span : Span
deriving DecidableEq, Repr

end C15
