/-
Reading a program from tokens.

Expressions bind by ten levels, from `||` up to `*`, `/` and `%`, all to the left; assignment stands below them and
binds to the right. Only a variable can be assigned or updated; parentheses and a unary plus leave no trace in the tree,
and a minus in front of a literal becomes part of it. The first error ends a call. The state survives it, so a later
call goes on where the failed one stopped and identities stay distinct.

The recursion runs on a number of calls that the tokens left bound: every round trip through the functions takes a
token, and none is longer than eight calls.
-/
import C15.Program
import C15.Token

namespace C15

/-- what the grammar asks for at a token -/
inductive Wanted where
  | type_
  | itemName
  | parameterName
  | variableName
  | expression
  | openParen
  | openParenAfterFor
  | closeParen
  | commaOrCloseParen
  | openBrace
  | closeBrace
  | whileAfterDo
  | semicolonAfterForCondition
deriving DecidableEq, Repr

def Wanted.text : Wanted → String
  | .type_ => "a type"
  | .itemName => "a function or variable name"
  | .parameterName => "a parameter name"
  | .variableName => "a variable name"
  | .expression => "an expression"
  | .openParen => "'('"
  | .openParenAfterFor => "'(' after for"
  | .closeParen => "')'"
  | .commaOrCloseParen => "',' or ')'"
  | .openBrace => "'\x7b'"
  | .closeBrace => "'\x7d'"
  | .whileAfterDo => "'while' after do body"
  | .semicolonAfterForCondition => "';' after for condition"

/-- why tokens are no program -/
inductive GrammarCause where
  /-- the token found, or none at the end -/
  | expected (wanted : Wanted) (found : Option String)
  | missingSemicolon
  | structDeclaration
  | constResult
  | assignmentTarget
  | updateTarget (op : UpdateOp)
deriving DecidableEq, Repr

def GrammarCause.message : GrammarCause → String
  | .expected wanted none => "Expected " ++ wanted.text ++ ", found end of file"
  | .expected wanted (some lexeme) => "Expected " ++ wanted.text ++ ", found '" ++ lexeme ++ "'"
  | .missingSemicolon => "Expected ';' after statement"
  | .structDeclaration => "struct declarations are not supported"
  | .constResult => "Function return type cannot be const"
  | .assignmentTarget => "Assignment target must be a variable"
  | .updateTarget op => "Operand of '" ++ op.symbol ++ "' must be a variable"

namespace Parser

/-- tokens left, the span of the last token taken, and the next free identity -/
structure State where
  rest : List Token
  last : Span
  nextId : NodeId
deriving Repr

end Parser

/-- a parser keeps its state when it fails -/
abbrev Parser (α : Type) := EStateM (Located GrammarCause) Parser.State α

namespace Parser

def State.start (tokens : List Token) : State := ⟨tokens, ⟨0, 0⟩, 0⟩

/-! ## Looking at and taking tokens -/

namespace State

/-- the kind of the token after `n` others; past the tokens, the end -/
def kindAt (s : State) (n : Nat) : TokenKind := (s.rest[n]?).elim .eof (·.kind)

def kind (s : State) : TokenKind := s.kindAt 0

/-- span of the next token; past the tokens, of the last one taken -/
def nextSpan (s : State) : Span := (s.rest.head?).elim s.last (·.span)

def lexeme (s : State) : String := (s.rest.head?).elim "" (·.lexeme)

/-- take the next token; the end of the source is never passed -/
def advance (s : State) : State :=
  match s.rest with
  | [] => s
  | t :: ts => if t.kind = .eof then { s with last := t.span } else { s with rest := ts, last := t.span }

/-- from an offset to the end of the last token taken -/
def spanFrom (s : State) (start : Nat) : Span := ⟨start, max s.last.stop start⟩

/-- calls that reading an expression or a statement here can need -/
def calls (s : State) : Nat := 8 * (s.rest.length + 1)

end State

def peek : Parser TokenKind := return (← get).kind

def advance : Parser Unit := modify State.advance

def nextStart : Parser Nat := return (← get).nextSpan.start

def spanFrom (start : Nat) : Parser Span := return (← get).spanFrom start

def fresh : Parser NodeId := modifyGet fun s => (s.nextId, { s with nextId := s.nextId + 1 })

/-- fail at the next token -/
def unexpected {α : Type} (wanted : Wanted) : Parser α := do
  let s ← get
  throw ⟨.expected wanted (if s.kind = .eof then none else some s.lexeme), s.nextSpan⟩

/-- fail at a `struct` -/
def rejectStruct {α : Type} : Parser α := do throw ⟨.structDeclaration, (← get).nextSpan⟩

/-- take a token of this kind and give its span -/
def expect (kind : TokenKind) (wanted : Wanted) : Parser Span := do
  if (← peek) = kind then
    advance
    return (← get).last
  else unexpected wanted

/-- take the token if it is of this kind -/
def eat (kind : TokenKind) : Parser Bool := do
  if (← peek) = kind then
    advance
    return true
  else return false

def expectName (wanted : Wanted) : Parser (String × Span) := do
  match ← peek with
  | .ident name =>
    advance
    return (name, (← get).last)
  | _ => unexpected wanted

/-- take the semicolon that ends a statement; a missing one is reported at the token before -/
def expectSemicolon : Parser Unit := do
  if ← eat (.punct .semicolon) then return ()
  else throw ⟨.missingSemicolon, (← get).last⟩

/-- a type; `void` cannot be constant -/
def parseType : Parser Ty := do
  let isConst ← eat (.keyword .const)
  match ← peek with
  | .keyword .int => advance; return ⟨isConst, .int⟩
  | .keyword .uint => advance; return ⟨isConst, .uint⟩
  | .keyword .float => advance; return ⟨isConst, .float⟩
  | .keyword .void => if isConst then unexpected .type_ else advance; return ⟨false, .void⟩
  | .keyword .struct => rejectStruct
  | _ => unexpected .type_

/-! ## Expressions -/

/-- the operator of an assignment: none inside for a plain one -/
def assignOp? : TokenKind → Option (Option BinOp)
  | .punct .assign => some none
  | .punct .plusAssign => some (some .add)
  | .punct .minusAssign => some (some .sub)
  | .punct .starAssign => some (some .mul)
  | .punct .slashAssign => some (some .div)
  | .punct .percentAssign => some (some .rem)
  | .punct .ampAssign => some (some .bitAnd)
  | .punct .pipeAssign => some (some .bitOr)
  | .punct .caretAssign => some (some .bitXor)
  | .punct .shlAssign => some (some .shl)
  | .punct .shrAssign => some (some .shr)
  | _ => none

/-- a binary operator and its level; higher levels bind tighter -/
def binaryOp? : TokenKind → Option (BinOp × Nat)
  | .punct .orOr => some (.or, 1)
  | .punct .andAnd => some (.and, 2)
  | .punct .pipe => some (.bitOr, 3)
  | .punct .caret => some (.bitXor, 4)
  | .punct .amp => some (.bitAnd, 5)
  | .punct .eq => some (.eq, 6)
  | .punct .ne => some (.ne, 6)
  | .punct .lt => some (.lt, 7)
  | .punct .le => some (.le, 7)
  | .punct .gt => some (.gt, 7)
  | .punct .ge => some (.ge, 7)
  | .punct .shl => some (.shl, 8)
  | .punct .shr => some (.shr, 8)
  | .punct .plus => some (.add, 9)
  | .punct .minus => some (.sub, 9)
  | .punct .star => some (.mul, 10)
  | .punct .slash => some (.div, 10)
  | .punct .percent => some (.rem, 10)
  | _ => none

/-- an update mark after a variable -/
def suffixOp? : TokenKind → Option UpdateOp
  | .punct .plusPlus => some .postInc
  | .punct .minusMinus => some .postDec
  | _ => none

/-- an update of an operand, which must be a variable -/
def mkUpdate (op : UpdateOp) (operand : Expr) (span : Span) : Parser Expr :=
  match operand with
  | .ident targetId targetSpan target => return .update (← fresh) span op targetId targetSpan target
  | _ => throw ⟨.updateTarget op, operand.span⟩

/-- the update mark after an operand, if there is one; a second mark has no variable to update -/
def suffix (operand : Expr) : Parser Expr := do
  match suffixOp? (← peek) with
  | none => return operand
  | some op =>
    advance
    let updated ← mkUpdate op operand (operand.span.merge (← get).last)
    match suffixOp? (← peek) with
    | none => return updated
    | some again =>
      advance
      mkUpdate again updated (updated.span.merge (← get).last)

/-- whether a cast starts here -/
def atCast : Parser Bool := do
  let s ← get
  let named := match s.kindAt 1 with
    | .keyword .int | .keyword .uint | .keyword .float => true
    | _ => false
  return s.kindAt 0 = .punct .lparen && named && s.kindAt 2 = .punct .rparen

mutual

/-- an expression: an assignment, or one that binds tighter -/
def assignment : Nat → Parser Expr
  | 0 => unexpected .expression
  | n + 1 => do
    let lhs ← binary n 0
    match assignOp? (← peek) with
    | none => return lhs
    | some op =>
      match lhs with
      | .ident _ targetSpan target =>
        advance
        let value ← assignment n
        return .assign (← fresh) (targetSpan.merge value.span) op target targetSpan value
      | _ => throw ⟨.assignmentTarget, lhs.span⟩

/-- operands joined by operators of at least a level -/
def binary : Nat → Nat → Parser Expr
  | 0, _ => unexpected .expression
  | n + 1, level => do
    let left ← unary n
    binaryRest n level left

/-- what follows the first operand -/
def binaryRest : Nat → Nat → Expr → Parser Expr
  | 0, _, _ => unexpected .expression
  | n + 1, level, left => do
    match binaryOp? (← peek) with
    | none => return left
    | some (op, opLevel) =>
      if opLevel < level then return left
      else
        advance
        -- operators of one level bind to the left: those of the same level are left to the next round
        let right ← binary n (opLevel + 1)
        binaryRest n level (.binary (← fresh) (left.span.merge right.span) op left right)

/-- an operand with what stands in front of it -/
def unary : Nat → Parser Expr
  | 0 => unexpected .expression
  | n + 1 => do
    let start ← nextStart
    if ← atCast then
      advance
      let ty ← parseType
      advance
      let operand ← unary n
      return .cast (← fresh) (← spanFrom start) ty.base operand
    else
      match ← peek with
      | .punct .minus =>
        advance
        let operand ← unary n
        let span ← spanFrom start
        match operand with
        -- no new node: the literal keeps its identity
        | .literal id _ value => return .literal id span value.negate
        | _ => return .unary (← fresh) span .neg operand
      | .punct .not =>
        advance
        let operand ← unary n
        return .unary (← fresh) (← spanFrom start) .not operand
      | .punct .tilde =>
        advance
        let operand ← unary n
        return .unary (← fresh) (← spanFrom start) .bitNot operand
      | .punct .plusPlus =>
        advance
        let operand ← unary n
        mkUpdate .preInc operand (← spanFrom start)
      | .punct .minusMinus =>
        advance
        let operand ← unary n
        mkUpdate .preDec operand (← spanFrom start)
      | .punct .plus =>
        advance
        unary n
      | _ =>
        let operand ← primary n
        suffix operand

/-- a literal, a variable, a call, or an expression in parentheses -/
def primary : Nat → Parser Expr
  | 0 => unexpected .expression
  | n + 1 => do
    let start ← nextStart
    match ← peek with
    | .literal value =>
      advance
      return .literal (← fresh) (← get).last value
    | .punct .lparen =>
      advance
      let inner ← assignment n
      let _ ← expect (.punct .rparen) .closeParen
      return inner
    | .intrinsic callee =>
      advance
      let calleeSpan := (← get).last
      let args ← arguments n
      return .intrinsic (← fresh) (← spanFrom start) callee calleeSpan args
    | .ident name =>
      advance
      let nameSpan := (← get).last
      if (← peek) = .punct .lparen then
        let args ← arguments n
        return .call (← fresh) (← spanFrom start) name nameSpan args
      else return .ident (← fresh) nameSpan name
    | _ => unexpected .expression

/-- arguments in parentheses -/
def arguments : Nat → Parser (List Expr)
  | 0 => unexpected .expression
  | n + 1 => do
    let _ ← expect (.punct .lparen) .openParen
    let args ← argumentsRest n
    let _ ← expect (.punct .rparen) .closeParen
    return args

/-- arguments up to the closing parenthesis; a comma may stand before it -/
def argumentsRest : Nat → Parser (List Expr)
  | 0 => unexpected .expression
  | n + 1 => do
    if (← peek) = .punct .rparen then return []
    else
      let arg ← assignment n
      if (← peek) ≠ .punct .rparen then
        let _ ← expect (.punct .comma) .commaOrCloseParen
      let args ← argumentsRest n
      return arg :: args

end

/-- an expression -/
def expression : Parser Expr := do assignment (← get).calls

/-! ## Statements -/

/-- an expression in parentheses -/
def condition : Parser Expr := do
  let _ ← expect (.punct .lparen) .openParen
  let e ← expression
  let _ ← expect (.punct .rparen) .closeParen
  return e

/-- the rest of a variable declaration after its name -/
def finishDecl (start : Nat) (ty : Ty) (name : String) (nameSpan : Span) : Parser VarDecl := do
  let init ← if ← eat (.punct .assign) then some <$> expression else pure none
  expectSemicolon
  return ⟨← fresh, ← spanFrom start, name, nameSpan, ty, init⟩

def varDecl : Parser VarDecl := do
  let start ← nextStart
  let ty ← parseType
  let (name, nameSpan) ← expectName .variableName
  finishDecl start ty name nameSpan

/-- what the header of a `for` starts with, its semicolon included -/
def forInit : Parser ForInit := do
  if ← eat (.punct .semicolon) then return .nothing
  else if (← peek).startsType then return .decl (← varDecl)
  else
    let start ← nextStart
    let e ← expression
    expectSemicolon
    return .expr (← spanFrom start) e

/-- an expression unless the next token is of this kind -/
def unlessAt (kind : TokenKind) : Parser (Option Expr) := do
  if (← peek) = kind then return none
  else some <$> expression

mutual

def statement : Nat → Parser Stmt
  | 0 => unexpected .expression
  | n + 1 => do
    let start ← nextStart
    match ← peek with
    | .punct .lbrace =>
      let (span, body) ← block n
      return .block span body
    | .punct .semicolon =>
      advance
      return .empty (← get).last
    | .keyword .struct => rejectStruct
    | .keyword .int | .keyword .uint | .keyword .float | .keyword .void | .keyword .const => return .decl (← varDecl)
    | .keyword .if_ =>
      advance
      let cond ← condition
      let yes ← statement n
      -- an `if` inside `yes` has taken its `else` by now, so this one belongs here
      if ← eat (.keyword .else_) then
        let no ← statement n
        return .ifElse (← spanFrom start) cond yes no
      else return .ifThen (← spanFrom start) cond yes
    | .keyword .while_ =>
      advance
      let cond ← condition
      let body ← statement n
      return .while_ (← spanFrom start) cond body
    | .keyword .do_ =>
      advance
      let body ← statement n
      let _ ← expect (.keyword .while_) .whileAfterDo
      let cond ← condition
      expectSemicolon
      return .doWhile (← spanFrom start) body cond
    | .keyword .for_ =>
      advance
      let _ ← expect (.punct .lparen) .openParenAfterFor
      let init ← forInit
      let cond ← unlessAt (.punct .semicolon)
      let _ ← expect (.punct .semicolon) .semicolonAfterForCondition
      let step ← unlessAt (.punct .rparen)
      let _ ← expect (.punct .rparen) .closeParen
      let body ← statement n
      return .for_ (← spanFrom start) init cond step body
    | .keyword .break_ =>
      advance
      expectSemicolon
      return .break_ (← spanFrom start)
    | .keyword .continue_ =>
      advance
      expectSemicolon
      return .continue_ (← spanFrom start)
    | .keyword .return_ =>
      advance
      let value ← unlessAt (.punct .semicolon)
      expectSemicolon
      return .return_ (← spanFrom start) value
    | _ =>
      let e ← expression
      expectSemicolon
      return .expr (← spanFrom start) e

/-- statements in braces, with the span of both -/
def block : Nat → Parser (Span × List Stmt)
  | 0 => unexpected .openBrace
  | n + 1 => do
    let opening ← expect (.punct .lbrace) .openBrace
    let body ← statements n
    let _ ← expect (.punct .rbrace) .closeBrace
    return (← spanFrom opening.start, body)

/-- statements up to a closing brace or the end -/
def statements : Nat → Parser (List Stmt)
  | 0 => unexpected .closeBrace
  | n + 1 => do
    let kind ← peek
    if kind = .punct .rbrace ∨ kind = .eof then return []
    else
      let s ← statement n
      let rest ← statements n
      return s :: rest

end

/-! ## Items -/

/-- parameters up to the closing parenthesis; a comma may stand before it -/
def parameters : Nat → Parser (List Param)
  | 0 => unexpected .closeParen
  | n + 1 => do
    if (← peek) = .punct .rparen then return []
    else
      let start ← nextStart
      let ty ← parseType
      let (name, _) ← expectName .parameterName
      let param : Param := ⟨← fresh, ← spanFrom start, name, ty⟩
      if (← peek) ≠ .punct .rparen then
        let _ ← expect (.punct .comma) .commaOrCloseParen
      let rest ← parameters n
      return param :: rest

/-- the rest of a function after its name; `(void)` stands for no parameters -/
def finishFunction (start : Nat) (result : Ty) (name : String) (nameSpan : Span) : Parser FunctionDecl := do
  let _ ← expect (.punct .lparen) .openParen
  let s ← get
  -- without the parenthesis the `void` is a parameter type, which the checker refuses
  if s.kindAt 0 = .keyword .void ∧ s.kindAt 1 = .punct .rparen then advance
  let params ← parameters (← get).calls
  let _ ← expect (.punct .rparen) .closeParen
  let (bodySpan, body) ← block (← get).calls
  return ⟨← spanFrom start, name, nameSpan, result, params, bodySpan, body⟩

/-- a function or a global variable -/
def item : Parser Item := do
  let start ← nextStart
  let ty ← parseType
  let (name, nameSpan) ← expectName .itemName
  if (← peek) = .punct .lparen then
    if ty.isConst then throw ⟨.constResult, ← spanFrom start⟩
    else return .function (← finishFunction start ty name nameSpan)
  else return .global (← finishDecl start ty name nameSpan)

/-- items up to the end of the source -/
def items : Nat → Parser (List Item)
  | 0 => unexpected .type_
  | n + 1 => do
    match ← peek with
    | .eof => return []
    | .keyword .struct => rejectStruct
    | _ =>
      let first ← item
      let rest ← items n
      return first :: rest

/-- a whole program -/
def program : Parser Program := do
  let found ← items (← get).calls
  return ⟨found, ⟨0, (← get).last.stop⟩⟩

/-- the result of a call, without the state -/
def outcome {α : Type} : EStateM.Result (Located GrammarCause) State α → Except (Located GrammarCause) α
  | .ok a _ => .ok a
  | .error e _ => .error e

end Parser

/-- the program that a list of tokens spells -/
def Program.parse (tokens : List Token) : Except (Located GrammarCause) Program :=
  Parser.outcome (Parser.program.run (.start tokens))

end C15
