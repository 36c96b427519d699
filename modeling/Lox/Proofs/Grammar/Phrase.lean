import Lox.Syntax.Basic
import Lox.Token.Basic

/-!
# The grammar

The words of the language, said without a reader.  `Phrase` and `Sentence` pair the rules of the
grammar with the tree that a derivation builds, and `Derives` says which tokens they derive from:

    expression  → ( call "." )? NAME "=" expression | or
    or          → and ( "or" and )*
    and         → equality ( "and" equality )*
    equality    → comparison ( ( "!=" | "==" ) comparison )*
    comparison  → term ( ( ">" | ">=" | "<" | "<=" ) term )*
    term        → factor ( ( "-" | "+" ) factor )*
    factor      → unary ( ( "/" | "*" ) unary )*
    unary       → ( "!" | "-" ) unary | call
    call        → primary ( "(" arguments? ")" | "." NAME )*
    primary     → constant | "this" | NAME | "(" expression ")" | "super" "." NAME

    program     → declaration*
    declaration → "class" NAME ( "<" NAME )? "{" subroutine* "}"
                | "fun" subroutine | "var" variable | statement
    subroutine  → NAME "(" parameters? ")" block
    variable    → NAME ( "=" expression )? ";"
    statement   → expression ";"
                | "for" "(" ( "var" variable | expression ";" | ";" )
                    expression? ";" expression? ")" statement
                | "if" "(" expression ")" statement ( "else" statement )?
                | "print" expression ";" | "return" expression? ";"
                | "while" "(" expression ")" statement | block
    block       → "{" declaration* "}"

Two things are said beside the rules.  Lists of arguments and of parameters have at most 255 items.
And a statement is *open* if an `else` behind it would belong to it; what stands before an `else` is
not open, so that every `else` belongs to the nearest `if` that can take it.

References take their identities in the order of the tokens: a derivation goes from the first unused
identity before its tokens to the first unused one behind them.  A name that turns out to be the
target of an assignment takes one where it stands, and the reference of the assignment another one
behind the value.
-/

namespace Lox.Grammar

/-- The name that a token spells. -/
def nameOf (token : Token) : Name := ⟨token.lexeme, token.line⟩

/-- The greatest number of items in a list of arguments or parameters. -/
def maxItems : Nat := 255

/-! ## Expressions -/

/-- The levels of binary operators, the loosest first. -/
inductive Precedence
  | or | and | equality | comparison | term | factor
  deriving DecidableEq, Repr

/-- What an operator of a level builds from its line and its operands. -/
def Precedence.node? : Precedence → Token.Kind → Option (Nat → Expr → Expr → Expr)
  | .or, .keyword .or => some fun _ left right => .logical left .or right
  | .and, .keyword .and => some fun _ left right => .logical left .and right
  | .equality, .symbol .bangEqual => some fun line left right => .binary left .notEqual line right
  | .equality, .symbol .equalEqual => some fun line left right => .binary left .equal line right
  | .comparison, .symbol .greater => some fun line left right => .binary left .greater line right
  | .comparison, .symbol .greaterEqual =>
    some fun line left right => .binary left .greaterEqual line right
  | .comparison, .symbol .less => some fun line left right => .binary left .less line right
  | .comparison, .symbol .lessEqual => some fun line left right => .binary left .lessEqual line right
  | .term, .symbol .minus => some fun line left right => .binary left .subtract line right
  | .term, .symbol .plus => some fun line left right => .binary left .add line right
  | .factor, .symbol .slash => some fun line left right => .binary left .divide line right
  | .factor, .symbol .star => some fun line left right => .binary left .multiply line right
  | _, _ => none

/-- The operator that a token means before its operand. -/
def sign? : Token.Kind → Option UnaryOp
  | .symbol .bang => some .not
  | .symbol .minus => some .negate
  | _ => none

/-- The constant that a token means. -/
def constant? : Token.Kind → Option Literal
  | .keyword .false => some (.bool false)
  | .keyword .true => some (.bool true)
  | .keyword .nil => some .nil
  | .number value => some (.number value)
  | .string value => some (.string value)
  | _ => none

/-- A rule for expressions with the tree that it builds.  A `tail` is what follows a first operand
`left`, and `suffixes` are what follows a first `object`; `given` is a list of arguments that may be
absent. -/
inductive Phrase
  | expression (e : Expr)
  | level (p : Precedence) (e : Expr)
  | tail (p : Precedence) (left e : Expr)
  | unary (e : Expr)
  | call (e : Expr)
  | suffixes (object e : Expr)
  | primary (e : Expr)
  | arguments (args : List Expr)
  | given (args : List Expr)

/-- What the operators of a level join. -/
def Phrase.operand : Precedence → Expr → Phrase
  | .or, e => .level .and e
  | .and, e => .level .equality e
  | .equality, e => .level .comparison e
  | .comparison, e => .level .term e
  | .term, e => .level .factor e
  | .factor, e => .unary e

/-- **Derivations of expressions** from tokens, between two identities. -/
inductive Phrase.Derives : Phrase → NodeId → List Token → NodeId → Prop
  | assign {name equals : Token} {value : Expr} {ts : List Token} {n n' : NodeId}
      (hname : name.kind = .identifier) (hequals : equals.kind = .symbol .equal)
      (hvalue : Derives (.expression value) (n + 1) ts n') :
      Derives (.expression (.assign ⟨n', nameOf name⟩ value)) n (name :: equals :: ts) (n' + 1)
  | set {dot name equals : Token} {object value : Expr} {ts₁ ts₂ : List Token} {n n₁ n' : NodeId}
      (hobject : Derives (.call object) n ts₁ n₁) (hdot : dot.kind = .symbol .dot)
      (hname : name.kind = .identifier) (hequals : equals.kind = .symbol .equal)
      (hvalue : Derives (.expression value) n₁ ts₂ n') :
      Derives (.expression (.set object (nameOf name) value)) n
        (ts₁ ++ dot :: name :: equals :: ts₂) n'
  | operators {e : Expr} {ts : List Token} {n n' : NodeId} (h : Derives (.level .or e) n ts n') :
      Derives (.expression e) n ts n'
  | level {p : Precedence} {first e : Expr} {ts₁ ts₂ : List Token} {n n₁ n' : NodeId}
      (hfirst : Derives (.operand p first) n ts₁ n₁) (htail : Derives (.tail p first e) n₁ ts₂ n') :
      Derives (.level p e) n (ts₁ ++ ts₂) n'
  | tailEnd {p : Precedence} {left : Expr} {n : NodeId} : Derives (.tail p left left) n [] n
  | tailMore {p : Precedence} {build : Nat → Expr → Expr → Expr} {op : Token} {left right e : Expr}
      {ts₁ ts₂ : List Token} {n n₁ n' : NodeId} (hop : p.node? op.kind = some build)
      (hright : Derives (.operand p right) n ts₁ n₁)
      (hmore : Derives (.tail p (build op.line left right) e) n₁ ts₂ n') :
      Derives (.tail p left e) n (op :: (ts₁ ++ ts₂)) n'
  | signed {sign : Token} {op : UnaryOp} {operand : Expr} {ts : List Token} {n n' : NodeId}
      (hsign : sign? sign.kind = some op) (hoperand : Derives (.unary operand) n ts n') :
      Derives (.unary (.unary op sign.line operand)) n (sign :: ts) n'
  | unsigned {e : Expr} {ts : List Token} {n n' : NodeId} (h : Derives (.call e) n ts n') :
      Derives (.unary e) n ts n'
  | call {first e : Expr} {ts₁ ts₂ : List Token} {n n₁ n' : NodeId}
      (hfirst : Derives (.primary first) n ts₁ n₁) (hmore : Derives (.suffixes first e) n₁ ts₂ n') :
      Derives (.call e) n (ts₁ ++ ts₂) n'
  | suffixesEnd {object : Expr} {n : NodeId} : Derives (.suffixes object object) n [] n
  | suffixesCall {start close : Token} {object e : Expr} {args : List Expr} {ts₁ ts₂ : List Token}
      {n n₁ n' : NodeId} (hstart : start.kind = .symbol .leftParen)
      (hargs : Derives (.given args) n ts₁ n₁) (hclose : close.kind = .symbol .rightParen)
      (hmore : Derives (.suffixes (.call object close.line args) e) n₁ ts₂ n') :
      Derives (.suffixes object e) n (start :: (ts₁ ++ close :: ts₂)) n'
  | suffixesGet {dot name : Token} {object e : Expr} {ts : List Token} {n n' : NodeId}
      (hdot : dot.kind = .symbol .dot) (hname : name.kind = .identifier)
      (hmore : Derives (.suffixes (.get object (nameOf name)) e) n ts n') :
      Derives (.suffixes object e) n (dot :: name :: ts) n'
  | constant {token : Token} {value : Literal} {n : NodeId} (h : constant? token.kind = some value) :
      Derives (.primary (.literal value)) n [token] n
  | this {keyword : Token} {n : NodeId} (h : keyword.kind = .keyword .this) :
      Derives (.primary (.this ⟨n, nameOf keyword⟩)) n [keyword] (n + 1)
  | super {keyword dot method : Token} {n : NodeId} (h : keyword.kind = .keyword .super)
      (hdot : dot.kind = .symbol .dot) (hmethod : method.kind = .identifier) :
      Derives (.primary (.super ⟨n, nameOf keyword⟩ (nameOf method))) n [keyword, dot, method] (n + 1)
  | var {name : Token} {n : NodeId} (h : name.kind = .identifier) :
      Derives (.primary (.var ⟨n, nameOf name⟩)) n [name] (n + 1)
  | group {start close : Token} {inner : Expr} {ts : List Token} {n n' : NodeId}
      (hstart : start.kind = .symbol .leftParen) (hinner : Derives (.expression inner) n ts n')
      (hclose : close.kind = .symbol .rightParen) :
      Derives (.primary (.group inner)) n (start :: (ts ++ [close])) n'
  | argumentsOne {e : Expr} {ts : List Token} {n n' : NodeId} (h : Derives (.expression e) n ts n') :
      Derives (.arguments [e]) n ts n'
  | argumentsMore {comma : Token} {e : Expr} {args : List Expr} {ts₁ ts₂ : List Token}
      {n n₁ n' : NodeId} (h : Derives (.expression e) n ts₁ n₁) (hcomma : comma.kind = .symbol .comma)
      (hmore : Derives (.arguments args) n₁ ts₂ n') :
      Derives (.arguments (e :: args)) n (ts₁ ++ comma :: ts₂) n'
  | givenNone {n : NodeId} : Derives (.given []) n [] n
  | givenSome {args : List Expr} {ts : List Token} {n n' : NodeId}
      (h : Derives (.arguments args) n ts n') (hmax : args.length ≤ maxItems) :
      Derives (.given args) n ts n'

/-- Derivations of an expression that may be absent. -/
inductive DerivesOptional : Option Expr → NodeId → List Token → NodeId → Prop
  | absent {n : NodeId} : DerivesOptional none n [] n
  | present {e : Expr} {ts : List Token} {n n' : NodeId} (h : (Phrase.expression e).Derives n ts n') :
      DerivesOptional (some e) n ts n'

/-! ## Statements -/

/-- Derivations of a nonempty list of parameters. -/
inductive DerivesParameters : List Name → List Token → Prop
  | one {name : Token} (h : name.kind = .identifier) : DerivesParameters [nameOf name] [name]
  | more {name comma : Token} {params : List Name} {ts : List Token} (h : name.kind = .identifier)
      (hcomma : comma.kind = .symbol .comma) (hmore : DerivesParameters params ts) :
      DerivesParameters (nameOf name :: params) (name :: comma :: ts)

/-- Derivations of a list of parameters that may be absent. -/
inductive DerivesFormals : List Name → List Token → Prop
  | none : DerivesFormals [] []
  | some {params : List Name} {ts : List Token} (h : DerivesParameters params ts)
      (hmax : params.length ≤ maxItems) : DerivesFormals params ts

/-- Derivations of a superclass clause that may be absent. -/
inductive DerivesSuperclass : Option Reference → NodeId → List Token → NodeId → Prop
  | absent {n : NodeId} : DerivesSuperclass none n [] n
  | present {less name : Token} {n : NodeId} (hless : less.kind = .symbol .less)
      (hname : name.kind = .identifier) :
      DerivesSuperclass (some ⟨n, nameOf name⟩) n [less, name] (n + 1)

/-- Derivations of a variable's declaration behind its keyword. -/
inductive DerivesVariable : Stmt → NodeId → List Token → NodeId → Prop
  | plain {name close : Token} {n : NodeId} (hname : name.kind = .identifier)
      (hclose : close.kind = .symbol .semicolon) :
      DerivesVariable (.var (nameOf name) none) n [name, close] n
  | initialized {name equals close : Token} {value : Expr} {ts : List Token} {n n' : NodeId}
      (hname : name.kind = .identifier) (hequals : equals.kind = .symbol .equal)
      (hvalue : (Phrase.expression value).Derives n ts n')
      (hclose : close.kind = .symbol .semicolon) :
      DerivesVariable (.var (nameOf name) (some value)) n (name :: equals :: (ts ++ [close])) n'

/-- Derivations of what a counting loop begins with. -/
inductive DerivesInitializer : Option Stmt → NodeId → List Token → NodeId → Prop
  | absent {close : Token} {n : NodeId} (hclose : close.kind = .symbol .semicolon) :
      DerivesInitializer none n [close] n
  | var {keyword : Token} {s : Stmt} {ts : List Token} {n n' : NodeId}
      (hkeyword : keyword.kind = .keyword .var) (h : DerivesVariable s n ts n') :
      DerivesInitializer (some s) n (keyword :: ts) n'
  | expression {close : Token} {e : Expr} {ts : List Token} {n n' : NodeId}
      (h : (Phrase.expression e).Derives n ts n') (hclose : close.kind = .symbol .semicolon) :
      DerivesInitializer (some (.expr e)) n (ts ++ [close]) n'

/-- A rule for statements with the tree that it builds.  A `body` is a block behind its opening
brace, and a statement says whether it is open. -/
inductive Sentence
  | declarations (body : List Stmt)
  | declaration (s : Stmt)
  | statement (s : Stmt) (isOpen : Bool)
  | body (body : List Stmt)
  | subroutine (f : FunctionDecl)
  | subroutines (fs : List FunctionDecl)

/-- **Derivations of statements** from tokens, between two identities. -/
inductive Sentence.Derives : Sentence → NodeId → List Token → NodeId → Prop
  | declarationsEnd {n : NodeId} : Derives (.declarations []) n [] n
  | declarationsMore {s : Stmt} {body : List Stmt} {ts₁ ts₂ : List Token} {n n₁ n' : NodeId}
      (h : Derives (.declaration s) n ts₁ n₁) (hmore : Derives (.declarations body) n₁ ts₂ n') :
      Derives (.declarations (s :: body)) n (ts₁ ++ ts₂) n'
  | classDecl {keyword name start close : Token} {parent : Option Reference}
      {methods : List FunctionDecl} {ts₁ ts₂ : List Token} {n n₁ n' : NodeId}
      (hkeyword : keyword.kind = .keyword .cls) (hname : name.kind = .identifier)
      (hparent : DerivesSuperclass parent n ts₁ n₁) (hstart : start.kind = .symbol .leftBrace)
      (hmethods : Derives (.subroutines methods) n₁ ts₂ n')
      (hclose : close.kind = .symbol .rightBrace) :
      Derives (.declaration (.classDecl (nameOf name) parent methods)) n
        (keyword :: name :: (ts₁ ++ start :: (ts₂ ++ [close]))) n'
  | function {keyword : Token} {f : FunctionDecl} {ts : List Token} {n n' : NodeId}
      (hkeyword : keyword.kind = .keyword .fun) (h : Derives (.subroutine f) n ts n') :
      Derives (.declaration (.function f)) n (keyword :: ts) n'
  | var {keyword : Token} {s : Stmt} {ts : List Token} {n n' : NodeId}
      (hkeyword : keyword.kind = .keyword .var) (h : DerivesVariable s n ts n') :
      Derives (.declaration s) n (keyword :: ts) n'
  | statement {s : Stmt} {isOpen : Bool} {ts : List Token} {n n' : NodeId}
      (h : Derives (.statement s isOpen) n ts n') : Derives (.declaration s) n ts n'
  | expr {close : Token} {e : Expr} {ts : List Token} {n n' : NodeId}
      (h : (Phrase.expression e).Derives n ts n') (hclose : close.kind = .symbol .semicolon) :
      Derives (.statement (.expr e) false) n (ts ++ [close]) n'
  | forLoop {keyword start middle close : Token} {initializer : Option Stmt}
      {condition increment : Option Expr} {body : Stmt} {isOpen : Bool}
      {ts₁ ts₂ ts₃ ts₄ : List Token} {n n₁ n₂ n₃ n' : NodeId}
      (hkeyword : keyword.kind = .keyword .for) (hstart : start.kind = .symbol .leftParen)
      (hinitializer : DerivesInitializer initializer n ts₁ n₁)
      (hcondition : DerivesOptional condition n₁ ts₂ n₂)
      (hmiddle : middle.kind = .symbol .semicolon)
      (hincrement : DerivesOptional increment n₂ ts₃ n₃) (hclose : close.kind = .symbol .rightParen)
      (hbody : Derives (.statement body isOpen) n₃ ts₄ n') :
      Derives (.statement (.forLoop initializer condition increment body) isOpen) n
        (keyword :: start :: (ts₁ ++ (ts₂ ++ middle :: (ts₃ ++ close :: ts₄)))) n'
  | ifThen {keyword start close : Token} {condition : Expr} {thenBranch : Stmt} {isOpen : Bool}
      {ts₁ ts₂ : List Token} {n n₁ n' : NodeId} (hkeyword : keyword.kind = .keyword .if)
      (hstart : start.kind = .symbol .leftParen)
      (hcondition : (Phrase.expression condition).Derives n ts₁ n₁)
      (hclose : close.kind = .symbol .rightParen)
      (hthen : Derives (.statement thenBranch isOpen) n₁ ts₂ n') :
      Derives (.statement (.ifElse condition thenBranch none) true) n
        (keyword :: start :: (ts₁ ++ close :: ts₂)) n'
  | ifElse {keyword start close other : Token} {condition : Expr} {thenBranch elseBranch : Stmt}
      {isOpen : Bool} {ts₁ ts₂ ts₃ : List Token} {n n₁ n₂ n' : NodeId}
      (hkeyword : keyword.kind = .keyword .if) (hstart : start.kind = .symbol .leftParen)
      (hcondition : (Phrase.expression condition).Derives n ts₁ n₁)
      (hclose : close.kind = .symbol .rightParen)
      (hthen : Derives (.statement thenBranch false) n₁ ts₂ n₂)
      (hother : other.kind = .keyword .else)
      (helse : Derives (.statement elseBranch isOpen) n₂ ts₃ n') :
      Derives (.statement (.ifElse condition thenBranch (some elseBranch)) isOpen) n
        (keyword :: start :: (ts₁ ++ close :: (ts₂ ++ other :: ts₃))) n'
  | print {keyword close : Token} {e : Expr} {ts : List Token} {n n' : NodeId}
      (hkeyword : keyword.kind = .keyword .print) (h : (Phrase.expression e).Derives n ts n')
      (hclose : close.kind = .symbol .semicolon) :
      Derives (.statement (.print e) false) n (keyword :: (ts ++ [close])) n'
  | ret {keyword close : Token} {value : Option Expr} {ts : List Token} {n n' : NodeId}
      (hkeyword : keyword.kind = .keyword .return) (h : DerivesOptional value n ts n')
      (hclose : close.kind = .symbol .semicolon) :
      Derives (.statement (.ret (nameOf keyword) value) false) n (keyword :: (ts ++ [close])) n'
  | whileDo {keyword start close : Token} {condition : Expr} {body : Stmt} {isOpen : Bool}
      {ts₁ ts₂ : List Token} {n n₁ n' : NodeId} (hkeyword : keyword.kind = .keyword .while)
      (hstart : start.kind = .symbol .leftParen)
      (hcondition : (Phrase.expression condition).Derives n ts₁ n₁)
      (hclose : close.kind = .symbol .rightParen)
      (hbody : Derives (.statement body isOpen) n₁ ts₂ n') :
      Derives (.statement (.whileDo condition body) isOpen) n
        (keyword :: start :: (ts₁ ++ close :: ts₂)) n'
  | block {start : Token} {body : List Stmt} {ts : List Token} {n n' : NodeId}
      (hstart : start.kind = .symbol .leftBrace) (h : Derives (.body body) n ts n') :
      Derives (.statement (.block body) false) n (start :: ts) n'
  | body {close : Token} {body : List Stmt} {ts : List Token} {n n' : NodeId}
      (h : Derives (.declarations body) n ts n') (hclose : close.kind = .symbol .rightBrace) :
      Derives (.body body) n (ts ++ [close]) n'
  | subroutine {name start close brace : Token} {params : List Name} {body : List Stmt}
      {ts₁ ts₂ : List Token} {n n' : NodeId} (hname : name.kind = .identifier)
      (hstart : start.kind = .symbol .leftParen) (hparams : DerivesFormals params ts₁)
      (hclose : close.kind = .symbol .rightParen) (hbrace : brace.kind = .symbol .leftBrace)
      (hbody : Derives (.body body) n ts₂ n') :
      Derives (.subroutine ⟨nameOf name, params, body⟩) n
        (name :: start :: (ts₁ ++ close :: brace :: ts₂)) n'
  | subroutinesEnd {n : NodeId} : Derives (.subroutines []) n [] n
  | subroutinesMore {f : FunctionDecl} {fs : List FunctionDecl} {ts₁ ts₂ : List Token}
      {n n₁ n' : NodeId} (h : Derives (.subroutine f) n ts₁ n₁)
      (hmore : Derives (.subroutines fs) n₁ ts₂ n') :
      Derives (.subroutines (f :: fs)) n (ts₁ ++ ts₂) n'

end Lox.Grammar
