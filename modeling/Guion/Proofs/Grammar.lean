import Guion.Parse.State
import Guion.Proofs.Written
import Guion.Token.Lexer

namespace Guion

open Double (isDigit)
open Parse (Connective)

inductive Terminal.Matches : Terminal → List Char → Prop where
  | name {c : Char} {cs : List Char} :
    isNameStart c → (∀ d ∈ cs, isNamePart d) → Matches .name (c :: cs)
  | integer {ds : List Char} : ds ≠ [] → (∀ d ∈ ds, isDigit d) → Matches .integer ds
  | decimal {whole fraction : List Char} :
    Matches .integer whole → Matches .integer fraction →
      Matches .decimal (whole ++ '.' :: fraction)
  | text {inner : List Char} :
    (∀ c ∈ inner, c ≠ '"' ∧ c ≠ '\n') → Matches .text ('"' :: (inner ++ ['"']))
  | keyword (k : Keyword) : Matches (.keyword k) k.chars
  | symbol (s : Symbol) : Matches (.symbol s) s.chars

/-- What may stand between tokens. A block comment ends at the first end that it has. -/
inductive IsLayout : List Char → Prop where
  | space {cs : List Char} : cs ≠ [] → (∀ c ∈ cs, isSpace c) → IsLayout cs
  | line {cs : List Char} : (∀ c ∈ cs, c ≠ '\n') → IsLayout ('/' :: '/' :: cs)
  | block {cs : List Char} :
    ¬ ['*', '/'] <:+: cs ++ ['*'] → IsLayout ('/' :: '*' :: (cs ++ ['*', '/']))

/-- A text from a place on is layout and the given tokens, each at its own place. -/
inductive Splits : Mark → List Char → List Token → Prop where
  | nil {mark : Mark} : Splits mark [] []
  | layout {mark : Mark} {piece cs : List Char} {ts : List Token} :
    IsLayout piece → Splits (mark.advance piece) cs ts → Splits mark (piece ++ cs) ts
  | token {t : Token} {cs : List Char} {ts : List Token} :
    t.terminal.Matches t.text → Splits (t.mark.advance t.text) cs ts →
      Splits t.mark (t.text ++ cs) (t :: ts)

namespace Grammar

def start (ts : List Token) : Pos :=
  (ts.head?.map (·.mark.pos)).getD .none

inductive Layer where
  | assignment
  | disjunction
  | conjunction
  | equality
  | relational
  | additive
  | power
  | multiplicative
  | unary
  | primary
deriving DecidableEq, Repr

namespace Layer

def next? : Layer → Option Layer
  | assignment => some disjunction
  | disjunction => some conjunction
  | conjunction => some equality
  | equality => some relational
  | relational => some additive
  | additive => some power
  | power => some multiplicative
  | multiplicative => some unary
  | unary => some primary
  | primary => none

def operators : Layer → List (Terminal × Connective)
  | disjunction => [(.keyword .o, .logical .or)]
  | conjunction => [(.keyword .y, .logical .and)]
  | equality => [(.symbol .equal, .binary .equal), (.symbol .notEqual, .binary .notEqual)]
  | relational =>
    [(.symbol .less, .binary .less), (.symbol .lessEqual, .binary .lessEqual),
      (.symbol .greater, .binary .greater), (.symbol .greaterEqual, .binary .greaterEqual)]
  | additive => [(.symbol .plus, .binary .add), (.symbol .minus, .binary .sub)]
  | power => [(.symbol .caret, .binary .pow)]
  | multiplicative =>
    [(.symbol .star, .binary .mul), (.symbol .slash, .binary .div),
      (.symbol .percent, .binary .mod)]
  | _ => []

/-- The layer of an operator's left operand. Operators associate to the left, but powers do not
chain. -/
def left : Layer → Layer
  | power => multiplicative
  | layer => layer

end Layer

def signs : List (Terminal × UnaryOp) :=
  [(.keyword .no, .not), (.symbol .minus, .minus), (.symbol .plus, .plus)]

def node (pos : Pos) (left right : Expr) : Connective → Expr
  | .logical op => .logical pos op left right
  | .binary op => .binary pos op left right

inductive Denotes : Token → Literal → Prop where
  | integer {t : Token} :
    t.terminal = .integer → Denotes t (.integer (.int (Double.digitsValue t.text)))
  | decimal {t : Token} {whole fraction : List Char} :
    t.terminal = .decimal → t.text = whole ++ '.' :: fraction → (∀ d ∈ whole, isDigit d) →
      Denotes t (.decimal (Double.ofDigits whole fraction 0))
  | text {t : Token} {inner : List Char} :
    t.terminal = .text → t.text = '"' :: (inner ++ ['"']) →
      Denotes t (.text (String.ofList inner))
  | verdadero {t : Token} : t.terminal = .keyword .verdadero → Denotes t (.truth true)
  | falso {t : Token} : t.terminal = .keyword .falso → Denotes t (.truth false)

inductive Term where
  | expr (layer : Layer) (e : Expr)
  | arguments (es : List Expr)

/-- The productions of expressions. A node stands where its first token does, and brackets leave
none. -/
inductive Term.Derives : Term → List Token → Prop where
  | tighter {layer above : Layer} {e : Expr} {ts : List Token} :
    layer.next? = some above → Derives (.expr above e) ts → Derives (.expr layer e) ts
  | assign {t u : Token} {e : Expr} {ts : List Token} :
    t.terminal = .name → u.terminal = .symbol .assign → Derives (.expr .assignment e) ts →
      Derives (.expr .assignment (.assign t.mark.pos (String.ofList t.text) e)) (t :: u :: ts)
  | join {layer above : Layer} {t : Token} {op : Connective} {left right : Expr}
    {ls rs : List Token} :
    layer.next? = some above → (t.terminal, op) ∈ layer.operators →
      Derives (.expr layer.left left) ls → Derives (.expr above right) rs →
      Derives (.expr layer (node (start ls) left right op)) (ls ++ t :: rs)
  | sign {t : Token} {op : UnaryOp} {e : Expr} {ts : List Token} :
    (t.terminal, op) ∈ signs → Derives (.expr .unary e) ts →
      Derives (.expr .unary (.unary t.mark.pos op e)) (t :: ts)
  | literal {t : Token} {l : Literal} :
    Denotes t l → Derives (.expr .primary (.literal t.mark.pos l)) [t]
  | name {t : Token} :
    t.terminal = .name → Derives (.expr .primary (.name t.mark.pos (String.ofList t.text))) [t]
  | read {t u v : Token} :
    t.terminal = .keyword .leer → u.terminal = .symbol .parenOpen →
      v.terminal = .symbol .parenClose → Derives (.expr .primary (.read t.mark.pos)) [t, u, v]
  | callNone {t u v : Token} :
    t.terminal = .name → u.terminal = .symbol .parenOpen → v.terminal = .symbol .parenClose →
      Derives (.expr .primary (.call t.mark.pos (String.ofList t.text) [])) [t, u, v]
  | call {t u v : Token} {es : List Expr} {ts : List Token} :
    t.terminal = .name → u.terminal = .symbol .parenOpen → Derives (.arguments es) ts →
      v.terminal = .symbol .parenClose →
      Derives (.expr .primary (.call t.mark.pos (String.ofList t.text) es)) (t :: u :: (ts ++ [v]))
  | group {t u : Token} {e : Expr} {ts : List Token} :
    t.terminal = .symbol .parenOpen → Derives (.expr .assignment e) ts →
      u.terminal = .symbol .parenClose → Derives (.expr .primary e) (t :: (ts ++ [u]))
  | argument {e : Expr} {ts : List Token} :
    Derives (.expr .assignment e) ts → Derives (.arguments [e]) ts
  | nextArgument {t : Token} {es : List Expr} {e : Expr} {ts us : List Token} :
    Derives (.arguments es) ts → t.terminal = .symbol .comma → Derives (.expr .assignment e) us →
      Derives (.arguments (es ++ [e])) (ts ++ t :: us)

inductive Parameters : List Param → List Token → Prop where
  | one {t u : Token} {kind : Kind} :
    t.terminal = .keyword (.type kind) → u.terminal = .name →
      Parameters [⟨t.mark.pos, .known kind, String.ofList u.text⟩] [t, u]
  | next {t u v : Token} {kind : Kind} {ps : List Param} {ts : List Token} :
    Parameters ps ts → t.terminal = .symbol .comma → u.terminal = .keyword (.type kind) →
      v.terminal = .name →
      Parameters (ps ++ [⟨u.mark.pos, .known kind, String.ofList v.text⟩]) (ts ++ [t, u, v])

inductive Category where
  | declaration
  | binding
  | statement
  | block
deriving DecidableEq, Repr

inductive Phrase where
  | one (category : Category) (s : Stmt)
  | body (ss : List Stmt)

/-- The productions of programs. A `sino` belongs to the innermost `si` that is open, so what
stands before it must not end in an open one. -/
inductive Phrase.Derives : Phrase → List Token → Prop where
  | nil : Derives (.body []) []
  | snoc {ss : List Stmt} {s : Stmt} {ts us : List Token} :
    Derives (.body ss) ts → Derives (.one .declaration s) us →
      Derives (.body (ss ++ [s])) (ts ++ us)
  | binding {s : Stmt} {ts : List Token} :
    Derives (.one .binding s) ts → Derives (.one .declaration s) ts
  | statement {s : Stmt} {ts : List Token} :
    Derives (.one .statement s) ts → Derives (.one .declaration s) ts
  | block {s : Stmt} {ts : List Token} :
    Derives (.one .block s) ts → Derives (.one .statement s) ts
  | declare {t u v : Token} {kind : Kind} :
    t.terminal = .keyword (.type kind) → u.terminal = .name → v.terminal = .symbol .semicolon →
      Derives (.one .binding (.declare t.mark.pos (.known kind) (String.ofList u.text) none))
        [t, u, v]
  | initial {t u v w : Token} {kind : Kind} {e : Expr} {ts : List Token} :
    t.terminal = .keyword (.type kind) → u.terminal = .name → v.terminal = .symbol .assign →
      (Term.expr .assignment e).Derives ts → w.terminal = .symbol .semicolon →
      Derives (.one .binding (.declare t.mark.pos (.known kind) (String.ofList u.text) (some e)))
        (t :: u :: v :: (ts ++ [w]))
  | functionNone {t u v : Token} {body : Stmt} {ts : List Token} :
    t.terminal = .name → u.terminal = .symbol .parenOpen → v.terminal = .symbol .parenClose →
      Derives (.one .block body) ts →
      Derives (.one .declaration (.function t.mark.pos (String.ofList t.text) [] body))
        (t :: u :: v :: ts)
  | function {t u v : Token} {ps : List Param} {body : Stmt} {ts us : List Token} :
    t.terminal = .name → u.terminal = .symbol .parenOpen → Parameters ps ts →
      v.terminal = .symbol .parenClose → Derives (.one .block body) us →
      Derives (.one .declaration (.function t.mark.pos (String.ofList t.text) ps body))
        (t :: u :: (ts ++ v :: us))
  | braces {t u : Token} {ss : List Stmt} {ts : List Token} :
    t.terminal = .symbol .braceOpen → Derives (.body ss) ts → u.terminal = .symbol .braceClose →
      Derives (.one .block (.block t.mark.pos ss)) (t :: (ts ++ [u]))
  | branch {t u v : Token} {e : Expr} {s : Stmt} {ts us : List Token} :
    t.terminal = .keyword .si → u.terminal = .symbol .parenOpen →
      (Term.expr .assignment e).Derives ts → v.terminal = .symbol .parenClose →
      Derives (.one .statement s) us →
      Derives (.one .statement (.branch t.mark.pos e s none)) (t :: u :: (ts ++ v :: us))
  | branchElse {t u v w : Token} {e : Expr} {yes no : Stmt} {ts us vs : List Token} :
    t.terminal = .keyword .si → u.terminal = .symbol .parenOpen →
      (Term.expr .assignment e).Derives ts → v.terminal = .symbol .parenClose →
      Derives (.one .statement yes) us → yes.endsOpen = false → w.terminal = .keyword .sino →
      Derives (.one .statement no) vs →
      Derives (.one .statement (.branch t.mark.pos e yes (some no)))
        (t :: u :: (ts ++ v :: (us ++ w :: vs)))
  | whileLoop {t u v : Token} {e : Expr} {s : Stmt} {ts us : List Token} :
    t.terminal = .keyword .mientras → u.terminal = .symbol .parenOpen →
      (Term.expr .assignment e).Derives ts → v.terminal = .symbol .parenClose →
      Derives (.one .statement s) us →
      Derives (.one .statement (.whileLoop t.mark.pos e s)) (t :: u :: (ts ++ v :: us))
  | forLoop {t u v w : Token} {initial body : Stmt} {test update : Expr}
    {ts us vs ws : List Token} :
    t.terminal = .keyword .para → u.terminal = .symbol .parenOpen →
      Derives (.one .binding initial) ts → (Term.expr .assignment test).Derives us →
      v.terminal = .symbol .semicolon → (Term.expr .assignment update).Derives vs →
      w.terminal = .symbol .parenClose → Derives (.one .statement body) ws →
      Derives (.one .statement (.forLoop t.mark.pos initial test update body))
        (t :: u :: (ts ++ (us ++ v :: (vs ++ w :: ws))))
  | returnsNone {t u : Token} :
    t.terminal = .keyword .retornar → u.terminal = .symbol .semicolon →
      Derives (.one .statement (.returns t.mark.pos none)) [t, u]
  | returns {t u : Token} {e : Expr} {ts : List Token} :
    t.terminal = .keyword .retornar → (Term.expr .assignment e).Derives ts →
      u.terminal = .symbol .semicolon →
      Derives (.one .statement (.returns t.mark.pos (some e))) (t :: (ts ++ [u]))
  | print {t u : Token} {e : Expr} {ts : List Token} :
    t.terminal = .keyword .imprimir → (Term.expr .assignment e).Derives ts →
      u.terminal = .symbol .semicolon →
      Derives (.one .statement (.print t.mark.pos e)) (t :: (ts ++ [u]))
  | breaks {t u : Token} :
    t.terminal = .keyword .romper → u.terminal = .symbol .semicolon →
      Derives (.one .statement (.breaks t.mark.pos)) [t, u]
  | continues {t u : Token} :
    t.terminal = .keyword .continuar → u.terminal = .symbol .semicolon →
      Derives (.one .statement (.continues t.mark.pos)) [t, u]
  | expr {t : Token} {e : Expr} {ts : List Token} :
    (Term.expr .assignment e).Derives ts → t.terminal = .symbol .semicolon →
      Derives (.one .statement (.expr (start ts) e)) (ts ++ [t])

end Grammar

end Guion
