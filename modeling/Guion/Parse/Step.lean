import Guion.Double.Read
import Guion.Parse.Accept

namespace Guion.Parse

namespace Connective

def level : Connective → Nat
  | logical .or => 1
  | logical _ => 2
  | binary .equal => 3
  | binary .notEqual => 3
  | binary .less => 4
  | binary .lessEqual => 4
  | binary .greater => 4
  | binary .greaterEqual => 4
  | binary .add => 5
  | binary .sub => 5
  | binary .pow => 6
  | binary _ => 7

def ofTerminal? : Terminal → Option Connective
  | .keyword .o => some (logical .or)
  | .keyword .y => some (logical .and)
  | .symbol .equal => some (binary .equal)
  | .symbol .notEqual => some (binary .notEqual)
  | .symbol .less => some (binary .less)
  | .symbol .lessEqual => some (binary .lessEqual)
  | .symbol .greater => some (binary .greater)
  | .symbol .greaterEqual => some (binary .greaterEqual)
  | .symbol .plus => some (binary .add)
  | .symbol .minus => some (binary .sub)
  | .symbol .star => some (binary .mul)
  | .symbol .slash => some (binary .div)
  | .symbol .percent => some (binary .mod)
  | .symbol .caret => some (binary .pow)
  | _ => none

def join (op : Connective) (left right : Operand) : Operand :=
  ⟨left.start,
    match op with
    | logical op => .logical left.start.pos op left.expr right.expr
    | binary op => .binary left.start.pos op left.expr right.expr⟩

end Connective

def UnaryOp.ofTerminal? : Terminal → Option UnaryOp
  | .symbol .plus => some .plus
  | .symbol .minus => some .minus
  | .keyword .no => some .not
  | _ => none

/-- Apply the operators that bind at least as tightly as a level to the operand on their right. -/
def reduce (level : Nat) : List Pending → Operand → List Pending × Operand
  | .right op left :: rest, e =>
    if level ≤ op.level then reduce level rest (op.join left e) else (.right op left :: rest, e)
  | .unary op start :: rest, e => reduce level rest ⟨start, .unary start.pos op e.expr⟩
  | rest, e => (rest, e)

def collapse : List Pending → Operand → List Pending × Operand
  | .right op left :: rest, e => collapse rest (op.join left e)
  | .unary op start :: rest, e => collapse rest ⟨start, .unary start.pos op e.expr⟩
  | .assign name start :: rest, e => collapse rest ⟨start, .assign start.pos name e.expr⟩
  | rest, e => (rest, e)

/-- Put an operator after an operand. Powers do not chain: after the right operand of one, another
has no place. -/
def connect? (op : Connective) (pending : List Pending) (e : Operand) : Option (List Pending) :=
  match op with
  | .binary .pow =>
    match reduce 7 pending e with
    | (.right (.binary .pow) _ :: _, _) => none
    | (rest, e) => some (.right op e :: rest)
  | op =>
    let (rest, e) := reduce op.level pending e
    some (.right op e :: rest)

def beginsExpr : List Pending → Bool
  | .right .. :: _ => false
  | .unary .. :: _ => false
  | _ => true

def textOf (t : Token) : String :=
  String.ofList t.text

def typeOf? (t : Token) : Option Kind :=
  match t.terminal with
  | .keyword (.type kind) => some kind
  | _ => none

def literal? (t : Token) : Option Literal :=
  match t.terminal with
  | .integer => some (.integer (.int (Double.digitsValue t.text)))
  | .decimal =>
    let whole := t.text.takeWhile Double.isDigit
    some (.decimal (Double.ofDigits whole (t.text.drop (whole.length + 1)) 0))
  | .text => some (.text (String.ofList (t.text.drop 1).dropLast))
  | .keyword .verdadero => some (.truth true)
  | .keyword .falso => some (.truth false)
  | _ => none

def operand? (hole : Hole) (pending : List Pending) (t : Token) : Option Focus :=
  match literal? t with
  | some value => some (.operand .closed ⟨t.mark, .literal t.mark.pos value⟩ hole pending)
  | none =>
    match UnaryOp.ofTerminal? t.terminal with
    | some op => some (.want .operand hole (.unary op t.mark :: pending))
    | none =>
      match t.terminal with
      | .name =>
        let name := textOf t
        some (.operand (.name name (beginsExpr pending)) ⟨t.mark, .name t.mark.pos name⟩ hole pending)
      | .symbol .parenOpen => some (.want .operand hole (.group t.mark :: pending))
      | .keyword .leer => some (.reader false t.mark hole pending)
      | _ => none

def statement? (t : Token) : Option Focus :=
  match t.terminal with
  | .keyword .si => some (.head .si t.mark)
  | .keyword .mientras => some (.head .mientras t.mark)
  | .keyword .para => some (.head .para t.mark)
  | .keyword .retornar => some (.returning t.mark)
  | .keyword .imprimir => some (.want .operand (.printed t.mark) [])
  | .keyword .romper => some (.jump (.breaks t.mark.pos))
  | .keyword .continuar => some (.jump (.continues t.mark.pos))
  | _ => none

namespace State

/-- Put a finished statement into its place. A `si` without `sino` around it stays open as long as
`hold` is set. -/
def settle (hold : Bool) (before : List Stmt) (s : Stmt) : List Enclosing → State
  | [] => ⟨s :: before, [], .ready .statement⟩
  | .block start done :: up => ⟨before, .block start (s :: done) :: up, .ready .statement⟩
  | .function start name params :: up =>
    settle hold before (.function start.pos name params s) up
  | .yes start test :: up =>
    if hold then ⟨before, .yes start test :: up, .orElse s⟩
    else settle hold before (.branch start.pos test s none) up
  | .no start test yes :: up => settle hold before (.branch start.pos test yes (some s)) up
  | .whileBody start test :: up => settle hold before (.whileLoop start.pos test s) up
  | .forBody start initial test update :: up =>
    settle hold before (.forLoop start.pos initial test update s) up

def finish (st : State) (s : Stmt) : State :=
  settle true st.before s st.around

def declared (st : State) (owner : Owner) (s : Stmt) : State :=
  match owner with
  | .head start => { st with focus := .want .afterDeclaration (.forTest start s) [] }
  | .body =>
    { settle true st.before s st.around with focus := .ready .declaration }

def openBlock (st : State) (mark : Mark) : State :=
  { st with around := .block mark [] :: st.around, focus := .ready .opened }

def closeBlock? (st : State) : Option State :=
  match st.around with
  | .block start done :: up =>
    some (settle true st.before (.block start.pos done.reverse) up)
  | _ => none

def inStatement? (st : State) (t : Token) : Option State :=
  if t.terminal = .symbol .braceOpen then some (st.openBlock t.mark)
  else
    ((statement? t).or (operand? .statement [] t)).map fun focus => { st with focus }

def inBody? (st : State) (t : Token) : Option State :=
  match typeOf? t with
  | some kind => some { st with focus := .typed .body t.mark kind }
  | none =>
    if t.terminal = .name then some { st with focus := .firstName t.mark (textOf t) }
    else if t.terminal = .symbol .braceClose then st.closeBlock?
    else st.inStatement? t

def atSemicolon? (st : State) (hole : Hole) (e : Operand) : Option State :=
  match hole with
  | .statement => some (st.finish (.expr e.start.pos e.expr))
  | .printed start => some (st.finish (.print start.pos e.expr))
  | .returned start => some (st.finish (.returns start.pos (some e.expr)))
  | .initial owner start kind name =>
    some (st.declared owner (.declare start.pos (.known kind) name (some e.expr)))
  | .forTest start initial =>
    some { st with focus := .want .operand (.forUpdate start initial e.expr) [] }
  | _ => none

def atClose? (st : State) (hole : Hole) (e : Operand) : Option State :=
  let into (frame : Enclosing) : State := { st with around := frame :: st.around, focus := .statement }
  match hole with
  | .branchTest start => some (into (.yes start e.expr))
  | .whileTest start => some (into (.whileBody start e.expr))
  | .forUpdate start initial test => some (into (.forBody start initial test e.expr))
  | _ => none

def close? (st : State) (hole : Hole) (pending : List Pending) (e : Operand) : Option State :=
  match collapse pending e with
  | (.group start :: rest, e) =>
    some { st with focus := .operand .closed ⟨start, e.expr⟩ hole rest }
  | (.call name start before :: rest, e) =>
    let call := Expr.call start.pos name (e.expr :: before).reverse
    some { st with focus := .operand .closed ⟨start, call⟩ hole rest }
  | ([], e) => st.atClose? hole e
  | _ => none

def nextArgument? (st : State) (hole : Hole) (pending : List Pending) (e : Operand) :
    Option State :=
  match collapse pending e with
  | (.call name start before :: rest, e) =>
    some { st with focus := .want .operand hole (.call name start (e.expr :: before) :: rest) }
  | _ => none

def endExpr? (st : State) (hole : Hole) (pending : List Pending) (e : Operand) : Option State :=
  match collapse pending e with
  | ([], e) => st.atSemicolon? hole e
  | _ => none

def afterName? (st : State) (name : String) (assignable : Bool) (e : Operand) (hole : Hole)
    (pending : List Pending) (t : Token) : Option State :=
  if t.terminal = .symbol .parenOpen then
    some { st with focus := .want .firstArgument hole (.call name e.start [] :: pending) }
  else if t.terminal = .symbol .assign ∧ assignable then
    some { st with focus := .want .operand hole (.assign name e.start :: pending) }
  else none

def afterOperand? (st : State) (form : Form) (e : Operand) (hole : Hole) (pending : List Pending)
    (t : Token) : Option State :=
  match Connective.ofTerminal? t.terminal with
  | some op =>
    (connect? op pending e).map fun pending => { st with focus := .want .operand hole pending }
  | none =>
    if t.terminal = .symbol .parenClose then st.close? hole pending e
    else if t.terminal = .symbol .comma then st.nextArgument? hole pending e
    else if t.terminal = .symbol .semicolon then st.endExpr? hole pending e
    else
      match form with
      | .name name assignable => st.afterName? name assignable e hole pending t
      | .closed => none

def wanted? (st : State) (hole : Hole) (pending : List Pending) (t : Token) : Option State :=
  (operand? hole pending t).map fun focus => { st with focus }

def afterYes? (st : State) (yes : Stmt) (t : Token) : Option State :=
  if t.terminal = .keyword .sino then
    match st.around with
    | .yes start test :: up =>
      some { st with around := .no start test yes :: up, focus := .statement }
    | _ => none
  else (settle false st.before yes st.around).inBody? t

def afterNamed? (st : State) (owner : Owner) (start : Mark) (kind : Kind) (name : String)
    (t : Token) : Option State :=
  if t.terminal = .symbol .semicolon then
    some (st.declared owner (.declare start.pos (.known kind) name none))
  else if t.terminal = .symbol .assign then
    some { st with focus := .want .operand (.initial owner start kind name) [] }
  else none

def opened (start : Mark) : Head → Focus
  | .si => .want .operand (.branchTest start) []
  | .mientras => .want .operand (.whileTest start) []
  | .para => .forHead start

def afterFirstOpen? (st : State) (start : Mark) (name : String) (t : Token) : Option State :=
  if t.terminal = .symbol .parenClose then some { st with focus := .firstEmpty start name }
  else
    match typeOf? t with
    | some kind => some { st with focus := .paramType start name [] t.mark kind }
    | none => st.wanted? .statement [.call name start []] t

def openFunction (st : State) (start : Mark) (name : String) (params : List Param) (mark : Mark) :
    State :=
  { st with around := .function start name params :: st.around }.openBlock mark

def afterParam? (st : State) (start : Mark) (name : String) (before : List Param) (t : Token) :
    Option State :=
  if t.terminal = .symbol .comma then some { st with focus := .param start name before }
  else if t.terminal = .symbol .parenClose then
    some { st with focus := .functionHead start name before.reverse }
  else none

def firstArgument? (st : State) (hole : Hole) (pending : List Pending) (t : Token) :
    Option State :=
  match pending with
  | .call name start [] :: rest =>
    if t.terminal = .symbol .parenClose then
      some { st with focus := .operand .closed ⟨start, .call start.pos name []⟩ hole rest }
    else st.wanted? hole pending t
  | _ => none

def expect? (terminal : Terminal) (st : State) (t : Token) : Option State :=
  if t.terminal = terminal then some st else none

def expectType? (st : State) (t : Token) (focus : Kind → Focus) : Option State :=
  (typeOf? t).map fun kind => { st with focus := focus kind }

/-- Read one token, where it has a place. -/
def next? (st : State) (t : Token) : Option State :=
  match st.focus with
  | .ready _ => st.inBody? t
  | .orElse yes => st.afterYes? yes t
  | .statement => st.inStatement? t
  | .typed owner start kind =>
    expect? .name { st with focus := .named owner start kind (textOf t) } t
  | .named owner start kind name => st.afterNamed? owner start kind name t
  | .head head start => expect? (.symbol .parenOpen) { st with focus := opened start head } t
  | .forHead start => st.expectType? t (.typed (.head start) t.mark)
  | .jump s => expect? (.symbol .semicolon) (st.finish s) t
  | .returning start =>
    if t.terminal = .symbol .semicolon then some (st.finish (.returns start.pos none))
    else st.wanted? (.returned start) [] t
  | .firstName start name =>
    if t.terminal = .symbol .parenOpen then some { st with focus := .firstOpen start name }
    else st.afterOperand? (.name name true) ⟨start, .name start.pos name⟩ .statement [] t
  | .firstOpen start name => st.afterFirstOpen? start name t
  | .firstEmpty start name =>
    if t.terminal = .symbol .braceOpen then some (st.openFunction start name [] t.mark)
    else st.afterOperand? .closed ⟨start, .call start.pos name []⟩ .statement [] t
  | .param start name before => st.expectType? t (.paramType start name before t.mark)
  | .paramType start name before place kind =>
    let param : Param := ⟨place.pos, .known kind, textOf t⟩
    expect? .name { st with focus := .paramName start name (param :: before) } t
  | .paramName start name before => st.afterParam? start name before t
  | .functionHead start name params =>
    expect? (.symbol .braceOpen) (st.openFunction start name params t.mark) t
  | .want .firstArgument hole pending => st.firstArgument? hole pending t
  | .want _ hole pending => st.wanted? hole pending t
  | .reader false start hole pending =>
    expect? (.symbol .parenOpen) { st with focus := .reader true start hole pending } t
  | .reader true start hole pending =>
    expect? (.symbol .parenClose)
      { st with focus := .operand .closed ⟨start, .read start.pos⟩ hole pending } t
  | .operand form e hole pending => st.afterOperand? form e hole pending t

/-- The program that was read, where nothing is left unfinished. -/
def program? (st : State) : Option Program :=
  let st := match st.focus with
    | .orElse s => settle false st.before s st.around
    | _ => st
  match st.around, st.focus with
  | [], .ready _ =>
    let body := st.before.reverse
    some ⟨(body.head?.map Stmt.pos).getD .none, body⟩
  | _, _ => none

end State

end Guion.Parse
