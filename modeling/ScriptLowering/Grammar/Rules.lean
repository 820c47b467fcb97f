import ScriptLowering.Grammar.State

/-!
# Grammar rules

Recursive descent over the token sequence. A rule takes fuel, which every call and every round
of a repetition uses up by one; `Grammar.parseFile` gives each run enough of it. Rules record
what is wrong and go on, so each of them always gives a tree.
-/

namespace ScriptLowering.Grammar

/-- The operator a token stands for between two operands. -/
def binaryOp? : Token.Kind → Option BinaryOp
  | .orOr => some .logicalOr
  | .andAnd => some .logicalAnd
  | .equal => some .eq
  | .notEqual => some .ne
  | .less => some .lt
  | .lessEqual => some .le
  | .greater => some .gt
  | .greaterEqual => some .ge
  | .plus => some .add
  | .minus => some .sub
  | .pipe => some .bitOr
  | .caret => some .bitXor
  | .star => some .mul
  | .slash => some .div
  | .percent => some .rem
  | .shiftLeft => some .shiftLeft
  | .shiftRight => some .shiftRight
  | .amp => some .bitAnd
  | .ampCaret => some .andNot
  | _ => none

/-- The operator a token stands for in front of an operand. -/
def unaryOp? : Token.Kind → Option UnaryOp
  | .plus => some .plus
  | .minus => some .neg
  | .bang => some .not
  | .caret => some .complement
  | .star => some .deref
  | .amp => some .addressOf
  | .arrow => some .receive
  | _ => none

/-- The assignment a token stands for. -/
def assignOp? : Token.Kind → Option AssignOp
  | .define => some .define
  | .assign => some .assign
  | .plusAssign => some .add
  | .minusAssign => some .sub
  | .starAssign => some .mul
  | .slashAssign => some .div
  | .percentAssign => some .rem
  | .ampAssign => some .bitAnd
  | .pipeAssign => some .bitOr
  | .caretAssign => some .bitXor
  | .shiftLeftAssign => some .shiftLeft
  | .shiftRightAssign => some .shiftRight
  | .ampCaretAssign => some .andNot
  | _ => none

/-- The literal a token stands for. -/
def literal? (token : Token) : Option Literal :=
  match token.kind with
  | .int => some (.int token.text)
  | .float => some (.float token.text)
  | .char => some (.char token.text)
  | .string => some (.string token.text)
  | _ => none

/-- The tokens a type can begin with. -/
def startsType (kind : Token.Kind) : Bool :=
  kind.isBuiltinType ||
    match kind with
    | .ident | .star | .leftBracket | .kwMap | .kwChan | .arrow | .kwFunc | .kwStruct
    | .kwInterface | .leftParen => true
    | _ => false

/-- The tokens at which a faulty expression is left without reading one. -/
def closesExpr : Token.Kind → Bool
  | .semicolon | .rightBrace | .rightParen | .endOfInput => true
  | _ => false

/-- The tokens at which a statement list ends. -/
def closesStmts : Token.Kind → Bool
  | .rightBrace | .kwCase | .kwDefault | .endOfInput => true
  | _ => false

/-- The type that a name, a qualified name or a type expression denotes in front of a brace. -/
def compositeType? : Expr → Option TypeExpr
  | .ident _ name => if name == "_" then none else some (.named name)
  | .selector _ (.ident _ package) member => some (.qualified package member.val)
  | .type _ type => some type
  | _ => none

/-- The statement that heads a type switch: a guard by itself or bound to one name. -/
def isTypeGuard (stmt : Stmt) : Bool :=
  match stmt.form with
  | .expr (.typeAssert _ _ none) => true
  | .assign [_] .define [.typeAssert _ _ none] => true
  | _ => false

/-- A simple statement, or the range clause that only a `for` accepts. -/
inductive Simple where
  | stmt (stmt : Stmt)
  | range (key value : Option Expr) (defines : Bool) (subject : Expr) (span : Span)

/-- The header of a loop. -/
inductive LoopHead where
  | range (key value : Option Expr) (defines : Bool) (subject : Expr)
  | clauses (init : Option Stmt) (test : Option Expr) (post : Option Stmt)

/-- An entry of a parameter list before names and types are told apart. -/
inductive ParamEntry where
  /-- A name that awaits its type, or the name of a type. -/
  | lone (name : Name)
  | named (name : Name) (type : Located TypeExpr)
  | bare (type : Located TypeExpr)

def ParamEntry.isNamed : ParamEntry → Bool
  | named .. => true
  | _ => false

/-- An entry of a list in which no entry is named. -/
def ParamEntry.unnamed : ParamEntry → Field
  | lone name => .unnamed ⟨.named name.val, name.span⟩
  | named _ type | bare type => .unnamed type

/-- Give lone names the type of the next named entry. -/
def groupNamed (pending : List Name) : List ParamEntry → Parse (List Field)
  | [] => do
    match pending.getLast? with
    | some last => refuse .untypedParameter last.span
    | none => pure ()
    return []
  | .lone name :: entries => groupNamed (pending ++ [name]) entries
  | .named name type :: entries =>
    return ⟨pending ++ [name], type⟩ :: (← groupNamed [] entries)
  | .bare type :: entries => do
    refuse .mixedParameters type.span
    groupNamed pending entries

/-- The fields of a parameter list. Its entries are all named or all unnamed. -/
def groupParams (entries : List ParamEntry) : Parse (List Field) :=
  if entries.any ParamEntry.isNamed then groupNamed [] entries
  else return entries.map ParamEntry.unnamed

/-- A `break`, `continue` or `goto`, with its label if one follows. -/
def jumpStmt (start : Span) (jump : Jump) : Parse Stmt := do
  let _ ← advance
  let label ← if ← sees .ident then do pure (some (← name))
    else do
      if jump == .goTo then want .gotoLabel
      pure none
  newStmt (.jump jump label) (start.join (← previousSpan))

/-- Arms of a `switch` or `select`. An arm has a label, unless it is the default one, and a body;
`rest` reads those behind the first. -/
def arms {α γ : Type} (label : Parse α) (body : Parse (List Stmt))
    (clause : Option α → List Stmt → Span → γ) (rest : Parse (List γ)) : Parse (List γ) := do
  if (← sees .rightBrace) || (← sees .endOfInput) then return []
  else
    let start ← currentSpan
    if (← sees .kwCase) || (← sees .kwDefault) then
      let read ← if ← eat .kwCase then do pure (some (← label))
        else do
          let _ ← advance
          pure none
      let _ ← expect .colon
      let stmts ← body
      let arm := clause read stmts (start.join (← previousSpan))
      return arm :: (← rest)
    else
      want .caseLabel
      skipStatement
      rest

/-- The names after the first of a list. -/
def namesAfter : (fuel : Nat) → Parse (List Name)
  | 0 => outOfFuel
  | fuel + 1 => do
    if ← eat .comma then
      let next ← name
      return next :: (← namesAfter fuel)
    else return []

/-- Names separated by commas. -/
def names (fuel : Nat) : Parse (List Name) := do
  let first ← name
  return first :: (← namesAfter fuel)

mutual

/-- An expression. -/
def expr : (fuel : Nat) → Parse Expr
  | 0 => outOfFuel
  | fuel + 1 => exprAbove fuel 0

/-- Expressions separated by commas. -/
def exprList : (fuel : Nat) → Parse (List Expr)
  | 0 => outOfFuel
  | fuel + 1 => do
    let first ← expr fuel
    if ← eat .comma then return first :: (← exprList fuel)
    else return [first]

/-- An expression whose outer operators all bind at least with power `least`. -/
def exprAbove : (fuel : Nat) → (least : Nat) → Parse Expr
  | 0, _ => outOfFuel
  | fuel + 1, least =>
    nested
      (do
        let span ← currentSpan
        skipStatement
        return .blank span)
      (do binaryRest fuel least (← unaryExpr fuel))

/-- The operators and right operands after `left`. Operators group to the left: the right
operand takes only stronger ones. -/
def binaryRest : (fuel : Nat) → (least : Nat) → (left : Expr) → Parse Expr
  | 0, _, _ => outOfFuel
  | fuel + 1, least, left => do
    match binaryOp? (← peek) with
    | none => return left
    | some op =>
      let power := op.precedence * 2
      if power < least then return left
      else
        let _ ← advance
        let right ← exprAbove fuel (power + 1)
        binaryRest fuel least (.binary (left.span.join right.span) op left right)

/-- An operand with the operators in front of it. -/
def unaryExpr : (fuel : Nat) → Parse Expr
  | 0 => outOfFuel
  | fuel + 1 => do
    let start ← currentSpan
    let kind ← peek
    if kind == .arrow && (← peekNext) == .kwChan then
      let type ← typeExpr fuel
      suffixes fuel (.type type.span type.val)
    else match unaryOp? kind with
      | none => suffixes fuel (← primary fuel)
      | some op =>
        let _ ← advance
        nested (return .blank start)
          (do
            let operand ← unaryExpr fuel
            return .unary (start.join operand.span) op operand)

/-- Selectors, type assertions, subscripts, calls and composite literals behind `base`. -/
def suffixes : (fuel : Nat) → (base : Expr) → Parse Expr
  | 0, _ => outOfFuel
  | fuel + 1, base => do
    match ← peek with
    | .dot =>
      let _ ← advance
      if ← eat .leftParen then
        let type ← if ← eat .kwType then pure none
          else do pure (some (← typeExpr fuel).val)
        let _ ← expect .rightParen
        suffixes fuel (.typeAssert (base.span.join (← previousSpan)) base type)
      else
        let member ← name
        suffixes fuel (.selector (base.span.join member.span) base member)
    | .leftBracket =>
      let _ ← advance
      suffixes fuel (← withHeader false (subscript fuel base))
    | .leftParen =>
      let _ ← advance
      let (args, spread) ← withHeader false
        (do
          let args ← arguments fuel
          let _ ← expect .rightParen
          return args)
      suffixes fuel (.call (base.span.join (← previousSpan)) base args spread)
    | .leftBrace =>
      if (← get).inHeader then return base
      else match compositeType? base with
        | none => return base
        | some type => suffixes fuel (← composite fuel (some type) base.span)
    | _ => return base

/-- The arguments of a call, and whether one of them is spread. -/
def arguments : (fuel : Nat) → Parse (List Expr × Bool)
  | 0 => outOfFuel
  | fuel + 1 => do
    if (← sees .rightParen) || (← sees .endOfInput) then return ([], false)
    else
      let first ← argument fuel
      let spread ← eat .ellipsis
      if ← eat .comma then
        let (rest, restSpread) ← arguments fuel
        return (first :: rest, spread || restSpread)
      else return ([first], spread)

/-- One argument. Some builtin functions take types. -/
def argument : (fuel : Nat) → Parse Expr
  | 0 => outOfFuel
  | fuel + 1 => do
    if (← sees .kwMap) || (← sees .kwChan) then typeOrComposite fuel
    else expr fuel

/-- A type, or a composite literal of that type. -/
def typeOrComposite : (fuel : Nat) → Parse Expr
  | 0 => outOfFuel
  | fuel + 1 => do
    let type ← typeExpr fuel
    if ← sees .leftBrace then composite fuel (some type.val) type.span
    else return .type type.span type.val

/-- The rest of an index or slice expression after its opening bracket. -/
def subscript : (fuel : Nat) → (base : Expr) → Parse Expr
  | 0, _ => outOfFuel
  | fuel + 1, base => do
    let low ← if ← sees .colon then pure none else do pure (some (← expr fuel))
    if ← eat .colon then
      let high ← if (← sees .colon) || (← sees .rightBracket) then pure none
        else do pure (some (← expr fuel))
      let max ← if ← eat .colon then do pure (some (← expr fuel)) else pure none
      let _ ← expect .rightBracket
      return .slice (base.span.join (← previousSpan)) base low high max
    else
      let _ ← expect .rightBracket
      let span := base.span.join (← previousSpan)
      return .index span base (low.getD (.blank span))

/-- An operand without operators or suffixes. -/
def primary : (fuel : Nat) → Parse Expr
  | 0 => outOfFuel
  | fuel + 1 => do
    let token := (← get).current
    let start := token.span
    if token.kind.isBuiltinType then
      let _ ← advance
      return .type start (.named token.text)
    else match token.kind with
      | .ident =>
        let _ ← advance
        return .ident start token.text
      | .leftParen =>
        let _ ← advance
        let inner ← withHeader false (expr fuel)
        let _ ← expect .rightParen
        return .paren (start.join (← previousSpan)) inner
      | .kwFunc =>
        let _ ← advance
        let (params, results) ← signature fuel
        if ← sees .leftBrace then
          let body ← block fuel
          return .funcLit (start.join (← previousSpan)) params results body
        else return .type (start.join (← previousSpan)) (.func params results)
      | .leftBracket | .kwMap | .kwChan | .kwStruct | .kwInterface => typeOrComposite fuel
      | kind =>
        match literal? token with
        | some value =>
          let _ ← advance
          return .lit start value
        | none =>
          want .expression
          if !closesExpr kind then
            let _ ← advance
          return .blank start

/-- A composite literal from its opening brace on; `start` is the place of its type. -/
def composite : (fuel : Nat) → (type : Option TypeExpr) → (start : Span) → Parse Expr
  | 0, _, _ => outOfFuel
  | fuel + 1, type, start => do
    let _ ← expect .leftBrace
    let elems ← withHeader false
      (do
        let elems ← elements fuel
        let _ ← expect .rightBrace
        return elems)
    return .composite (start.join (← previousSpan)) type elems

/-- The elements of a composite literal. A line break after the last one is no terminator. -/
def elements : (fuel : Nat) → Parse (List Expr)
  | 0 => outOfFuel
  | fuel + 1 => do
    if (← sees .rightBrace) || (← sees .endOfInput) then return []
    else
      let key ← element fuel
      let elem ← if ← eat .colon then do
          let value ← element fuel
          pure (.keyValue (key.span.join value.span) key value)
        else pure key
      if ← eat .comma then
        eatNewline
        return elem :: (← elements fuel)
      else
        eatNewline
        return [elem]

/-- One element: an expression, or a composite literal whose type is left out. -/
def element : (fuel : Nat) → Parse Expr
  | 0 => outOfFuel
  | fuel + 1 => do
    if ← sees .leftBrace then composite fuel none (← currentSpan)
    else expr fuel

/-- A type. -/
def typeExpr : (fuel : Nat) → Parse (Located TypeExpr)
  | 0 => outOfFuel
  | fuel + 1 => do
    let start ← currentSpan
    nested (return ⟨.named "_", start⟩)
      (do
        let type ← typeForm fuel
        return ⟨type, start.join (← previousSpan)⟩)

/-- A type by its first token. -/
def typeForm : (fuel : Nat) → Parse TypeExpr
  | 0 => outOfFuel
  | fuel + 1 => do
    let kind ← peek
    if kind.isBuiltinType then return .named (← advance).text
    else match kind with
      | .ident =>
        let first ← name
        if (← sees .dot) && (← peekNext) == .ident then
          let _ ← advance
          return .qualified first.val (← name).val
        else return .named first.val
      | .star =>
        let _ ← advance
        return .pointer (← typeExpr fuel).val
      | .leftBracket =>
        let _ ← advance
        let length ← if ← sees .rightBracket then pure none
          else do pure (some (← withHeader false (expr fuel)))
        let _ ← expect .rightBracket
        return .array length (← typeExpr fuel).val
      | .kwMap =>
        let _ ← advance
        let _ ← expect .leftBracket
        let key ← typeExpr fuel
        let _ ← expect .rightBracket
        return .map key.val (← typeExpr fuel).val
      | .kwChan =>
        let _ ← advance
        let direction := if ← eat .arrow then .send else .both
        return .chan direction (← typeExpr fuel).val
      | .arrow =>
        let _ ← advance
        let _ ← expect .kwChan
        return .chan .receive (← typeExpr fuel).val
      | .kwFunc =>
        let _ ← advance
        let (params, results) ← signature fuel
        return .func params results
      | .kwStruct =>
        let _ ← advance
        let _ ← expect .leftBrace
        let fields ← structFields fuel
        let _ ← expect .rightBrace
        return .struct fields
      | .kwInterface =>
        let _ ← advance
        let _ ← expect .leftBrace
        let methods ← interfaceMethods fuel
        let _ ← expect .rightBrace
        return .interface methods
      | .leftParen =>
        let _ ← advance
        let inner ← typeExpr fuel
        let _ ← expect .rightParen
        return inner.val
      | _ =>
        want .typeExpr
        return .named "_"

/-- The entries of a struct type. Field tags are read and dropped. -/
def structFields : (fuel : Nat) → Parse (List Field)
  | 0 => outOfFuel
  | fuel + 1 => do
    if (← sees .rightBrace) || (← sees .endOfInput) then return []
    else if ← eat .semicolon then structFields fuel
    else
      let left ← remaining
      let next ← peekNext
      let embedded := (← sees .star) || ((← sees .ident) &&
        (next == .semicolon || next == .rightBrace || next == .dot || next == .string))
      let field ← if embedded then do pure (.unnamed (← typeExpr fuel))
        else do
          let bound ← names fuel
          pure ⟨bound, ← typeExpr fuel⟩
      let _ ← eat .string
      terminator
      if (← remaining) == left then
        let _ ← advance
      return field :: (← structFields fuel)

/-- The entries of an interface type. -/
def interfaceMethods : (fuel : Nat) → Parse (List Field)
  | 0 => outOfFuel
  | fuel + 1 => do
    if (← sees .rightBrace) || (← sees .endOfInput) then return []
    else if ← eat .semicolon then interfaceMethods fuel
    else
      let left ← remaining
      let method ← if (← sees .ident) && (← peekNext) == .leftParen then do
          let bound ← name
          let start ← currentSpan
          let (params, results) ← signature fuel
          pure ⟨[bound], ⟨.func params results, start.join (← previousSpan)⟩⟩
        else do pure (.unnamed (← typeExpr fuel))
      terminator
      if (← remaining) == left then
        let _ ← advance
      return method :: (← interfaceMethods fuel)

/-- Parameters and results: a list in parentheses, a bare type, or nothing. -/
def signature : (fuel : Nat) → Parse (List Field × List Field)
  | 0 => outOfFuel
  | fuel + 1 => do
    let params ← parameters fuel
    if ← sees .leftParen then return (params, ← parameters fuel)
    else if startsType (← peek) then return (params, [.unnamed (← typeExpr fuel)])
    else return (params, [])

/-- A parameter list in parentheses. -/
def parameters : (fuel : Nat) → Parse (List Field)
  | 0 => outOfFuel
  | fuel + 1 => do
    let _ ← expect .leftParen
    let entries ← withHeader false
      (do
        let entries ← paramEntries fuel
        let _ ← expect .rightParen
        return entries)
    groupParams entries

def paramEntries : (fuel : Nat) → Parse (List ParamEntry)
  | 0 => outOfFuel
  | fuel + 1 => do
    if (← sees .rightParen) || (← sees .endOfInput) then return []
    else
      let first ← paramEntry fuel
      if ← eat .comma then return first :: (← paramEntries fuel)
      else return [first]

def paramEntry : (fuel : Nat) → Parse ParamEntry
  | 0 => outOfFuel
  | fuel + 1 => do
    if ← sees .ident then
      match ← peekNext with
      | .comma | .rightParen => return .lone (← name)
      | .dot => return .bare (← typeExpr fuel)
      | _ =>
        let bound ← name
        return .named bound (← paramType fuel)
    else return .bare (← paramType fuel)

def paramType : (fuel : Nat) → Parse (Located TypeExpr)
  | 0 => outOfFuel
  | fuel + 1 => do
    if ← sees .ellipsis then
      let start ← currentSpan
      let _ ← advance
      let elem ← typeExpr fuel
      return ⟨.variadic elem.val, start.join elem.span⟩
    else typeExpr fuel

/-- A variable, constant or type declaration. -/
def genDecl : (fuel : Nat) → Parse GenDecl
  | 0 => outOfFuel
  | fuel + 1 => do
    let start ← currentSpan
    let keyword := match ← peek with
      | .kwConst => DeclKeyword.const
      | .kwType => .type
      | _ => .var
    let _ ← advance
    let specs ← if ← eat .leftParen then do
        let specs ← specGroup fuel keyword
        let _ ← expect .rightParen
        pure specs
      else do pure [← spec fuel keyword]
    return ⟨keyword, specs, start.join (← previousSpan)⟩

def specGroup : (fuel : Nat) → (keyword : DeclKeyword) → Parse (List Spec)
  | 0, _ => outOfFuel
  | fuel + 1, keyword => do
    if (← sees .rightParen) || (← sees .endOfInput) then return []
    else
      let left ← remaining
      let first ← spec fuel keyword
      if !(← sees .rightParen) then terminator
      if (← remaining) == left then
        let _ ← advance
      return first :: (← specGroup fuel keyword)

def spec : (fuel : Nat) → (keyword : DeclKeyword) → Parse Spec
  | 0, _ => outOfFuel
  | fuel + 1, keyword => do
    if keyword == .type then
      let bound ← name
      let isAlias ← eat .assign
      return .typeName bound isAlias (← typeExpr fuel)
    else
      let bound ← names fuel
      let type ← if startsType (← peek) then do pure (some (← typeExpr fuel)) else pure none
      let values ← if ← eat .assign then exprList fuel else pure []
      if keyword == .var && type.isNone && values.isEmpty then want .typeOrInitializer
      return .value bound type values

/-- Statements in braces. -/
def block : (fuel : Nat) → Parse Block
  | 0 => outOfFuel
  | fuel + 1 => do
    let start ← expect .leftBrace
    nested
      (do
        skipStatement
        return ⟨[], start⟩)
      (do
        let stmts ← withHeader false (stmtList fuel)
        let stop ← expect .rightBrace
        return ⟨stmts, start.join stop⟩)

/-- Statements up to a closing brace, a case label or the end of the input. -/
def stmtList : (fuel : Nat) → Parse (List Stmt)
  | 0 => outOfFuel
  | fuel + 1 => do
    if closesStmts (← peek) then return []
    else if ← eat .semicolon then stmtList fuel
    else
      let left ← remaining
      let first ← stmt fuel
      if !closesStmts (← peek) then terminator
      if (← remaining) == left then
        let _ ← advance
      return first :: (← stmtList fuel)

/-- A statement. -/
def stmt : (fuel : Nat) → Parse Stmt
  | 0 => outOfFuel
  | fuel + 1 => do
    let start ← currentSpan
    match ← peek with
    | .kwVar | .kwConst | .kwType =>
      let decl ← genDecl fuel
      newStmt (.decl decl) decl.span
    | .kwReturn =>
      let _ ← advance
      let values ← if (← sees .semicolon) || (← sees .rightBrace) then pure []
        else exprList fuel
      newStmt (.ret values) (start.join (← previousSpan))
    | .kwBreak => jumpStmt start .breakOut
    | .kwContinue => jumpStmt start .nextRound
    | .kwGoto => jumpStmt start .goTo
    | .kwFallthrough =>
      let _ ← advance
      newStmt (.jump .fallthrough none) start
    | .kwGo =>
      let call ← launchedCall fuel
      newStmt (.go call) (start.join call.span)
    | .kwDefer =>
      let call ← launchedCall fuel
      newStmt (.defer call) (start.join call.span)
    | .leftBrace => blockStmt fuel
    | .kwIf => ifStmt fuel
    | .kwSwitch => switchStmt fuel
    | .kwSelect => selectStmt fuel
    | .kwFor => forStmt fuel
    | .ident =>
      if (← peekNext) == .colon then
        let label ← name
        let _ ← advance
        let inner ← if (← sees .rightBrace) || (← sees .semicolon) then do
            newStmt .empty (← previousSpan)
          else stmt fuel
        newStmt (.labeled label inner) (start.join inner.span)
      else simpleStmt fuel
    | _ => simpleStmt fuel

/-- A block as a statement of its own. -/
def blockStmt : (fuel : Nat) → Parse Stmt
  | 0 => outOfFuel
  | fuel + 1 => do
    let body ← block fuel
    newStmt (.block body) body.span

/-- The call that a `go` or `defer` launches. -/
def launchedCall : (fuel : Nat) → Parse Expr
  | 0 => outOfFuel
  | fuel + 1 => do
    let _ ← advance
    let call ← expr fuel
    match call with
    | .call .. => pure ()
    | _ => refuse .notACall call.span
    return call

/-- A simple statement where no range clause may stand. -/
def simpleStmt : (fuel : Nat) → Parse Stmt
  | 0 => outOfFuel
  | fuel + 1 => do
    match ← simple fuel false with
    | .stmt stmt => return stmt
    | .range _ _ _ _ span =>
      refuse .strayRange span
      newStmt .empty span

/-- An assignment, definition, send, increment or expression, or a range clause where
`rangeAllowed`. -/
def simple : (fuel : Nat) → (rangeAllowed : Bool) → Parse Simple
  | 0, _ => outOfFuel
  | fuel + 1, rangeAllowed => do
    let start ← currentSpan
    if rangeAllowed && (← sees .kwRange) then
      let _ ← advance
      let subject ← expr fuel
      return .range none none false subject (start.join subject.span)
    else
      let targets ← exprList fuel
      match assignOp? (← peek) with
      | some op =>
        let _ ← advance
        if rangeAllowed && (← sees .kwRange) && (op == .define || op == .assign) then
          let _ ← advance
          let subject ← expr fuel
          let span := start.join subject.span
          if 2 < targets.length then refuse .wideRange span
          return .range targets[0]? targets[1]? (op == .define) subject span
        else
          let values ← exprList fuel
          let span := start.join (← previousSpan)
          if op.combines?.isSome && (targets.length != 1 || values.length != 1) then
            refuse .compoundOperands span
          if op == .define then
            match targets.find? fun target => target.name?.isNone with
            | some target => refuse .definesNonName target.span
            | none => pure ()
          return .stmt (← newStmt (.assign targets op values) span)
      | none =>
        if 1 < targets.length then want .assignment
        let first := targets.headD (.blank start)
        match ← peek with
        | .arrow =>
          let _ ← advance
          let value ← expr fuel
          return .stmt (← newStmt (.send first value) (start.join value.span))
        | .increment =>
          let _ ← advance
          return .stmt (← newStmt (.incDec first true) (start.join (← previousSpan)))
        | .decrement =>
          let _ ← advance
          return .stmt (← newStmt (.incDec first false) (start.join (← previousSpan)))
        | _ => return .stmt (← newStmt (.expr first) first.span)

/-- The header of an `if` or `switch`: an initial statement that a semicolon follows, and the
statement before the body. -/
def header : (fuel : Nat) → Parse (Option Stmt × Option Stmt)
  | 0 => outOfFuel
  | fuel + 1 => do
    if ← sees .leftBrace then return (none, none)
    else
      let first ← if ← sees .semicolon then pure none else do pure (some (← simpleStmt fuel))
      let token := (← get).current
      if token.kind == .semicolon && token.text == ";" then
        let _ ← advance
        if ← sees .leftBrace then return (first, none)
        else return (first, some (← simpleStmt fuel))
      else return (none, first)

def ifStmt : (fuel : Nat) → Parse Stmt
  | 0 => outOfFuel
  | fuel + 1 => do
    let start ← expect .kwIf
    let (init, rest) ← withHeader true (header fuel)
    let test ← match rest with
      | some ⟨_, _, .expr test⟩ => pure test
      | some other => do
        refuse .notACondition other.span
        pure (.blank other.span)
      | none => do
        want .condition
        pure (.blank (← currentSpan))
    let body ← block fuel
    let otherwise ← if ← eat .kwElse then do
        match ← peek with
        | .kwIf => pure (some (← ifStmt fuel))
        | .leftBrace => pure (some (← blockStmt fuel))
        | _ =>
          want .elseBranch
          pure none
      else pure none
    newStmt (.cond init test body otherwise) (start.join (← previousSpan))

/-- A switch; one whose header is a type guard is a type switch. -/
def switchStmt : (fuel : Nat) → Parse Stmt
  | 0 => outOfFuel
  | fuel + 1 => do
    let start ← expect .kwSwitch
    let (init, rest) ← withHeader true (header fuel)
    match rest with
    | none =>
      let clauses ← caseClauses fuel
      newStmt (.switch init none clauses) (start.join (← previousSpan))
    | some head =>
      if isTypeGuard head then
        let clauses ← caseClauses fuel
        newStmt (.typeSwitch init head clauses) (start.join (← previousSpan))
      else
        let tag ← match head.form with
          | .expr tag => pure (some tag)
          | _ => do
            refuse .notATag head.span
            pure none
        let clauses ← caseClauses fuel
        newStmt (.switch init tag clauses) (start.join (← previousSpan))

/-- The arms of a switch, in braces. -/
def caseClauses : (fuel : Nat) → Parse (List CaseClause)
  | 0 => outOfFuel
  | fuel + 1 => do
    let _ ← expect .leftBrace
    let clauses ← caseArms fuel
    let _ ← expect .rightBrace
    return clauses

def caseArms : (fuel : Nat) → Parse (List CaseClause)
  | 0 => outOfFuel
  | fuel + 1 => arms (exprList fuel) (stmtList fuel) .mk (caseArms fuel)

def selectStmt : (fuel : Nat) → Parse Stmt
  | 0 => outOfFuel
  | fuel + 1 => do
    let start ← expect .kwSelect
    let _ ← expect .leftBrace
    let clauses ← commArms fuel
    let _ ← expect .rightBrace
    newStmt (.select clauses) (start.join (← previousSpan))

/-- The arms of a select. -/
def commArms : (fuel : Nat) → Parse (List CommClause)
  | 0 => outOfFuel
  | fuel + 1 => arms (simpleStmt fuel) (stmtList fuel) .mk (commArms fuel)

def forStmt : (fuel : Nat) → Parse Stmt
  | 0 => outOfFuel
  | fuel + 1 => do
    let start ← expect .kwFor
    let head ← withHeader true (loopHead fuel)
    let body ← block fuel
    let form := match head with
      | .range key value defines subject => StmtForm.range key value defines subject body
      | .clauses init test post => .loop init test post body
    newStmt form (start.join (← previousSpan))

/-- The header of a loop: a range clause, a condition, or three clauses. -/
def loopHead : (fuel : Nat) → Parse LoopHead
  | 0 => outOfFuel
  | fuel + 1 => do
    if ← sees .leftBrace then return .clauses none none none
    else if ← sees .semicolon then loopClauses fuel none
    else
      match ← simple fuel true with
      | .range key value defines subject _ => return .range key value defines subject
      | .stmt first =>
        if ← sees .semicolon then loopClauses fuel (some first)
        else match first.form with
          | .expr test => return .clauses none (some test) none
          | _ =>
            refuse .notALoopCondition first.span
            return .clauses none none none

/-- The clauses of a loop from the first semicolon on. -/
def loopClauses : (fuel : Nat) → (init : Option Stmt) → Parse LoopHead
  | 0, _ => outOfFuel
  | fuel + 1, init => do
    let _ ← advance
    let test ← if ← sees .semicolon then pure none else do pure (some (← expr fuel))
    let _ ← expect .semicolon
    let post ← if ← sees .leftBrace then pure none else do pure (some (← simpleStmt fuel))
    return .clauses init test post

end

/-- A function declaration. -/
def funcDecl (fuel : Nat) : Parse FuncDecl := do
  let start ← expect .kwFunc
  let receiver ← if ← sees .leftParen then do pure (some (← parameters fuel)) else pure none
  let bound ← name
  let (params, results) ← signature fuel
  let body ← if ← sees .leftBrace then do pure (some (← block fuel)) else pure none
  return { receiver, name := bound, params, results, body, span := start.join (← previousSpan) }

/-- One import: an optional local name and the path. -/
def importSpec : Parse (Option Import) := do
  let start ← currentSpan
  let localName ← if (← sees .ident) || (← sees .dot) then do pure (some (← advance).text)
    else pure none
  if ← sees .string then
    let path := (← advance).text
    return some { localName, path, span := start.join (← previousSpan) }
  else
    want .importPath
    return none

/-- The imports of a group, up to its closing parenthesis. -/
def importGroup : (fuel : Nat) → Parse (List Import)
  | 0 => outOfFuel
  | fuel + 1 => do
    if (← sees .rightParen) || (← sees .endOfInput) then return []
    else
      let left ← remaining
      let first ← importSpec
      if !(← sees .rightParen) then terminator
      if (← remaining) == left then
        let _ ← advance
      return first.toList ++ (← importGroup fuel)

/-- Import declarations, as many as there are. -/
def imports : (fuel : Nat) → Parse (List Import)
  | 0 => outOfFuel
  | fuel + 1 => do
    if ← eat .kwImport then
      let first ← if ← eat .leftParen then do
          let group ← importGroup fuel
          let _ ← expect .rightParen
          pure group
        else do pure (← importSpec).toList
      terminator
      return first ++ (← imports fuel)
    else return []

/-- Top-level declarations up to the end of the input. -/
def topDecls : (fuel : Nat) → Parse (List Decl)
  | 0 => outOfFuel
  | fuel + 1 => do
    match ← peek with
    | .endOfInput => return []
    | .semicolon =>
      let _ ← advance
      topDecls fuel
    | kind =>
      let left ← remaining
      let decl : Option Decl ← match kind with
        | .kwFunc => do pure (some (.func (← funcDecl fuel)))
        | .kwVar | .kwConst | .kwType => do pure (some (.gen (← genDecl fuel)))
        | .kwImport => do
          refuse .lateImport (← currentSpan)
          let _ ← imports fuel
          pure none
        | _ => do
          want .declaration
          let _ ← advance
          pure none
      if !(← sees .endOfInput) && (← remaining) != left then terminator
      return decl.toList ++ (← topDecls fuel)

end ScriptLowering.Grammar
