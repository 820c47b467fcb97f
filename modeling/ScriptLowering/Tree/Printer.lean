import ScriptLowering.Tree.Basic

/-!
# Printing trees

A tree prints in the syntax of the source grammar, indented by four spaces a level. Operands
are put in parentheses only where precedence asks for it, so that a tree prints the way it
evaluates, also one that no source text has as its parse.
-/

namespace ScriptLowering

namespace Printer

/-- The indentation of a line at nesting level `depth`. -/
def indent : Nat → String
  | 0 => ""
  | depth + 1 => "    " ++ indent depth

def commaList (texts : List String) : String := ", ".intercalate texts

/-- Parentheses around `text` where they are needed. -/
def wrap (needed : Bool) (text : String) : String :=
  if needed then "(" ++ text ++ ")" else text

/-- Parameters and results of a function, from the texts of their entries. A single result
without a name (`bare`) stands without parentheses. -/
def signature (params results : List String) (bare : Bool) : String :=
  "(" ++ commaList params ++ ")" ++
    match results with
    | [] => ""
    | _ => if bare then " " ++ commaList results else " (" ++ commaList results ++ ")"

/-- Statements between braces, from their printed lines. -/
def braces (depth : Nat) (lines : List String) : String :=
  "\x7b\n" ++ String.join lines ++ indent depth ++ "\x7d"

/-- The clauses of a `for` with an initial or post statement. -/
def loopHeader (init test post : Option String) : String :=
  if init.isSome || post.isSome then
    init.getD "" ++ "; " ++ test.getD "" ++ ";" ++ ((post.map (" " ++ ·)).getD "") ++ " "
  else (test.map (· ++ " ")).getD ""

end Printer

namespace Expr

/-- In front of a selector, index or call, an operator needs parentheses, and so does a type
that would take what follows as its own. -/
def looseBeforePostfix : Expr → Bool
  | binary .. | unary .. => true
  | type _ (.pointer _) | type _ (.func ..) => true
  | _ => false

/-- Behind the unary operator `op`, a binary operation needs parentheses, and so does the same
operator again: two of them side by side could be read as one token. -/
def looseBehind (op : UnaryOp) : Expr → Bool
  | binary .. => true
  | unary _ inner _ => inner == op
  | _ => false

/-- Beside a binary operator of precedence `parent`, a looser operation needs parentheses, and
on its right (`right`) also one that binds as strongly, for operators group to the left. -/
def looseBeside (parent : Nat) (right : Bool) : Expr → Bool
  | binary _ op _ _ => op.precedence < parent || (right && op.precedence == parent)
  | _ => false

end Expr

/-- A list of results that is one type without a name. -/
def Field.isBareResult : List Field → Bool
  | [⟨names, _⟩] => names.isEmpty
  | _ => false

open Printer

mutual

/-- The text of an expression; `depth` is the nesting level of the line it stands in. -/
def Expr.render (depth : Nat) : Expr → String
  | .ident _ name => name
  | .lit _ value => value.text
  | .composite _ type elems =>
    renderType? depth type ++ "\x7b" ++ commaList (renderExprs depth elems) ++ "\x7d"
  | .keyValue _ key value => key.render depth ++ ": " ++ value.render depth
  | .funcLit _ params results ⟨stmts, _⟩ =>
    "func" ++ signature (renderFields depth params) (renderFields depth results)
        (Field.isBareResult results) ++
      " " ++ braces depth (renderStmts (depth + 1) stmts)
  | .paren _ inner => "(" ++ inner.render depth ++ ")"
  | .selector _ base member =>
    wrap base.looseBeforePostfix (base.render depth) ++ "." ++ member.val
  | .index _ base key =>
    wrap base.looseBeforePostfix (base.render depth) ++ "[" ++ key.render depth ++ "]"
  | .slice _ base low high max =>
    wrap base.looseBeforePostfix (base.render depth) ++ "[" ++
      (renderExpr? depth low).getD "" ++ ":" ++ (renderExpr? depth high).getD "" ++
      ((renderExpr? depth max).map (":" ++ ·)).getD "" ++ "]"
  | .typeAssert _ base type =>
    wrap base.looseBeforePostfix (base.render depth) ++ ".(" ++
      (if type.isSome then renderType? depth type else "type") ++ ")"
  | .call _ callee args spread =>
    wrap callee.looseBeforePostfix (callee.render depth) ++ "(" ++
      commaList (renderExprs depth args) ++ (if spread then "..." else "") ++ ")"
  | .unary _ op operand => op.text ++ wrap (operand.looseBehind op) (operand.render depth)
  | .binary _ op left right =>
    wrap (left.looseBeside op.precedence false) (left.render depth) ++ " " ++ op.text ++ " " ++
      wrap (right.looseBeside op.precedence true) (right.render depth)
  | .type _ type => type.render depth

def renderExpr? (depth : Nat) : Option Expr → Option String
  | none => none
  | some e => some (e.render depth)

def renderExprs (depth : Nat) : List Expr → List String
  | [] => []
  | e :: es => e.render depth :: renderExprs depth es

/-- The text of a type. -/
def TypeExpr.render (depth : Nat) : TypeExpr → String
  | .named name => name
  | .qualified package name => package ++ "." ++ name
  | .pointer elem => "*" ++ elem.render depth
  | .array length elem => "[" ++ (renderExpr? depth length).getD "" ++ "]" ++ elem.render depth
  | .map key elem => "map[" ++ key.render depth ++ "]" ++ elem.render depth
  | .chan .both elem => "chan " ++ elem.render depth
  | .chan .send elem => "chan<- " ++ elem.render depth
  | .chan .receive elem => "<-chan " ++ elem.render depth
  | .func params results =>
    "func" ++ signature (renderFields depth params) (renderFields depth results)
      (Field.isBareResult results)
  | .struct [] => "struct\x7b\x7d"
  | .struct fields => "struct \x7b " ++ "; ".intercalate (renderFields depth fields) ++ " \x7d"
  | .interface [] => "interface\x7b\x7d"
  | .interface methods =>
    "interface \x7b " ++ "; ".intercalate (renderMethods depth methods) ++ " \x7d"
  | .variadic elem => "..." ++ elem.render depth

/-- The text of an optional type, empty when there is none. -/
def renderType? (depth : Nat) : Option TypeExpr → String
  | none => ""
  | some type => type.render depth

/-- The texts of the entries of a list. -/
def renderFields (depth : Nat) : List Field → List String
  | [] => []
  | ⟨names, ⟨type, _⟩⟩ :: fields =>
    ((if names.isEmpty then "" else commaList (names.map (·.val)) ++ " ") ++ type.render depth) ::
      renderFields depth fields

/-- The texts of the entries of an interface: a method is its name and signature. -/
def renderMethods (depth : Nat) : List Field → List String
  | [] => []
  | ⟨name :: _, ⟨.func params results, _⟩⟩ :: fields =>
    (name.val ++ signature (renderFields depth params) (renderFields depth results)
      (Field.isBareResult results)) :: renderMethods depth fields
  | ⟨names, ⟨type, _⟩⟩ :: fields =>
    ((if names.isEmpty then "" else commaList (names.map (·.val)) ++ " ") ++ type.render depth) ::
      renderMethods depth fields

/-- The text of a statement, without the indentation of its first line. -/
def Stmt.render (depth : Nat) : Stmt → String
  | ⟨_, _, .decl decl⟩ => decl.render depth
  | ⟨_, _, .empty⟩ => ""
  | ⟨_, _, .labeled label stmt⟩ => label.val ++ ":\n" ++ indent depth ++ stmt.render depth
  | ⟨_, _, .expr e⟩ => e.render depth
  | ⟨_, _, .send chan value⟩ => chan.render depth ++ " <- " ++ value.render depth
  | ⟨_, _, .incDec e increments⟩ => e.render depth ++ (if increments then "++" else "--")
  | ⟨_, _, .assign targets op values⟩ =>
    commaList (renderExprs depth targets) ++ " " ++ op.text ++ " " ++
      commaList (renderExprs depth values)
  | ⟨_, _, .go call⟩ => "go " ++ call.render depth
  | ⟨_, _, .defer call⟩ => "defer " ++ call.render depth
  | ⟨_, _, .ret values⟩ =>
    if values.isEmpty then "return" else "return " ++ commaList (renderExprs depth values)
  | ⟨_, _, .jump jump label⟩ => jump.text ++ ((label.map fun l => " " ++ l.val).getD "")
  | ⟨_, _, .block ⟨stmts, _⟩⟩ => braces depth (renderStmts (depth + 1) stmts)
  | ⟨_, _, .cond init test ⟨stmts, _⟩ otherwise⟩ =>
    "if " ++ ((renderStmt? depth init).map (· ++ "; ")).getD "" ++ test.render depth ++ " " ++
      braces depth (renderStmts (depth + 1) stmts) ++
      ((renderStmt? depth otherwise).map (" else " ++ ·)).getD ""
  | ⟨_, _, .switch init tag clauses⟩ =>
    "switch " ++ ((renderStmt? depth init).map (· ++ "; ")).getD "" ++
      ((renderExpr? depth tag).map (· ++ " ")).getD "" ++
      braces depth (renderCases depth clauses)
  | ⟨_, _, .typeSwitch init guard clauses⟩ =>
    "switch " ++ ((renderStmt? depth init).map (· ++ "; ")).getD "" ++
      guard.render depth ++ " " ++ braces depth (renderCases depth clauses)
  | ⟨_, _, .select clauses⟩ => "select " ++ braces depth (renderComms depth clauses)
  | ⟨_, _, .loop init test post ⟨stmts, _⟩⟩ =>
    "for " ++ loopHeader (renderStmt? depth init) (renderExpr? depth test)
        (renderStmt? depth post) ++
      braces depth (renderStmts (depth + 1) stmts)
  | ⟨_, _, .range key value defines subject ⟨stmts, _⟩⟩ =>
    "for " ++
      (match renderExpr? depth key with
        | none => ""
        | some k =>
          k ++ ((renderExpr? depth value).map (", " ++ ·)).getD "" ++
            (if defines then " := " else " = ")) ++
      "range " ++ subject.render depth ++ " " ++ braces depth (renderStmts (depth + 1) stmts)

def renderStmt? (depth : Nat) : Option Stmt → Option String
  | none => none
  | some stmt => some (stmt.render depth)

/-- The lines of a statement sequence. Empty statements leave no line. -/
def renderStmts (depth : Nat) : List Stmt → List String
  | [] => []
  | ⟨_, _, .empty⟩ :: stmts => renderStmts depth stmts
  | stmt :: stmts => (indent depth ++ stmt.render depth ++ "\n") :: renderStmts depth stmts

/-- The lines of the arms of a switch at level `depth`. -/
def renderCases (depth : Nat) : List CaseClause → List String
  | [] => []
  | ⟨none, body, _⟩ :: clauses =>
    (indent depth ++ "default:\n") :: renderStmts (depth + 1) body ++ renderCases depth clauses
  | ⟨some exprs, body, _⟩ :: clauses =>
    (indent depth ++ "case " ++ commaList (renderExprs depth exprs) ++ ":\n") ::
      renderStmts (depth + 1) body ++ renderCases depth clauses

/-- The lines of the arms of a select at level `depth`. -/
def renderComms (depth : Nat) : List CommClause → List String
  | [] => []
  | ⟨none, body, _⟩ :: clauses =>
    (indent depth ++ "default:\n") :: renderStmts (depth + 1) body ++ renderComms depth clauses
  | ⟨some comm, body, _⟩ :: clauses =>
    (indent depth ++ "case " ++ comm.render depth ++ ":\n") ::
      renderStmts (depth + 1) body ++ renderComms depth clauses

/-- The text of a declaration. Anything but one specification is written as a group. -/
def GenDecl.render (depth : Nat) : GenDecl → String
  | ⟨keyword, [spec], _⟩ => keyword.text ++ " " ++ spec.render depth
  | ⟨keyword, specs, _⟩ =>
    keyword.text ++ " (\n" ++ String.join (renderSpecs (depth + 1) specs) ++ indent depth ++ ")"

def Spec.render (depth : Nat) : Spec → String
  | .value names none values =>
    commaList (names.map (·.val)) ++
      (if values.isEmpty then "" else " = " ++ commaList (renderExprs depth values))
  | .value names (some ⟨type, _⟩) values =>
    commaList (names.map (·.val)) ++ " " ++ type.render depth ++
      (if values.isEmpty then "" else " = " ++ commaList (renderExprs depth values))
  | .typeName name isAlias ⟨type, _⟩ =>
    name.val ++ (if isAlias then " = " else " ") ++ type.render depth

/-- The lines of a group of specifications. -/
def renderSpecs (depth : Nat) : List Spec → List String
  | [] => []
  | spec :: specs => (indent depth ++ spec.render depth ++ "\n") :: renderSpecs depth specs

end

/-- The text between the parentheses of a field list. -/
def Field.renderList (fields : List Field) : String := commaList (renderFields 0 fields)

def FuncDecl.render (func : FuncDecl) : String :=
  "func " ++
    ((func.receiver.map fun fields => "(" ++ Field.renderList fields ++ ") ").getD "") ++
    func.name.val ++
    signature (renderFields 0 func.params) (renderFields 0 func.results)
      (Field.isBareResult func.results) ++
    ((func.body.map fun body => " " ++ braces 0 (renderStmts 1 body.stmts)).getD "")

/-- The text of a top-level declaration, with its line break. -/
def Decl.render : Decl → String
  | .func decl => decl.render ++ "\n"
  | .gen decl => decl.render 0 ++ "\n"

def Import.render (entry : Import) : String :=
  ((entry.localName.map (· ++ " ")).getD "") ++ entry.path

/-- One import stands on its line, several in a group. -/
def Import.renderAll : List Import → String
  | [] => ""
  | [single] => "import " ++ single.render ++ "\n\n"
  | many => "import (\n" ++
    String.join (many.map fun entry => indent 1 ++ entry.render ++ "\n") ++ ")\n\n"

/-- `text` with its trailing line breaks made one. -/
def Printer.endLine (text : String) : String :=
  String.ofList (text.toList.reverse.dropWhile (· == '\n')).reverse ++ "\n"

/-- The text of a file: declarations are separated by blank lines. -/
def SourceFile.render (file : SourceFile) : String :=
  endLine <|
    ((file.package.map fun name => "package " ++ name.val ++ "\n\n").getD "") ++
      Import.renderAll file.imports ++
      String.join (file.decls.map fun decl => decl.render ++ "\n")

end ScriptLowering
