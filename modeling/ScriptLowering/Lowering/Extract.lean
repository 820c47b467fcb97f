import ScriptLowering.Tree.Basic

/-!
# Taking a read out of an expression

The first subexpression of a given sort, outermost first and left to right, is replaced by a
variable. Bodies of function literals are not entered: what they read is read when they run.
-/

namespace ScriptLowering.Lowering

/-- A tree with one read taken out. -/
structure Extraction (α : Type) where
  /-- The tree that remains. -/
  rest : α
  /-- The read. -/
  read : Expr
  /-- The read stood behind a short-circuit operator, which may have skipped it. -/
  guarded : Bool

def Extraction.map {α β : Type} (f : α → β) (x : Extraction α) : Extraction β :=
  ⟨f x.rest, x.read, x.guarded⟩

/-- Put `f` around what an extraction leaves. -/
def around {α β : Type} (f : α → β) (x : Option (Extraction α)) : Option (Extraction β) :=
  x.map (Extraction.map f)

mutual

/-- Put the variable `temp` in place of the first expression for which `isRead` holds. -/
def extract (isRead : Expr → Bool) (temp : String) (guarded : Bool) (e : Expr) :
    Option (Extraction Expr) :=
  if isRead e then some ⟨.ident e.span temp, e, guarded⟩
  else match e with
    | .ident .. | .lit .. | .type .. | .funcLit .. => none
    | .composite span type elems =>
      around (.composite span type) (extractList isRead temp guarded elems)
    | .keyValue span key value =>
      around (.keyValue span · value) (extract isRead temp guarded key) <|>
        around (.keyValue span key) (extract isRead temp guarded value)
    | .paren span inner => around (.paren span) (extract isRead temp guarded inner)
    | .selector span base member =>
      around (.selector span · member) (extract isRead temp guarded base)
    | .typeAssert span base type =>
      around (.typeAssert span · type) (extract isRead temp guarded base)
    | .unary span op operand => around (.unary span op) (extract isRead temp guarded operand)
    | .index span base key =>
      around (.index span · key) (extract isRead temp guarded base) <|>
        around (.index span base) (extract isRead temp guarded key)
    | .slice span base low high max =>
      around (.slice span · low high max) (extract isRead temp guarded base) <|>
        around (.slice span base · high max) (extract? isRead temp guarded low) <|>
        around (.slice span base low · max) (extract? isRead temp guarded high) <|>
        around (.slice span base low high) (extract? isRead temp guarded max)
    | .call span callee args spread =>
      around (.call span · args spread) (extract isRead temp guarded callee) <|>
        around (.call span callee · spread) (extractList isRead temp guarded args)
    | .binary span op left right =>
      around (.binary span op · right) (extract isRead temp guarded left) <|>
        around (.binary span op left)
          (extract isRead temp (guarded || op.isShortCircuit) right)

def extract? (isRead : Expr → Bool) (temp : String) (guarded : Bool) :
    Option Expr → Option (Extraction (Option Expr))
  | none => none
  | some e => around some (extract isRead temp guarded e)

def extractList (isRead : Expr → Bool) (temp : String) (guarded : Bool) :
    List Expr → Option (Extraction (List Expr))
  | [] => none
  | e :: es =>
    around (· :: es) (extract isRead temp guarded e) <|>
      around (e :: ·) (extractList isRead temp guarded es)

end

/-- Take a read out of an assignment target. A target that is itself a container element is
written and not read; only its container and its key are. -/
def extractTarget (isRead : Expr → Bool) (temp : String) (target : Expr) :
    Option (Extraction Expr) :=
  match target with
  | .index span base key =>
    if isRead target then
      around (.index span · key) (extract isRead temp false base) <|>
        around (.index span base) (extract isRead temp false key)
    else extract isRead temp false target
  | _ => extract isRead temp false target

def extractTargets (isRead : Expr → Bool) (temp : String) :
    List Expr → Option (Extraction (List Expr))
  | [] => none
  | e :: es =>
    around (· :: es) (extractTarget isRead temp e) <|>
      around (e :: ·) (extractTargets isRead temp es)

def extractSpecs (isRead : Expr → Bool) (temp : String) :
    List Spec → Option (Extraction (List Spec))
  | [] => none
  | .value names type values :: specs =>
    around (.value names type · :: specs) (extractList isRead temp false values) <|>
      around (.value names type values :: ·) (extractSpecs isRead temp specs)
  | .typeName name isAlias type :: specs =>
    around (.typeName name isAlias type :: ·) (extractSpecs isRead temp specs)

/-- Take a read out of the expressions that a statement evaluates once and before it takes
effect, so that the read can run in front of it. -/
def extractForm (isRead : Expr → Bool) (temp : String) :
    StmtForm → Option (Extraction StmtForm)
  | .expr e => around .expr (extract isRead temp false e)
  | .range key value defines subject body =>
    around (.range key value defines · body) (extract isRead temp false subject)
  | .assign targets op values =>
    around (.assign · op values) (extractTargets isRead temp targets) <|>
      around (.assign targets op) (extractList isRead temp false values)
  | .incDec e increments => around (.incDec · increments) (extractTarget isRead temp e)
  | .ret values => around .ret (extractList isRead temp false values)
  | .decl decl =>
    around (fun specs => .decl { decl with specs }) (extractSpecs isRead temp decl.specs)
  | .cond none test body otherwise =>
    around (.cond none · body otherwise) (extract isRead temp false test)
  | .switch none (some tag) clauses =>
    around (fun tag => .switch none (some tag) clauses) (extract isRead temp false tag)
  | _ => none

mutual

/-- Evaluating the expression twice gives the same place: it holds no call, no channel receive
and no function literal. -/
def isStable : Expr → Bool
  | .call .. | .funcLit .. | .unary _ .receive _ => false
  | .ident .. | .lit .. | .type .. => true
  | .composite _ _ elems => areStable elems
  | .keyValue _ key value => isStable key && isStable value
  | .paren _ inner => isStable inner
  | .selector _ base _ | .typeAssert _ base _ => isStable base
  | .unary _ _ operand => isStable operand
  | .index _ base key => isStable base && isStable key
  | .slice _ base low high max =>
    isStable base && isStable? low && isStable? high && isStable? max
  | .binary _ _ left right => isStable left && isStable right

def isStable? : Option Expr → Bool
  | none => true
  | some e => isStable e

def areStable : List Expr → Bool
  | [] => true
  | e :: es => isStable e && areStable es

end

end ScriptLowering.Lowering
