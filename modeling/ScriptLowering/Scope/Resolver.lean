import ScriptLowering.Tree.Basic

/-!
# Type questions

The narrow interface through which the lowering asks for types. It never looks into an answer:
it copies the annotation into declarations and asks whether the type is an associative
container.
-/

namespace ScriptLowering

/-- A type as an answer. Container-ness is decided by the resolver, which may know that a
named type is declared as a map. -/
structure ResolvedType where
  annotation : TypeExpr
  isContainer : Bool

/-- The answer for a type as written, with no declarations to consult. -/
def ResolvedType.ofType (type : TypeExpr) : ResolvedType := ⟨type, type.isMap⟩

/-- Answers to type questions. The place given with a question is that of the statement at
hand; a resolver that knows scopes picks the binding visible there. -/
structure Resolver where
  /-- The type of an expression, if known. -/
  typeOf : Expr → Span → Option ResolvedType
  /-- The type of the value numbered `index` of an expression with several values. -/
  resultType : Expr → (index : Nat) → Span → Option ResolvedType

namespace Resolver

/-- The resolver that knows nothing. -/
def blind : Resolver where
  typeOf _ _ := none
  resultType _ _ _ := none

/-- `e` subscripts a value that is known to be a container at `place`. -/
def isContainerRead (resolver : Resolver) (place : Span) : Expr → Bool
  | .index _ base _ => (resolver.typeOf base place).any (·.isContainer)
  | _ => false

@[simp] theorem isContainerRead_blind (place : Span) (e : Expr) :
    blind.isContainerRead place e = false := by
  cases e <;> rfl

end Resolver

end ScriptLowering
