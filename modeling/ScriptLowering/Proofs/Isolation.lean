import ScriptLowering.Proofs.Visibility
import ScriptLowering.Proofs.Separation
import ScriptLowering.Proofs.Relabelling

/-!
# Bodies do not see each other

The body of a function records bindings whose scopes lie inside the body. `Table.view` is what
remains of a table at places outside of a body: it leaves out the bindings with a scope inside, and
the identities in the types. A question at a place outside is answered from the view, and the walk
over all that stands outside acts on the view alone. So two files that differ in a body only answer
alike outside of it, if no type is declared in it: a type that is declared in a body is known in the
whole file.
-/

namespace ScriptLowering

open List

variable {hole : Span} {decl : Decl} {func : FuncDecl}

open Grammar

/-! ## Views -/

def Binding.unnumbered (x : Binding) : Binding := { x with type := x.type.unnumbered }

def ResolvedType.unnumbered (type : ResolvedType) : ResolvedType :=
  { type with annotation := type.annotation.unnumbered }

/-- An association list with the values changed. -/
def mapValues {κ α β : Type} (f : α → β) (l : List (κ × α)) : List (κ × β) :=
  l.map fun p => (p.1, f p.2)

theorem lookup_mapValues {κ α β : Type} [BEq κ] (f : α → β) (l : List (κ × α)) (key : κ) :
    (mapValues f l).lookup key = (l.lookup key).map f := by
  induction l with
  | nil => rfl
  | cons p l ih =>
    obtain ⟨k, v⟩ := p
    simp only [mapValues, map_cons, lookup_cons]
    cases key == k with
    | true => rfl
    | false => exact ih

namespace Table

/-- What remains of a table outside of `hole`, without identities. -/
def view (hole : Span) (table : Table) : Table where
  functions := mapValues (map TypeExpr.unnumbered) table.functions
  methods := mapValues (map TypeExpr.unnumbered) table.methods
  types := mapValues TypeExpr.unnumbered table.types
  globals := mapValues TypeExpr.unnumbered table.globals
  bindings := (table.bindings.filter fun x => !hole.contains x.scope).map Binding.unnumbered

end Table

@[simp] theorem TypeExpr.isMap_unnumbered (type : TypeExpr) :
    type.unnumbered.isMap = type.isMap := by
  cases type <;> rfl

@[simp] theorem Field.names_unnumbered (field : Field) : field.unnumbered.names = field.names := by
  obtain ⟨names, type, span⟩ := field
  simp

@[simp] theorem Field.type_unnumbered (field : Field) :
    field.unnumbered.type.val = field.type.val.unnumbered := by
  cases field
  rfl

theorem Field.flatTypes_unnumbered (fields : List Field) :
    flatTypes (fields.map Field.unnumbered) = (flatTypes fields).map TypeExpr.unnumbered := by
  induction fields with
  | nil => rfl
  | cons field fields ih =>
    have hcons (field : Field) (fields : List Field) : flatTypes (field :: fields) =
      replicate field.arity field.type.val ++ flatTypes fields := rfl
    rw [map_cons, hcons, hcons, ih, map_append, map_replicate]
    simp [arity]

theorem Binding.innermost?_unnumbered (l : List Binding) :
    innermost? (l.map unnumbered) = (innermost? l).map unnumbered := by
  cases l with
  | nil => rfl
  | cons first rest =>
    simp only [map_cons, innermost?, Option.map_some, Option.some.injEq]
    induction rest generalizing first with
    | nil => rfl
    | cons y rest ih =>
      rw [map_cons, foldl_cons, foldl_cons, ← ih]
      congr 1
      have hshadows : y.unnumbered.shadows first.unnumbered = y.shadows first := rfl
      rw [hshadows]
      split <;> rfl

namespace Table

/-- The structure behind a type or a pointer to it. -/
def behindPointer (table : Table) (type : TypeExpr) : TypeExpr :=
  match table.underlying type with
  | .pointer elem => table.underlying elem
  | type => type

end Table

/-- The type of a member of a struct. -/
def TypeExpr.member? (field : String) : TypeExpr → Option TypeExpr
  | .struct fields => (fields.find? fun f => f.names.any (·.val == field)).map (·.type.val)
  | _ => none

namespace Table

theorem fieldType_eq (table : Table) (base : TypeExpr) (field : String) :
    table.fieldType base field = (table.behindPointer base).member? field := rfl

section Types

variable {hole place : Span} {table : Table}

/-- A place outside of the hole is not reached from inside. -/
theorem lookup_view (hplace : hole.contains place = false) (name : String) :
    (table.view hole).lookup name place = (table.lookup name place).map TypeExpr.unnumbered := by
  have hfilter : (table.view hole).bindings.filter (·.isVisible name place) =
      (table.bindings.filter (·.isVisible name place)).map Binding.unnumbered := by
    rw [view, filter_map, filter_filter]
    congr 1
    refine filter_congr fun x _ => ?_
    have hvisible : (Binding.unnumbered x).isVisible name place = x.isVisible name place := rfl
    rw [Function.comp_apply, hvisible, Bool.and_eq_left_iff_imp]
    intro hreaches
    by_contra hinside
    have hscope := (Binding.isVisible_iff.1 hreaches).2.1
    have hcontains : hole.contains x.scope = true := by simpa using hinside
    simp [Span.contains_trans hcontains hscope] at hplace
  unfold lookup
  rw [hfilter, Binding.innermost?_unnumbered]
  cases Binding.innermost? (table.bindings.filter (·.isVisible name place)) with
  | none => exact lookup_mapValues _ _ _
  | some x => rfl

theorem follow_view (steps : Nat) (type : TypeExpr) :
    (table.view hole).follow steps type.unnumbered = (table.follow steps type).unnumbered := by
  induction steps generalizing type with
  | zero => rfl
  | succ steps ih =>
    cases type with
    | named name =>
      have hlookup : (table.view hole).types.lookup name =
        (table.types.lookup name).map TypeExpr.unnumbered := lookup_mapValues _ _ _
      simp only [TypeExpr.relabel, follow, hlookup]
      cases table.types.lookup name with
      | none => simp
      | some next => exact ih next
    | _ => simp [follow]

theorem underlying_view (type : TypeExpr) :
    (table.view hole).underlying type.unnumbered = (table.underlying type).unnumbered :=
  follow_view _ _

theorem fieldType_view (base : TypeExpr) (field : String) :
    (table.view hole).fieldType base.unnumbered field =
      (table.fieldType base field).map TypeExpr.unnumbered := by
  have hbehind (type : TypeExpr) : (table.view hole).behindPointer type.unnumbered =
      (table.behindPointer type).unnumbered := by
    unfold behindPointer
    rw [underlying_view]
    cases table.underlying type with
    | pointer elem => exact underlying_view elem
    | _ => simp
  rw [fieldType_eq, fieldType_eq, hbehind]
  cases table.behindPointer base with
  | struct fields =>
    simp only [TypeExpr.relabel, TypeExpr.member?, relabelFields_eq, find?_map,
      Option.map_map]
    have hnames : (fun f : Field => f.names.any (·.val == field)) ∘ Field.unnumbered =
        fun f => f.names.any (·.val == field) := by
      funext f
      simp
    rw [hnames]
    congr 1
    funext f
    simp
  | _ => simp [TypeExpr.member?]

theorem elementType_view (base : TypeExpr) :
    (table.view hole).elementType base.unnumbered =
      (table.elementType base).map TypeExpr.unnumbered := by
  unfold elementType
  rw [underlying_view]
  cases hbase : table.underlying base with
  | pointer inner =>
    simp only [TypeExpr.relabel]
    rw [underlying_view]
    cases table.underlying inner <;> simp
  | named name =>
    simp only [TypeExpr.relabel]
    split <;> simp
  | _ => simp

theorem resultOf_view (index : Nat) (callee : Option TypeExpr) :
    (table.view hole).resultOf index (callee.map TypeExpr.unnumbered) =
      (table.resultOf index callee).map TypeExpr.unnumbered := by
  cases callee with
  | none => rfl
  | some type =>
    simp only [resultOf, Option.map_some, Option.bind_eq_bind, Option.bind_some]
    rw [underlying_view]
    cases table.underlying type with
    | func params results => simp [Field.flatTypes_unnumbered]
    | _ => simp

/-- The result numbered `index` of a method of this receiver. -/
def methodResult (table : Table) (receiver : TypeExpr) (member : String) (index : Nat) :
    Option TypeExpr :=
  let named := match receiver with
    | .pointer elem => elem
    | type => type
  match named with
  | .named name => (table.methods.lookup (name, member)).bind (·[index]?)
  | _ => none

theorem methodResult_view (receiver : TypeExpr) (member : String) (index : Nat) :
    (table.view hole).methodResult receiver.unnumbered member index =
      (table.methodResult receiver member index).map TypeExpr.unnumbered := by
  have hlookup (name : String) : (table.view hole).methods.lookup (name, member) =
    (table.methods.lookup (name, member)).map (map TypeExpr.unnumbered) :=
  lookup_mapValues _ _ _
  have hnamed (name : String) : ((table.view hole).methods.lookup (name, member)).bind (·[index]?) =
      ((table.methods.lookup (name, member)).bind (·[index]?)).map TypeExpr.unnumbered := by
    rw [hlookup]
    cases table.methods.lookup (name, member) <;> simp
  cases receiver with
  | named name => exact hnamed name
  | pointer elem =>
    cases elem with
    | named name => exact hnamed name
    | _ => simp [methodResult]
  | _ => simp [methodResult]

theorem unaryType_view (op : UnaryOp) (operand : Option TypeExpr) :
    (table.view hole).unaryType op (operand.map TypeExpr.unnumbered) =
      (table.unaryType op operand).map TypeExpr.unnumbered := by
  cases op with
  | not | plus | neg | complement => simp [unaryType]
  | addressOf => cases operand <;> simp [unaryType]
  | deref | receive =>
    cases operand with
    | none => rfl
    | some type =>
      simp only [unaryType, Option.map_some, Option.bind_eq_bind, Option.bind_some]
      rw [underlying_view]
      cases table.underlying type <;> simp

theorem builtinResult_view (name : String) (args : List Expr) {callee callee' first first'}
    (hcallee : callee' () = (callee ()).map TypeExpr.unnumbered)
    (hfirst : first' () = (first ()).map TypeExpr.unnumbered) :
    (table.view hole).builtinResult name (args.map Expr.unnumbered) callee' first' =
      (table.builtinResult name args callee first).map TypeExpr.unnumbered := by
  unfold builtinResult
  split
  · simp
  · simp
  · simp
  · rcases args with _ | ⟨e, args⟩
    · rfl
    · cases e <;> simp
  · rcases args with _ | ⟨e, args⟩
    · rfl
    · cases e <;> simp
  · exact hfirst
  · rw [hcallee]
    exact resultOf_view 0 _

theorem literalType_unnumbered (value : Literal) :
    (literalType value).map TypeExpr.unnumbered = literalType value := by
  cases value <;> simp [literalType]

theorem identType_view (hplace : hole.contains place = false) (name : String) :
    (table.view hole).identType place name =
      (table.identType place name).map TypeExpr.unnumbered := by
  unfold identType
  split
  · simp
  · simp
  · rfl
  · rfl
  · exact lookup_view hplace name

theorem isLiteral_unnumbered (e : Expr) : isLiteral e.unnumbered = isLiteral e := by
  cases e <;> simp [isLiteral]

mutual

theorem valueType_view (e : Expr) (hplace : hole.contains place = false) (index : Nat) :
    (table.view hole).valueType place e.unnumbered index =
      (table.valueType place e index).map TypeExpr.unnumbered := by
  match e with
  | .ident span name =>
    cases index with
    | zero => simp only [Expr.relabel, valueType, identType_view hplace]
    | succ index => simp only [Expr.relabel, valueType, Option.map_none]
  | .type .. | .keyValue .. => simp only [Expr.relabel, valueType, Option.map_none]
  | .lit _ value =>
    cases index with
    | zero => simp only [Expr.relabel, valueType, literalType_unnumbered]
    | succ index => simp only [Expr.relabel, valueType, Option.map_none]
  | .composite .. | .funcLit .. =>
    cases index <;> simp [valueType]
  | .typeAssert .. =>
    match index with
    | 0 | 1 | _ + 2 => simp [valueType]
  | .paren _ inner =>
    have hinner := valueType_view inner hplace index
    simp only [Expr.relabel, valueType, hinner]
  | .index _ base key =>
    have hbase := valueType_view base hplace 0
    match index with
    | 0 =>
      simp only [Expr.relabel, valueType, hbase]
      cases table.valueType place base 0 with
      | none => rfl
      | some type => exact elementType_view type
    | 1 =>
      simp only [Expr.relabel, valueType, hbase]
      cases table.valueType place base 0 with
      | none => rfl
      | some type => simp [underlying_view, apply_ite (Option.map TypeExpr.unnumbered)]
    | _ + 2 => simp only [Expr.relabel, valueType, Option.map_none]
  | .selector _ base member =>
    have hbase := valueType_view base hplace 0
    cases index with
    | zero =>
      simp only [Expr.relabel, valueType, hbase]
      cases table.valueType place base 0 with
      | none => rfl
      | some type => exact fieldType_view type member.val
    | succ index => simp only [Expr.relabel, valueType, Option.map_none]
  | .slice _ base _ _ _ =>
    have hbase := valueType_view base hplace 0
    cases index with
    | zero => simp only [Expr.relabel, valueType, hbase]
    | succ index => simp only [Expr.relabel, valueType, Option.map_none]
  | .unary _ op operand =>
    have hoperand := valueType_view operand hplace 0
    match index with
    | 0 => simp only [Expr.relabel, valueType, hoperand, unaryType_view]
    | 1 | _ + 2 => cases op <;> simp [valueType]
  | .binary _ op left right =>
    have hleft := valueType_view left hplace 0
    have hright := valueType_view right hplace 0
    cases index with
    | zero =>
      simp only [Expr.relabel, valueType, hleft, hright, isLiteral_unnumbered]
      split
      · simp
      · split
        · rfl
        · split
          · cases table.valueType place right 0 <;> simp
          · cases table.valueType place left 0 <;> simp
    | succ index => simp only [Expr.relabel, valueType, Option.map_none]
  | .call _ callee args _ =>
    have hargs := firstType_view args hplace
    have hvalue := valueType_view callee hplace 0
    simp only [Expr.relabel, valueType, relabelExprs_eq]
    exact callType_view callee hplace index args hvalue hargs

theorem firstType_view (es : List Expr) (hplace : hole.contains place = false) :
    (table.view hole).firstType place (es.map Expr.unnumbered) =
      (table.firstType place es).map TypeExpr.unnumbered := by
  match es with
  | [] => simp only [map_nil, firstType, Option.map_none]
  | e :: es =>
    have he := valueType_view e hplace 0
    simp only [map_cons, firstType, he]

theorem callType_view (e : Expr) (hplace : hole.contains place = false) (index : Nat)
    (args : List Expr) {callee callee' first first'}
    (hcallee : callee' () = (callee ()).map TypeExpr.unnumbered)
    (hfirst : first' () = (first ()).map TypeExpr.unnumbered) :
    (table.view hole).callType place index (args.map Expr.unnumbered) callee' first' e.unnumbered =
      (table.callType place index args callee first e).map TypeExpr.unnumbered := by
  match e with
  | .ident span name =>
    have hfunction : (table.view hole).functions.lookup name =
      (table.functions.lookup name).map (map TypeExpr.unnumbered) := lookup_mapValues _ _ _
    have hvalue : (if 0 < index then (table.view hole).resultOf index (callee' ())
        else (table.view hole).builtinResult name (args.map Expr.unnumbered) callee' first') =
        (if 0 < index then table.resultOf index (callee ())
          else table.builtinResult name args callee first).map TypeExpr.unnumbered := by
      split
      · rw [hcallee, resultOf_view]
      · exact builtinResult_view name args hcallee hfirst
    simp only [Expr.relabel, callType, hfunction, lookup_view hplace]
    cases table.functions.lookup name with
    | none => exact hvalue
    | some results =>
      cases table.lookup name place with
      | none => simp
      | some type => exact hvalue
  | .paren _ inner =>
    have hinner := callType_view inner hplace index args hcallee hfirst
    simp only [Expr.relabel, callType, hinner]
  | .selector _ base member =>
    have hbase := valueType_view base hplace 0
    simp only [Expr.relabel, callType, hbase]
    cases table.valueType place base 0 with
    | none => rfl
    | some receiver => exact methodResult_view receiver member.val index
  | .type _ type =>
    simp only [Expr.relabel, callType]
    split <;> simp
  | .lit .. | .composite .. | .funcLit .. | .keyValue .. | .typeAssert .. | .index ..
  | .slice .. | .unary .. | .binary .. | .call .. =>
    simp only [Expr.relabel, callType, hcallee, resultOf_view]

end

end Types

end Table

/-! ## The walk outside -/

/-- On views, `f` is `f'`. -/
def ActsAs (hole : Span) (f f' : Table → Table) : Prop :=
  ∀ table, (f table).view hole = f' (table.view hole)

namespace ActsAs

variable {hole scope : Span} {f f' g g' : Table → Table}

theorem refl : ActsAs hole (fun table => table) fun table => table := fun _ => rfl

theorem comp (h : ActsAs hole f f') (h' : ActsAs hole g g') :
    ActsAs hole (fun table => g (f table)) fun table => g' (f' table) := by
  intro table
  rw [h' (f table), h table]

theorem bindAll (vars vars' : Table → List (String × TypeExpr)) {v}
    (hscope : hole.contains scope = false)
    (hvars : ∀ table, vars' (table.view hole) = mapValues TypeExpr.unnumbered (vars table)) :
    ActsAs hole (fun table => table.bindAll (vars table) scope v)
      fun table => table.bindAll (vars' table) scope v := by
  intro table
  have hfilter : (mapValues TypeExpr.unnumbered (vars table)).filter (fun var => var.1 != "_") =
      mapValues TypeExpr.unnumbered ((vars table).filter fun var => var.1 != "_") := by
    simp only [mapValues, filter_map, Function.comp_def]
  simp only [Table.bindAll_eq, hvars, hfilter]
  simp [Table.view, mapValues, filter_map, Function.comp_def, hscope, Binding.unnumbered]

end ActsAs

section Values

variable {hole place : Span} {table : Table}

theorem Table.parameterType_unnumbered (type : TypeExpr) :
    parameterType type.unnumbered = (parameterType type).unnumbered := by
  cases type <;> simp [parameterType]

theorem Table.fieldVars_unnumbered (fields : List Field) :
    fieldVars (fields.map Field.unnumbered) = mapValues TypeExpr.unnumbered (fieldVars fields) := by
  induction fields with
  | nil => rfl
  | cons field fields ih =>
    have hcons (field : Field) (fields : List Field) : fieldVars (field :: fields) =
      (field.names.map fun name => (name.val, parameterType field.type.val)) ++
        fieldVars fields := rfl
    rw [map_cons, hcons, hcons, ih]
    simp [mapValues, parameterType_unnumbered]

theorem Table.definedTypes_view (hplace : hole.contains place = false) (names : List String)
    (values : List Expr) :
    (table.view hole).definedTypes names (values.map Expr.unnumbered) place =
      mapValues TypeExpr.unnumbered (table.definedTypes names values place) := by
  have hvalue (value : Expr) (index : Nat) (name : String) :
      ((table.view hole).valueType place value.unnumbered index).map (fun type => (name, type)) =
        ((table.valueType place value index).map fun type => (name, type)).map
          fun var => (var.1, var.2.unnumbered) := by
    rw [valueType_view value hplace, Option.map_map, Option.map_map]
    rfl
  unfold definedTypes
  rw [length_map]
  split
  · rw [zip_map_right, filterMap_map, mapValues, map_filterMap]
    congr 1
    funext ⟨name, value⟩
    exact hvalue value 0 name
  · match values with
    | [] | _ :: _ :: _ => rfl
    | [value] =>
      simp only [map_cons, map_nil, mapValues, map_filterMap]
      congr 1
      funext ⟨name, index⟩
      exact hvalue value index name

theorem Table.specTypes_view (hplace : hole.contains place = false) (names : List Name)
    (type : Option (Located TypeExpr)) (values : List Expr) :
    (table.view hole).specTypes names (type.map Located.unnumbered) (values.map Expr.unnumbered)
      place = mapValues TypeExpr.unnumbered (table.specTypes names type values place) := by
  cases type with
  | none => exact definedTypes_view hplace _ values
  | some type => simp [specTypes, mapValues, Located.relabel]

theorem Table.rangeTypes_view (hplace : hole.contains place = false) (subject : Expr) :
    (table.view hole).rangeTypes subject.unnumbered place =
      ((table.rangeTypes subject place).1.map TypeExpr.unnumbered,
        (table.rangeTypes subject place).2.map TypeExpr.unnumbered) := by
  unfold rangeTypes
  rw [valueType_view subject hplace]
  cases table.valueType place subject 0 with
  | none => rfl
  | some type =>
    simp only [Option.map_some, underlying_view]
    cases table.underlying type with
    | named name =>
      simp only [TypeExpr.relabel]
      split <;> simp
    | _ => simp

theorem Expr.name?_unnumbered (e : Expr) : e.unnumbered.name? = e.name? := by
  cases e <;> simp [Expr.name?]

theorem Table.rangeVar_unnumbered (target : Option Expr) (type : Option TypeExpr) :
    rangeVar (target.map Expr.unnumbered) (type.map TypeExpr.unnumbered) =
      mapValues TypeExpr.unnumbered (rangeVar target type) := by
  cases target with
  | none => rfl
  | some e =>
    simp only [rangeVar, Option.map_some, Option.bind_some, e.name?_unnumbered]
    cases e.name? <;> cases type <;> rfl

end Values

/-- The node with all identities in it zero. -/
def TreeNode.unnumbered : TreeNode → TreeNode
  | .name x => .name x
  | .type x => .type x.unnumbered
  | .expr x => .expr x.unnumbered
  | .block x => .block x.unnumbered
  | .stmt x => .stmt x.unnumbered
  | .caseClause x => .caseClause x.unnumbered
  | .commClause x => .commClause x.unnumbered
  | .decl x => .decl x.unnumbered
  | .item x => .item x

/-- The node lies outside of `hole`, with all below. -/
def TreeNode.Outside (hole : Span) (node : TreeNode) : Prop :=
  ∀ below, node.Above below → hole.contains below.span = false

theorem TreeNode.Outside.span {node : TreeNode} (h : node.Outside hole) :
    hole.contains node.span = false :=
  h node (.refl node)

/-- Outside of `hole`, the second act does on views what the first one does. -/
inductive Act.Like (hole : Span) : Act → Act → Prop
  | bind {b b'} (scope : b'.scope = b.scope) (start : b'.visibleFrom = b.visibleFrom)
    (outside : hole.contains b.scope = false) (vars : ∀ table : Table,
      b'.vars (table.view hole) = mapValues TypeExpr.unnumbered (b.vars table)) :
    Act.Like hole (.bind b) (.bind b')
  | type {name type} : Act.Like hole (.type name type) (.type name type.unnumbered)
  | visit {scope node} (around : hole.contains scope = false) (outside : node.Outside hole) :
    Act.Like hole (.visit scope node) (.visit scope node.unnumbered)

section Acts

variable {hole scope place : Span}

theorem visits_like {nodes nodes'} (hscope : hole.contains scope = false)
    (hnodes : nodes' = nodes.map TreeNode.unnumbered) (h : ∀ node ∈ nodes, node.Outside hole) :
    Forall₂ (Act.Like hole) (visits scope nodes) (visits scope nodes') := by
  subst hnodes
  induction nodes with
  | nil => exact .nil
  | cons node nodes ih =>
    obtain ⟨hnode, hnodes⟩ := forall_mem_cons.1 h
    exact .cons (.visit hscope hnode) (ih hnodes)

theorem Binder.ofFields_like (fields : List Field) (hscope : hole.contains scope = false) :
    Act.Like hole (.bind (.ofFields fields scope))
      (.bind (.ofFields (fields.map Field.unnumbered) scope)) :=
  .bind rfl rfl hscope fun _ => Table.fieldVars_unnumbered fields

theorem Expr.acts_like (e : Expr) (hscope : hole.contains scope = false)
    (h : ∀ inner node, .visit inner node ∈ e.acts scope → node.Outside hole) :
    Forall₂ (Act.Like hole) (e.acts scope) (e.unnumbered.acts scope) := by
  cases e with
  | funcLit span params results body =>
    have hbody : (TreeNode.block body).Outside hole := h scope _ (by simp [acts])
    refine .cons (.bind ?_ ?_ hbody.span fun _ => ?_) (.cons (.visit hscope hbody) .nil)
    · cases body
      rfl
    · cases body
      rfl
    · simp [Binder.ofLiteral, Table.fieldVars_unnumbered, mapValues]
  | ident | lit | selector | index | slice | typeAssert | type => exact .nil
  | _ =>
    exact visits_like hscope (by simp [TreeNode.unnumbered, Function.comp_def]) fun node hmem =>
      h _ _ (mem_map_of_mem hmem)

theorem specs_like (specs : List Spec) (hscope : hole.contains scope = false)
    (hplace : hole.contains place = false)
    (h : ∀ inner node, .visit inner node ∈ specs.flatMap (Spec.acts scope place) →
      node.Outside hole) :
    Forall₂ (Act.Like hole) (specs.flatMap (Spec.acts scope place))
      ((specs.map Spec.unnumbered).flatMap (Spec.acts scope place)) := by
  induction specs with
  | nil => exact .nil
  | cons spec specs ih =>
    refine rel_append ?_ (ih fun inner node hmem => h inner node (mem_append_right _ hmem))
    cases spec with
    | typeName name isAlias type => exact .cons .type .nil
    | value names type values =>
      refine rel_append (visits_like hscope
        (by simp [TreeNode.unnumbered, Function.comp_def]) fun node hmem => h _ _
          (mem_append_left _ (mem_append_left _ (mem_map_of_mem hmem))))
        (.cons (.bind rfl rfl hscope fun table => ?_) .nil)
      simpa [Binder.ofNames] using Table.specTypes_view hplace names type values

theorem Stmt.acts_like (x : Stmt) (hscope : hole.contains scope = false)
    (hspan : hole.contains x.span = false)
    (h : ∀ inner node, .visit inner node ∈ x.acts scope → node.Outside hole) :
    Forall₂ (Act.Like hole) (x.acts scope) (x.unnumbered.acts scope) := by
  obtain ⟨id, span, form⟩ := x
  cases form with
  | decl decl =>
    obtain ⟨keyword, specs, place⟩ := decl
    simpa [acts] using specs_like specs hscope hspan h
  | assign targets op values =>
    refine rel_append (visits_like hscope (by simp [TreeNode.unnumbered, Function.comp_def])
      fun node hmem => h _ _ (mem_append_left _ (mem_map_of_mem hmem))) ?_
    split
    · refine .cons (.bind rfl rfl hscope fun table => ?_) .nil
      simpa [Binder.ofTargets, Expr.name?_unnumbered] using
        Table.definedTypes_view hspan (targets.filterMap Expr.name?) values
    · exact .nil
  | range key value defines subject body =>
    refine rel_append ?_ (visits_like hspan (by simp [TreeNode.unnumbered])
      fun node hmem => h _ _ (mem_append_right _ (mem_map_of_mem hmem)))
    split
    · refine .cons (.bind rfl rfl hspan fun table => ?_) .nil
      simp [Binder.ofRange, Table.rangeTypes_view hspan, Table.rangeVar_unnumbered, mapValues]
    · exact .nil
  | send | incDec | jump | empty => exact .nil
  | labeled | expr | go | defer | ret =>
    exact visits_like hscope (by simp [TreeNode.unnumbered, Function.comp_def]) fun node hmem =>
      h _ _ (mem_map_of_mem hmem)
  | _ =>
    refine visits_like hspan ?_ fun node hmem => h _ _ (mem_map_of_mem hmem)
    simp [TreeNode.unnumbered, Function.comp_def, Option.toList_map]

theorem FuncDecl.acts_like (func : FuncDecl) (hspan : hole.contains func.span = false)
    (h : ∀ inner node, .visit inner node ∈ (TreeNode.decl (.func func)).acts scope →
      node.Outside hole) :
    Forall₂ (Act.Like hole) ((TreeNode.decl (.func func)).acts scope)
      ((TreeNode.decl (.func func.unnumbered)).acts scope) := by
  have hreceiver : func.unnumbered.receiver.getD [] =
      (func.receiver.getD []).map Field.unnumbered := by
    simp only [FuncDecl.relabel]
    cases func.receiver <;> rfl
  simp only [TreeNode.acts, hreceiver]
  refine rel_append (.cons (Binder.ofFields_like _ hspan) (.cons (Binder.ofFields_like _ hspan)
    (.cons (Binder.ofFields_like _ hspan) .nil))) (visits_like hspan ?_ fun node hmem =>
      h _ _ (mem_append_right _ (mem_map_of_mem hmem)))
  simp [FuncDecl.relabel, TreeNode.unnumbered, Function.comp_def, Option.toList_map]

/-- Outside of `hole`, a node and the node without identities are walked over alike. -/
theorem TreeNode.acts_like {node : TreeNode} (h : node.Outside hole)
    (hscope : hole.contains scope = false) :
    Forall₂ (Act.Like hole) (node.acts scope) (node.unnumbered.acts scope) := by
  have hvisit (inner : Span) (child : TreeNode) (hmem : .visit inner child ∈ node.acts scope) :
      child.Outside hole := fun below habove => h below ((above_visit hmem).trans habove)
  cases node with
  | name | type | item => exact .nil
  | expr e => exact e.acts_like hscope hvisit
  | stmt x => exact x.acts_like hscope h.span hvisit
  | decl x =>
    cases x with
    | gen decl => exact .nil
    | func func => exact func.acts_like h.span hvisit
  | block x | caseClause x | commClause x =>
    cases x
    refine visits_like h.span ?_ fun node hmem => hvisit _ _ (mem_map_of_mem hmem)
    simp [TreeNode.unnumbered, Function.comp_def, Option.toList_map]

end Acts

namespace ActsAs

variable {hole : Span}

theorem addType (name : String) (type : TypeExpr) :
    ActsAs hole (fun table => { table with types := (name, type) :: table.types })
      fun table => { table with types := (name, type.unnumbered) :: table.types } :=
  fun _ => rfl

end ActsAs

theorem Runs.view {acts acts' : List Act} {met met' table table' table''}
    (h : Runs acts met table table') (hlike : Forall₂ (Act.Like hole) acts acts')
    (h' : Runs acts' met' (table.view hole) table'') : table'.view hole = table'' := by
  induction h generalizing acts' met' table'' with
  | nil =>
    cases hlike
    cases h'
    rfl
  | @bind b _ _ table _ _ ih =>
    cases hlike with
    | cons hfirst hrest =>
      cases hfirst with
      | bind scope start outside vars =>
        cases h' with
        | bind h' =>
          have hbind := ActsAs.bindAll (v := b.visibleFrom) b.vars _ outside vars table
          dsimp only at hbind
          rw [scope, start, ← hbind] at h'
          exact ih hrest h'
  | type _ ih =>
    cases hlike with
    | cons hfirst hrest =>
      cases hfirst
      cases h' with
      | type h' => exact ih hrest h'
  | visit _ _ ih ih' =>
    cases hlike with
    | cons hfirst hrest =>
      cases hfirst with
      | visit around outside =>
        cases h' with
        | visit hnode h' =>
          obtain rfl := ih (TreeNode.acts_like outside around) hnode
          exact ih' hrest h'

/-- The walk over a node outside of `hole`, on views. -/
theorem TreeNode.collect_view {scope : Span} {node : TreeNode} (h : node.Outside hole)
    (hscope : hole.contains scope = false) :
    ActsAs hole (node.collect scope) (node.unnumbered.collect scope) :=
  fun table => (node.runs scope table).view (acts_like h hscope) (node.unnumbered.runs scope _)

/-! ## Files -/

namespace ActsAs

variable {α : Type} {hole : Span} {step step' : Table → α → Table} {unnumbered : α → α}

theorem foldl {l : List α} (h : ∀ x ∈ l, ActsAs hole (step · x) (step' · (unnumbered x))) :
    ActsAs hole (fun table => l.foldl step table)
      fun table => (l.map unnumbered).foldl step' table := by
  induction l with
  | nil => exact refl
  | cons x l ih =>
    exact (h x (by simp)).comp (ih fun y hy => h y (mem_cons_of_mem _ hy))

end ActsAs

theorem FuncDecl.receiverType?_unnumbered (receiver : List Field) :
    receiverType? (receiver.map Field.unnumbered) = receiverType? receiver := by
  rcases receiver with _ | ⟨⟨names, ⟨type, span⟩⟩, rest⟩
  · rfl
  · cases type with
    | pointer elem => cases elem <;> simp [receiverType?]
    | _ => simp [receiverType?]

section Declarations

variable {hole : Span} {file : Nat} {a b : Mark}

theorem Table.declare_view (decl : Decl) :
    ActsAs hole (·.declare decl) (·.declare decl.unnumbered) := by
  cases decl with
  | func decl =>
    intro table
    simp only [Decl.relabel, declare, FuncDecl.relabel, Field.flatTypes_unnumbered]
    cases decl.receiver with
    | none => rfl
    | some receiver =>
      simp only [Option.map_some, FuncDecl.receiverType?_unnumbered]
      cases FuncDecl.receiverType? receiver <;> rfl
  | gen decl =>
    obtain ⟨keyword, specs, span⟩ := decl
    simp only [Decl.relabel, GenDecl.relabel, relabelSpecs_eq, declare]
    refine ActsAs.foldl fun spec _ => ?_
    cases spec with
    | value names type values => exact ActsAs.refl
    | typeName name isAlias type => exact ActsAs.addType name.val type.val

theorem Table.declareGlobals_view (h : (TreeNode.decl decl).Outside hole) :
    ActsAs hole (·.declareGlobals decl) (·.declareGlobals decl.unnumbered) := by
  cases decl with
  | func decl => exact ActsAs.refl
  | gen decl =>
    have hspan := h.span
    obtain ⟨keyword, specs, span⟩ := decl
    simp only [Decl.relabel, GenDecl.relabel, relabelSpecs_eq, declareGlobals]
    refine ActsAs.foldl fun spec _ => ?_
    cases spec with
    | typeName name isAlias type => exact ActsAs.refl
    | value names type values =>
      intro table
      have hglobals : ActsAs hole (fun table' => (table.specTypes names type values span).foldl
          (fun table var => { table with globals := var :: table.globals }) table') fun table' =>
            (mapValues TypeExpr.unnumbered (table.specTypes names type values span)).foldl
              (fun table var => { table with globals := var :: table.globals }) table' :=
        ActsAs.foldl fun var _ _ => rfl
      have htypes := @specTypes_view hole span table hspan names type values
      simp only [Spec.relabel, Name.relabel_id, map_id, relabelLocated?_eq, relabelExprs_eq, htypes]
      exact hglobals table

theorem Table.collectDecl_view (h : (TreeNode.decl decl).Outside hole) :
    ActsAs hole (·.collectDecl decl) (·.collectDecl decl.unnumbered) :=
  TreeNode.collect_view h h.span

/-- The types that a function declares in its body. -/
def FuncDecl.localTypes (func : FuncDecl) : List (String × TypeExpr) := func.met.flatMap Met.types

/-- Types that are declared, the last one in front. -/
def Table.addTypes (types : List (String × TypeExpr)) (table : Table) : Table :=
  { table with types := types.reverse ++ table.types }

/-- Seen from outside of a function, its body adds the types declared in it and nothing else. -/
theorem FuncDecl.collect_view (h : Placed file (.decl (.func func)) a b) :
    ActsAs func.span (·.collectFunction func)
      (Table.addTypes (mapValues TypeExpr.unnumbered func.localTypes)) := by
  intro table
  obtain ⟨new, hcollect, hnew⟩ := ((TreeNode.decl (.func func)).runs default table).eq
  have hhidden : new.filter (fun x => !func.span.contains x.scope) = [] := by
    refine filter_eq_nil_iff.2 fun x hx => ?_
    obtain ⟨b, before, hb, hx⟩ := hnew x hx
    rcases TreeNode.owns_of_done hb with ⟨owner, habove, howns⟩ | ⟨stmt, hstmt, -⟩
    · have hinside : func.span.contains owner.span = true := h.contains habove
      simp [(Binder.of_mem hx).1, howns.scope_eq, hinside]
    · cases hstmt
  have htypes : func.metIn.flatMap Met.types = func.localTypes := by
    simp [FuncDecl.metIn, FuncDecl.localTypes, Met.types]
  have hmet : (TreeNode.decl (.func func)).met = func.metIn := rfl
  rw [hmet, htypes] at hcollect
  have hcollect : table.collectFunction func = _ := hcollect
  dsimp only
  rw [hcollect]
  simp [Table.view, Table.addTypes, hhidden, mapValues]

end Declarations

/-- The function without its body. -/
def FuncDecl.head (func : FuncDecl) : FuncDecl := { func with body := none }

namespace Table

/-- What the declarations before and after a function record, seen from outside of the function:
of the function itself, its signature and the types declared in its body. -/
def around (before after : List Decl) (head : FuncDecl) (types : List (String × TypeExpr)) :
    Table :=
  let table := after.foldl declare ((before.foldl declare {}).declare (.func head))
  let table := after.foldl declareGlobals (before.foldl declareGlobals table)
  after.foldl collectDecl (addTypes types (before.foldl collectDecl table))

/-- One pass over declarations, with `f` in the place of the one in the middle. -/
theorem foldl_view (hole : Span) (step : Table → Decl → Table) (before : List Decl)
    (middle : Decl) (after : List Decl) {f : Table → Table}
    (hbefore : ∀ decl ∈ before, ActsAs hole (step · decl) (step · decl.unnumbered))
    (hmiddle : ActsAs hole (step · middle) f)
    (hafter : ∀ decl ∈ after, ActsAs hole (step · decl) (step · decl.unnumbered)) :
    ActsAs hole (fun table => (before ++ middle :: after).foldl step table) fun table =>
      (after.map Decl.unnumbered).foldl step
        (f ((before.map Decl.unnumbered).foldl step table)) := by
  intro table
  dsimp only
  rw [foldl_append, foldl_cons]
  exact (((ActsAs.foldl hbefore).comp hmiddle).comp (ActsAs.foldl hafter)) table

end Table

section Answers

variable {options options' : Token.ScanOptions} {index index' : Nat} {source source' : String}
  {file file' : SourceFile} {before before' after after' : List Decl} {func func' other : FuncDecl}
  {place : Span}

/-- A place in another declaration does not lie in the span of the function. -/
theorem SourceFile.not_contains_of_mem (hfile : ofSource options index source = .ok file)
    (hdecls : file.decls = before ++ .func func :: after)
    (hmem : decl ∈ before ++ after) (hplace : decl.span.contains place = true)
    (hordered : place.start ≤ place.stop) : func.span.contains place = false := by
  have hapart := decls_apart hfile
  rw [hdecls, pairwise_append, pairwise_cons] at hapart
  obtain ⟨-, ⟨hbehind, -⟩, hfront⟩ := hapart
  obtain ⟨-, hstart, hstop⟩ := Span.contains_iff.1 hplace
  by_contra hinside
  obtain ⟨-, hstart', hstop'⟩ := Span.contains_iff.1 (Bool.not_eq_false _ ▸ hinside)
  rcases mem_append.1 hmem with hmem | hmem
  · have := hfront _ hmem _ mem_cons_self
    simp only [Decl.span] at this hstart hstop
    omega
  · have := hbehind _ hmem
    simp only [Decl.span] at this hstart hstop
    omega

theorem SourceFile.outside_of_mem (hfile : ofSource options index source = .ok file)
    (hdecls : file.decls = before ++ .func func :: after)
    (hmem : decl ∈ before ++ after) : (TreeNode.decl decl).Outside func.span := by
  obtain ⟨a, b, -, hplaced⟩ := ofSource_placed hfile
  have hdecl : Placed index (.decl decl) a b := by
    refine hplaced.mem Placed.local (mem_map_of_mem ?_)
    rw [hdecls]
    exact mem_append.2 ((mem_append.1 hmem).imp_right (mem_cons_of_mem _))
  intro below habove
  exact not_contains_of_mem hfile hdecls hmem (hdecl.contains habove)
    (Nat.le_of_lt (Placed.local.covers (hdecl.above habove)).room)

/-- What remains of the table of a parsed source at places outside of a function. -/
theorem Table.view_ofFile (hfile : SourceFile.ofSource options index source = .ok file)
    (hdecls : file.decls = before ++ .func func :: after) :
    (ofFile file).view func.span = around (before.map Decl.unnumbered) (after.map Decl.unnumbered)
      func.head.unnumbered (mapValues TypeExpr.unnumbered func.localTypes) := by
  obtain ⟨a, b, -, hplaced⟩ := SourceFile.ofSource_placed hfile
  have hfunc : Placed index (.decl (.func func)) a b :=
    hplaced.mem Placed.local (mem_map_of_mem (by simp [hdecls]))
  have hbefore (decl : Decl) (hmem : decl ∈ before) :=
    SourceFile.outside_of_mem hfile hdecls (mem_append_left _ hmem)
  have hafter (decl : Decl) (hmem : decl ∈ after) :=
    SourceFile.outside_of_mem hfile hdecls (mem_append_right _ hmem)
  have hdeclare := foldl_view func.span declare before (.func func) after
    (fun decl _ => declare_view decl) (declare_view (.func func)) fun decl _ => declare_view decl
  have hglobals := foldl_view func.span declareGlobals before (.func func) after
    (fun decl hmem => declareGlobals_view (hbefore decl hmem)) ActsAs.refl
    fun decl hmem => declareGlobals_view (hafter decl hmem)
  have hcollect := foldl_view func.span collectDecl before (.func func) after
    (fun decl hmem => collectDecl_view (hbefore decl hmem)) (FuncDecl.collect_view hfunc)
    fun decl hmem => collectDecl_view (hafter decl hmem)
  rw [ofFile, foldl_functions, hdecls]
  exact ((hdeclare.comp hglobals).comp hcollect) {}

theorem Table.valueType_eq_of_view {table table' : Table}
    (h : table.view hole = table'.view hole) (hplace : hole.contains place = false) (e : Expr)
    (i : Nat) : ((table.valueType place e i).map table.resolved).map ResolvedType.unnumbered =
      ((table'.valueType place e i).map table'.resolved).map ResolvedType.unnumbered := by
  have hresolved (table : Table) : ((table.valueType place e i).map table.resolved).map
      ResolvedType.unnumbered = ((table.view hole).valueType place e.unnumbered i).map
        (table.view hole).resolved := by
    rw [valueType_view e hplace, Option.map_map, Option.map_map]
    congr 1
    funext type
    simp [resolved, ResolvedType.unnumbered, underlying_view]
  rw [hresolved, hresolved, h]

/-- If two files differ, identities apart, in the body of one function only, and the same types are
declared in both bodies, then every question at a place in another function has the same answer. -/
theorem SourceFile.answers_eq_outside (hfile : ofSource options index source = .ok file)
    (hfile' : ofSource options' index' source' = .ok file')
    (hdecls : file.decls = before ++ .func func :: after)
    (hdecls' : file'.decls = before' ++ .func func' :: after')
    (hbefore : before.map Decl.unnumbered = before'.map Decl.unnumbered)
    (hafter : after.map Decl.unnumbered = after'.map Decl.unnumbered)
    (hhead : func.head.unnumbered = func'.head.unnumbered)
    (htypes : mapValues TypeExpr.unnumbered func.localTypes =
      mapValues TypeExpr.unnumbered func'.localTypes) (hother : .func other ∈ before ++ after)
    (hplace : other.span.contains place = true) (hordered : place.start ≤ place.stop) (e : Expr) :
    ((Table.ofFile file).resolver.typeOf e place).map ResolvedType.unnumbered =
        ((Table.ofFile file').resolver.typeOf e place).map ResolvedType.unnumbered ∧
      ∀ i, ((Table.ofFile file).resolver.resultType e i place).map ResolvedType.unnumbered =
        ((Table.ofFile file').resolver.resultType e i place).map ResolvedType.unnumbered := by
  have hspan : func'.head.unnumbered.span = func.head.unnumbered.span := by rw [hhead]
  have hview : (Table.ofFile file).view func.span = (Table.ofFile file').view func.span := by
    have hview' := Table.view_ofFile hfile' hdecls'
    rw [show func'.span = func.span from hspan] at hview'
    rw [hview', Table.view_ofFile hfile hdecls, hbefore, hafter, hhead, htypes]
  have hplace := not_contains_of_mem hfile hdecls hother hplace hordered
  exact ⟨Table.valueType_eq_of_view hview hplace e 0, Table.valueType_eq_of_view hview hplace e⟩

end Answers

/-- A source in which a type is declared, and `body` stands in a function before another one. -/
def besideType (body : String) : String :=
  "package p\n\ntype T int\n\nfunc g() \x7b\n\t" ++ body ++
    "\n\x7d\n\nfunc h(x T) \x7b\n\tx++\n\x7d\n"

/-- A type that is declared in the body of one function changes what is known in another one. -/
theorem answers_differ_by_local_type :
    ["type U map[int]int", "type T map[int]int"].map (fun body =>
      (SourceFile.ofSource {} 0 (besideType body)).toOption.bind fun file =>
        file.functions.getLast?.bind fun func => func.body.bind fun inner =>
          inner.stmts.head?.bind fun stmt =>
            ((Table.ofFile file).resolver.typeOf (.ident default "x") stmt.span).map
              (·.isContainer)) = [some false, some true] := by
  decide +kernel

/-- A source in which `body` stands in a function before another one, which has a parameter `m`. -/
def besideParameter (body : String) : String :=
  "package p\n\nfunc g() \x7b\n\t" ++ body ++ "\n\x7d\n\nfunc h(m map[int]int) \x7b\n\x7d\n"

/-- The name and the place of a function that takes nothing and gives nothing. -/
def FuncDecl.plain? : FuncDecl → Option (Name × Span)
  | ⟨none, name, [], [], _, span⟩ => some (name, span)
  | _ => none

/-- The names and places in a function with one parameter, of a map type, and an empty body. -/
def FuncDecl.holder? : FuncDecl → Option ((Name × Name × String × String) × Span × Span × Span)
  | ⟨none, name, [⟨[param], ⟨.map (.named key) (.named elem), type⟩⟩], [], some ⟨[], inner⟩,
      span⟩ =>
    some ((name, param, key, elem), type, inner, span)
  | _ => none

theorem FuncDecl.head_eq_of_plain? {func' : FuncDecl} {code} (h : func.plain? = some code)
    (h' : func'.plain? = some code) : func.head = func'.head := by
  unfold plain? at h h'
  split at h <;> cases h
  split at h' <;> cases h'
  rfl

theorem FuncDecl.eq_of_holder? {func' code} (h : func.holder? = some code)
    (h' : func'.holder? = some code) : func = func' := by
  unfold holder? at h h'
  split at h <;> cases h
  split at h' <;> cases h'
  rfl

/-- Two functions, the first of which declares no types in its body. -/
def SourceFile.functionPair? (file : SourceFile) : Option (FuncDecl × FuncDecl) :=
  match file.decls with
  | [.func func, .func other] => if func.localTypes.isEmpty then some (func, other) else none
  | _ => none

theorem SourceFile.decls_of_functionPair? {file : SourceFile} {pair}
    (h : file.functionPair? = some pair) :
    file.decls = [.func pair.1, .func pair.2] ∧ pair.1.localTypes = [] := by
  unfold functionPair? at h
  split at h
  · rename_i func other hdecls
    split at h
    · rename_i hempty
      cases h
      exact ⟨hdecls, isEmpty_iff.1 hempty⟩
    · cases h
  · cases h

theorem answers_eq_outside_of_shadow :
    ∃ file file' func func' other,
      SourceFile.ofSource {} 0 (besideParameter "m := 1") = .ok file ∧
      SourceFile.ofSource {} 0 (besideParameter "m; m++") = .ok file' ∧
      file.decls = [.func func, .func other] ∧ file'.decls = [.func func', .func other] ∧
      ((Table.ofFile file).resolver.typeOf (.ident default "m") other.span).map
          ResolvedType.unnumbered =
        ((Table.ofFile file').resolver.typeOf (.ident default "m") other.span).map
          ResolvedType.unnumbered := by
  have hrun : ((SourceFile.ofSource {} 0 (besideParameter "m := 1")).toOption.bind fun file =>
      (SourceFile.ofSource {} 0 (besideParameter "m; m++")).toOption.bind fun file' =>
      file.functionPair?.bind fun pair => file'.functionPair?.bind fun pair' =>
      pair.1.plain?.bind fun head => pair.2.holder?.filter fun other =>
        pair'.1.plain? = some head ∧ pair'.2.holder? = some other).isSome := by
    decide +kernel
  obtain ⟨code, hrun⟩ := Option.isSome_iff_exists.1 hrun
  obtain ⟨file, hfile, hrun⟩ := Option.bind_eq_some_iff.1 hrun
  obtain ⟨file', hfile', hrun⟩ := Option.bind_eq_some_iff.1 hrun
  obtain ⟨⟨func, other⟩, hpair, hrun⟩ := Option.bind_eq_some_iff.1 hrun
  obtain ⟨⟨func', other'⟩, hpair', hrun⟩ := Option.bind_eq_some_iff.1 hrun
  obtain ⟨head, hhead, hrun⟩ := Option.bind_eq_some_iff.1 hrun
  obtain ⟨hother, hsame⟩ := Option.filter_eq_some_iff.1 hrun
  obtain ⟨hhead', hother'⟩ := of_decide_eq_true hsame
  obtain ⟨hdecls, htypes⟩ := SourceFile.decls_of_functionPair? hpair
  obtain ⟨hdecls', htypes'⟩ := SourceFile.decls_of_functionPair? hpair'
  obtain rfl := FuncDecl.eq_of_holder? hother hother'
  have hfile := eq_ok_of_toOption hfile
  have hfile' := eq_ok_of_toOption hfile'
  have hordered : other.span.start ≤ other.span.stop := by
    obtain ⟨a, b, -, hplaced⟩ := SourceFile.ofSource_placed hfile
    have hother : Placed 0 (.decl (.func other)) a b := hplaced.mem Placed.local (by simp [hdecls])
    exact Nat.le_of_lt (Placed.local.covers hother).room
  refine ⟨file, file', func, func', other, hfile, hfile', hdecls, hdecls', ?_⟩
  have hfront : file.decls = [] ++ .func func :: [.func other] := hdecls
  have hfront' : file'.decls = [] ++ .func func' :: [.func other] := hdecls'
  have hmem : .func other ∈ [] ++ [Decl.func other] := mem_singleton_self _
  exact (SourceFile.answers_eq_outside hfile hfile' hfront hfront' rfl rfl
    (by rw [FuncDecl.head_eq_of_plain? hhead hhead']) (by rw [htypes, htypes']) hmem
    (Span.contains_iff.2 ⟨rfl, Nat.le_refl _, Nat.le_refl _⟩)
    hordered (.ident default "m")).1

end ScriptLowering
