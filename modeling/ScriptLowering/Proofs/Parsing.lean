import ScriptLowering.Proofs.Gathering

/-!
# What the rules of the grammar do

Every rule comes to an end from any state, and gives the nodes that it read (`RulesGather`). Between
two tokens that are read, the rules call one another in chains of bounded length: each rule has a
rank above those of the rules it calls before it has read a token. So a parse needs an amount of
fuel that grows with the number of tokens only, and `fuelFor` gives that much. The proof follows the
rules: with more fuel a rule calls rules of which the statement is known.
-/

namespace ScriptLowering.Grammar

open List

variable {kind : Token.Kind} {past : Bool} {room : Nat} {s s₀ : State}

def ParamEntry.treeNodes : ParamEntry → List TreeNode
  | lone name => [.name name]
  | named name type => [.name name, .type type]
  | bare type => [.type type]

/-- A range clause counts as one node over its expressions. -/
def Simple.treeNodes : Simple → List TreeNode
  | stmt x => [.stmt x]
  | range key value _ subject span =>
    [.expr (.composite span none (key.toList ++ value.toList ++ [subject]))]

def LoopHead.treeNodes : LoopHead → List TreeNode
  | range key value _ subject => key.toList.map .expr ++ value.toList.map .expr ++ [.expr subject]
  | clauses init test post =>
    init.toList.map .stmt ++ test.toList.map .expr ++ post.toList.map .stmt

/-- A simple statement is one that may stand in a header. -/
def Simple.Shaped : Simple → Prop
  | stmt x => x.isSimple
  | range .. => True

def LoopHead.Shaped : LoopHead → Prop
  | range .. => True
  | clauses init _ post => (∀ x ∈ init, x.isSimple) ∧ ∀ x ∈ post, x.isSimple

/-- What a composite literal begins with: a type that was read as some node, or its brace. -/
inductive Heads (s₀ s : State) : List TreeNode → Option TypeExpr → Span → Prop where
  | written {node : TreeNode} {type : TypeExpr} (parts : type.treeNodes.Sublist node.children) :
      Heads s₀ s [node] (some type) node.span
  | brace (start : s = s₀) : Heads s₀ s [] none s.current.span

/-- What the rules with a given amount of fuel do, with the rank of each. -/
structure RulesGather (file : Nat) (buffer : List Token) (fuel : Nat) : Prop where
  expr : Gathers file buffer fuel true 7 (expr fuel) fun e => [.expr e]
  exprList : GathersAs file buffer fuel true 8 (exprList fuel) (fun es => es.map .expr) (· ≠ [])
  exprAbove : ∀ least, Gathers file buffer fuel true 6 (exprAbove fuel least) fun e => [.expr e]
  binaryRest : ∀ least, GathersBehind file buffer fuel 1 (binaryRest fuel least)
  unaryExpr : Gathers file buffer fuel true 5 (unaryExpr fuel) fun e => [.expr e]
  suffixes : GathersBehind file buffer fuel 2 (suffixes fuel)
  arguments : Gathers file buffer fuel false 9 (arguments fuel) fun args => args.1.map .expr
  argument : Gathers file buffer fuel true 8 (argument fuel) fun e => [.expr e]
  typeOrComposite : Gathers file buffer fuel true 3 (typeOrComposite fuel) fun e => [.expr e]
  subscript : GathersBehind file buffer fuel 8 (subscript fuel)
  primary : Gathers file buffer fuel true 4 (primary fuel) fun e => [.expr e]
  composite : ∀ {type start past s₀ nodes s}, s.current.kind = .leftBrace →
    Heads s₀ s nodes type start → Reading file fuel buffer past 1 s₀ nodes s →
    Ends buffer (composite fuel type start) (fun e s' =>
      Gains file buffer true s₀ (fun e => [.expr e]) (fun _ => True) e s' ∧ s'.Nearer s) s
  elements : Gathers file buffer fuel false 9 (elements fuel) fun es => es.map .expr
  element : Gathers file buffer fuel true 8 (element fuel) fun e => [.expr e]
  typeExpr : Gathers file buffer fuel true 2 (typeExpr fuel) fun type => [.type type]
  typeForm : Gathers file buffer fuel true 1 (typeForm fuel) TypeExpr.treeNodes
  structFields : Gathers file buffer fuel false 3 (structFields fuel) fieldTreeNodes
  interfaceMethods : Gathers file buffer fuel false 3 (interfaceMethods fuel) fieldTreeNodes
  signature : GathersAs file buffer fuel true 7 (signature fuel)
    (fun lists => fieldTreeNodes lists.1 ++ fieldTreeNodes lists.2)
    fun lists => Field.Uniform lists.1 ∧ Field.Uniform lists.2
  parameters : GathersAs file buffer fuel true 6 (parameters fuel) fieldTreeNodes Field.Uniform
  paramEntries : Gathers file buffer fuel false 5 (paramEntries fuel)
    fun entries => entries.flatMap ParamEntry.treeNodes
  paramEntry : Gathers file buffer fuel true 4 (paramEntry fuel) ParamEntry.treeNodes
  paramType : Gathers file buffer fuel true 3 (paramType fuel) fun type => [.type type]
  genDecl : GathersAt file buffer fuel 1 [.kwVar, .kwConst, .kwType] (genDecl fuel)
    (fun decl => [.decl (.gen decl)]) fun _ => True
  specGroup : ∀ keyword, Gathers file buffer fuel false 4 (specGroup fuel keyword)
    fun specs => specs.flatMap Spec.treeNodes
  spec : ∀ keyword, Gathers file buffer fuel true 3 (spec fuel keyword) Spec.treeNodes
  block : Gathers file buffer fuel true 13 (block fuel) fun body => [.block body]
  blockAt : GathersAt file buffer fuel 1 [.leftBrace] (Grammar.block fuel)
    (fun body => [.block body]) fun _ => True
  stmtList : Gathers file buffer fuel false 12 (stmtList fuel) fun stmts => stmts.map .stmt
  stmt : Gathers file buffer fuel true 11 (stmt fuel) fun stmt => [.stmt stmt]
  blockStmt : GathersAt file buffer fuel 2 [.leftBrace] (blockStmt fuel)
    (fun stmt => [.stmt stmt]) (·.isBranch)
  launchedCall : GathersAt file buffer fuel 1 [.kwGo, .kwDefer] (launchedCall fuel)
    (fun e => [.expr e]) fun _ => True
  simpleStmt : GathersAs file buffer fuel true 10 (simpleStmt fuel) (fun stmt => [.stmt stmt])
    (·.isSimple)
  simple : ∀ rangeAllowed, GathersAs file buffer fuel true 9 (simple fuel rangeAllowed)
    Simple.treeNodes Simple.Shaped
  header : GathersAs file buffer fuel false 11 (header fuel)
    (fun parts => parts.1.toList.map .stmt ++ parts.2.toList.map .stmt)
    fun parts => (∀ x ∈ parts.1, x.isSimple) ∧ ∀ x ∈ parts.2, x.isSimple
  ifStmt : GathersAt file buffer fuel 1 [.kwIf] (ifStmt fuel) (fun stmt => [.stmt stmt])
    (·.isBranch)
  switchStmt : GathersAt file buffer fuel 1 [.kwSwitch] (switchStmt fuel) (fun stmt => [.stmt stmt])
    fun _ => True
  caseClauses : Gathers file buffer fuel true 2 (caseClauses fuel)
    fun clauses => clauses.map .caseClause
  caseArms : Gathers file buffer fuel false 1 (caseArms fuel)
    fun clauses => clauses.map .caseClause
  selectStmt : GathersAt file buffer fuel 1 [.kwSelect] (selectStmt fuel) (fun stmt => [.stmt stmt])
    fun _ => True
  commArms : Gathers file buffer fuel false 1 (commArms fuel)
    fun clauses => clauses.map .commClause
  forStmt : GathersAt file buffer fuel 1 [.kwFor] (forStmt fuel) (fun stmt => [.stmt stmt])
    fun _ => True
  loopHead : GathersAs file buffer fuel false 11 (loopHead fuel) LoopHead.treeNodes LoopHead.Shaped
  loopClauses : ∀ {init past s₀ s}, s.current.kind = .semicolon →
    (s₀.Ordered file → s.reports = [] → ∀ x ∈ init, x.isSimple) →
    Reading file fuel buffer past 1 s₀ (init.toList.map .stmt) s →
    Ends buffer (loopClauses fuel init)
      (Gains file buffer false s₀ LoopHead.treeNodes LoopHead.Shaped) s

/-! ## Tokens that take room -/

theorem takesRoom_of_isBuiltinType (h : kind.isBuiltinType) : takesRoom kind := by
  cases kind <;> first | rfl | contradiction

theorem takesRoom_of_unaryOp {op} (h : unaryOp? kind = some op) : takesRoom kind := by
  cases kind <;> first | rfl | contradiction

theorem takesRoom_of_binaryOp {op} (h : binaryOp? kind = some op) : takesRoom kind := by
  cases kind <;> first | rfl | contradiction

theorem takesRoom_of_assignOp {op} (h : assignOp? kind = some op) : takesRoom kind := by
  cases kind <;> first | rfl | contradiction

theorem takesRoom_of_literal {token value} (h : literal? token = some value) :
    takesRoom token.kind := by
  unfold literal? at h
  split at h <;> first | contradiction | (rename_i hkind; rw [hkind]; rfl)

/-- What stands inside the type that an expression denotes. -/
theorem compositeType?_parts {e type} (h : compositeType? e = some type) :
    type.treeNodes.Sublist e.treeNodes := by
  unfold compositeType? at h
  split at h
  · split at h
    · contradiction
    · cases h
      exact .refl _
  · cases h
    exact nil_sublist _
  · cases h
    exact .refl _
  · contradiction

variable {file fuel : Nat} {buffer : List Token}

/-! ## Names and parameter lists -/

/-- The fields of a list hold the names and types of its entries, in order. -/
theorem groupNamed_ends {nodes} (pending : List Name) (entries : List ParamEntry)
    (h : Reading file fuel buffer past room s₀ nodes s)
    (hmem : ∀ node ∈ pending.map .name ++ entries.flatMap ParamEntry.treeNodes, node ∈ nodes) :
    Ends buffer (groupNamed pending entries) (fun fields s' =>
      Reading file fuel buffer past room s₀ nodes s' ∧ (fieldTreeNodes fields).Sublist
        (pending.map .name ++ entries.flatMap ParamEntry.treeNodes) ∧
      ∀ field ∈ fields, field.names ≠ []) s := by
  induction entries generalizing pending s with
  | nil =>
    unfold groupNamed
    split
    · rename_i last hlast
      have hspan := h.merged (hmem (.name last) (by simpa using mem_of_getLast? hlast))
      refine h.refuse hspan fun s1 h1 _ => ?_
      exact .pure h1.stands ⟨h1.reading h.grown, by simp [fieldTreeNodes], by simp⟩
    · exact .pure h.stands ⟨h, by simp [fieldTreeNodes], by simp⟩
  | cons entry entries ih =>
    cases entry with
    | lone bound =>
      unfold groupNamed
      simpa [ParamEntry.treeNodes] using
        ih (pending ++ [bound]) h (by simpa [ParamEntry.treeNodes] using hmem)
    | named bound type =>
      unfold groupNamed
      refine (ih [] h fun node hnode => hmem node (by simp_all)).bind ?_
      rintro rest s1 - ⟨h1, hsub, hnames⟩
      refine .pure h1.stands ⟨h1, ?_, by simpa using hnames⟩
      simpa [fieldTreeNodes, Field.treeNodes, ParamEntry.treeNodes] using hsub
    | bare type =>
      unfold groupNamed
      refine h.refuse (h.merged (hmem (.type type) (by simp [ParamEntry.treeNodes]))) ?_
      intro s1 h1 _
      refine (ih pending (h1.reading h.grown) fun node hnode => hmem node (by
        simp only [mem_append, flatMap_cons] at hnode ⊢
        exact hnode.imp_right .inr)).mono ?_
      rintro fields s' - ⟨h', hsub, hnames⟩
      refine ⟨h', hsub.trans ?_, hnames⟩
      simp

/-- A name that stands for a type gives a node at its place. -/
theorem unnamed_stands {entry : ParamEntry} (hlone : entry.isNamed = false) :
    ∃ node node', entry.treeNodes = [node] ∧ entry.unnamed.treeNodes = [node'] ∧
      node.Becomes node' := by
  cases entry with
  | lone bound => exact ⟨_, _, rfl, rfl, rfl, rfl, trivial, fun _ _ h => h⟩
  | named => contradiction
  | bare type => exact ⟨_, _, rfl, rfl, rfl, rfl, trivial, fun _ _ h => h⟩

theorem groupParams_ends {entries : List ParamEntry}
    (h : Reading file fuel buffer past room s₀ (entries.flatMap ParamEntry.treeNodes) s) :
    Ends buffer (groupParams entries)
    (Gains file buffer past s₀ fieldTreeNodes Field.Uniform) s := by
  unfold groupParams
  split
  · refine (groupNamed_ends [] entries h (by simp)).mono ?_
    rintro fields s' - ⟨h', hsub, hnames⟩
    exact ⟨(h'.sub hsub).toGathered, fun _ _ => .inr hnames⟩
  · rename_i hunnamed
    have hlone : ∀ entry ∈ entries, entry.isNamed = false := by simpa using hunnamed
    have hbecome : Forall₂ TreeNode.Becomes (entries.flatMap ParamEntry.treeNodes)
        (fieldTreeNodes (entries.map ParamEntry.unnamed)) := by
      clear h hunnamed
      induction entries with
      | nil => exact .nil
      | cons entry entries ih =>
        obtain ⟨hentry, hentries⟩ := forall_mem_cons.1 hlone
        obtain ⟨node, node', hnode, hnode', hbecomes⟩ := unnamed_stands hentry
        simp only [flatMap_cons, map_cons, fieldTreeNodes, hnode, hnode']
        exact .cons hbecomes (ih hentries)
    refine (h.become hbecome).doneAs (.refl _) (by simp) fun _ _ => .inl ?_
    intro field hfield
    obtain ⟨entry, -, rfl⟩ := mem_map.1 hfield
    cases entry <;> rfl

variable (hb : Sealed file buffer)
include hb

theorem namesAfter_gathers (fuel : Nat) :
    Gathers file buffer fuel false 1 (namesAfter fuel) fun bound => bound.map .name := by
  induction fuel with
  | zero => exact .zero
  | succ fuel ih =>
    refine .intro hb fun s h => ?_
    refine h.eatIf rfl (fun s1 h1 => ?_) fun _ => h.done (by simp) rfl
    refine h1.gather (name_gathers fuel) rfl fun bound s2 h2 => ?_
    refine h2.gather ih rfl fun rest s3 h3 => ?_
    exact h3.done (by simp) rfl

theorem names_gathers (fuel : Nat) :
    Gathers file buffer fuel true 1 (names fuel) fun bound => bound.map .name := by
  intro s hs hfuel
  have h : Reading file fuel buffer false 1 s [] s := .refl hb hs (Nat.succ_le_succ hfuel)
  refine h.gather (name_gathers fuel) rfl fun bound s1 h1 => ?_
  refine h1.gather (namesAfter_gathers hb fuel) rfl fun rest s2 h2 => ?_
  exact h2.done (by simp) rfl

/-! ## Expressions -/

omit hb in
theorem jumpStmt_gathers {jump} (hroom : takesRoom s.current.kind)
    (h : Reading file fuel buffer false room s [] s) : Ends buffer (jumpStmt s.current.span jump)
      (Gains file buffer true s (fun stmt => [.stmt stmt]) fun _ => True) s := by
  refine h.token hroom fun s1 h1 => .sees_bind h1.stands ?_
  extract_lets next
  have hnext : ∀ label s2, Reading file fuel buffer true (room + 16) s (label.toList.map .name) s2 →
      Ends buffer (next label)
        (Gains file buffer true s (fun stmt => [.stmt stmt]) fun _ => True) s2 := by
    intro label s2 h2
    refine .previousSpan_bind h2.stands ?_
    exact h2.newStmtAs rfl .token h2.closes (.all (.refl _)) (fun _ _ => trivial) fun _ => trivial
  split
  · refine h1.gather (name_gathers fuel) rfl fun label s2 h2 => ?_
    rw [pure_bind]
    exact hnext (some label) s2 h2
  · exact h1.faultIf (want_ends _ h1.stands) fun s2 h2 _ => hnext none s2 h2

/-- The arms of a `switch` or `select`. -/
theorem arms_gathers {α γ : Type} {rank parts shape} {label : Parse α} {body rest}
    {clause : Option α → List Stmt → Span → γ} {node : γ → TreeNode}
    (hlabel : GathersAs file buffer fuel past rank label parts shape)
    (hrank : rank.ble (0 + 16) = true)
    (hbody : Gathers file buffer fuel false 12 body fun stmts => stmts.map .stmt)
    (hrest : Gathers file buffer fuel false 1 rest fun clauses => clauses.map node)
    (hspan : ∀ read stmts span, (node (clause read stmts span)).span = span)
    (hchildren : ∀ read stmts span, (node (clause read stmts span)).children =
      read.toList.flatMap parts ++ stmts.map .stmt)
    (hfree : ∀ arm, (node arm).isFree = true) :
    Gathers file buffer (fuel + 1) false 1 (arms label body clause rest)
      fun clauses => clauses.map node := by
  refine .listed hb rfl fun s hgo h => ?_
  refine .currentSpan_bind h.stands (.sees_bind h.stands (.sees_bind h.stands ?_))
  split
  · rename_i hcases
    extract_lets next
    have hnext (read : Option α) (s1 : State)
        (h1 : Reading file fuel buffer true 16 s (read.toList.flatMap parts) s1) :
        Ends buffer (next read) (Gains file buffer false s (fun clauses => clauses.map node)
          fun _ => True) s1 := by
      refine h1.expect rfl fun s2 h2 => h2.gather hbody rfl fun stmts s3 h3 => ?_
      refine .previousSpan_bind h3.stands ?_
      extract_lets arm
      have harm : Reading file fuel buffer true 16 s [node arm] s3 :=
        h3.build (hspan ..) .token h3.closes (.all (by simp [arm, hchildren])) (hfree _)
      exact harm.gather hrest rfl fun rest s4 h4 => h4.done (by simp) rfl
    refine h.eatIf rfl (fun s1 h1 => ?_) fun hcase => ?_
    · refine h1.gather hlabel hrank fun x s2 h2 => ?_
      rw [pure_bind]
      exact hnext (some x) s2 (by simpa using h2)
    · have hdefault : s.current.kind = .kwDefault := by simpa [hcase] using hcases
      refine h.token (hdefault ▸ rfl) fun s1 h1 => ?_
      rw [pure_bind]
      exact hnext none s1 h1
  · refine h.want fun s1 h1 hfault => h1.skip fun s2 h2 hnear => ?_
    obtain ⟨report, rfl⟩ := hfault
    have h3 := h1.nearer h2 (hnear (by simp_all) (by simp_all))
    have h4 : Reading file fuel buffer false _ s [] s2 := h3.reading (by simp)
    exact h4.rest hrest rfl rfl

section RulesGather

variable (rules : RulesGather file buffer fuel)
include rules

omit hb in
theorem binaryRest_succ (least : Nat) :
    GathersBehind file buffer (fuel + 1) 1 (binaryRest (fuel + 1) least) := by
  intro left s₀ s h
  have h := h.spend
  refine .peek_bind h.stands ?_
  split
  · exact h.done (.refl _) rfl
  · rename_i op hop
    dsimp only
    split
    · exact h.done (.refl _) rfl
    · refine h.token (takesRoom_of_binaryOp hop) fun s1 h1 => ?_
      refine h1.gather (rules.exprAbove _) rfl fun right s2 h2 => ?_
      exact (rules.binaryRest least).go (h2.build rfl .node .node (.all (.refl _)) rfl) rfl

theorem unaryExpr_succ : Gathers file buffer (fuel + 1) true 5 (unaryExpr (fuel + 1))
    fun e => [.expr e] := by
  refine .intro hb fun s h => ?_
  refine .currentSpan_bind h.stands (.peek_bind h.stands (.peekNext_bind h.stands ?_))
  split
  · refine h.gather rules.typeExpr rfl fun type s1 h1 => ?_
    exact rules.suffixes.go (h1.become (.cons ⟨rfl, rfl, trivial, fun _ _ h => h⟩ .nil)) rfl
  · split
    · refine h.gather rules.primary rfl fun base s1 h1 => ?_
      exact rules.suffixes.go h1 rfl
    · rename_i op hop
      refine h.token (takesRoom_of_unaryOp hop) fun s1 h1 => ?_
      refine h1.nested (fun s2 h2 => h2.done ?_) fun s2 h2 => ?_
      · simpa using TreeNode.Grown.leaf h.stands.current rfl
      · refine h2.gather rules.unaryExpr rfl fun operand s3 h3 => ?_
        exact h3.give rfl rfl .token .node (.all (.refl _)) rfl

omit hb in
theorem suffixes_succ : GathersBehind file buffer (fuel + 1) 2 (suffixes (fuel + 1)) := by
  intro base s₀ s h
  have h := h.spend
  refine .peek_bind h.stands ?_
  split
  · rename_i hkind
    refine h.token (hkind ▸ rfl) fun s1 h1 => ?_
    refine h1.eatIf rfl (fun s2 h2 => ?_) fun _ => ?_
    · -- a type assertion
      refine h2.eat fun guard s3 h3 _ => ?_
      extract_lets next
      have hnext : ∀ type s', Reading file fuel buffer true 2 s₀
          ([.expr base] ++ type.toList.flatMap TypeExpr.treeNodes) s' →
          Ends buffer (next type) (Gains file buffer true s₀ (fun e => [.expr e]) fun _ => True)
            s' := by
        intro type s' h'
        refine h'.expect rfl fun s4 h4 => .previousSpan_bind h4.stands ?_
        exact rules.suffixes.go (h4.build rfl .node h4.closes (.all (.refl _)) rfl) rfl
      split
      · rw [pure_bind]
        exact hnext none s3 (h3.less (by decide))
      · refine h3.gather rules.typeExpr.inner rfl fun type s4 h4 => ?_
        rw [pure_bind]
        exact hnext (some type.val) s4 (by simpa using h4.less (by decide))
    · refine h1.gather (name_gathers fuel) rfl fun member s2 h2 => ?_
      exact rules.suffixes.go (h2.build rfl .node .node (.all (.refl _)) rfl) rfl
  · rename_i hkind
    refine h.token (hkind ▸ rfl) fun s1 h1 => ?_
    refine h1.chain (h1.withHeader fun s2 h2 => rules.subscript.go h2 rfl) fun e s2 h2 _ => ?_
    exact rules.suffixes.go h2 rfl
  · rename_i hkind
    refine h.token (hkind ▸ rfl) fun s1 h1 => ?_
    have hargs : Ends buffer (withHeader false (do
          let args ← arguments fuel
          let _ ← expect .rightParen
          return args))
        (Gains file buffer true s₀ (fun args => .expr base :: args.1.map .expr) fun _ => True)
        s1 := by
      refine h1.withHeader fun s2 h2 => ?_
      refine h2.gather rules.arguments rfl fun args s3 h3 => ?_
      exact h3.expect rfl fun s4 h4 => h4.done (.refl _) rfl
    refine h1.chain hargs fun args s2 h2 _ => ?_
    refine .previousSpan_bind h2.stands ?_
    exact rules.suffixes.go (h2.build rfl .node h2.closes (.all (.refl _)) rfl) rfl
  · rename_i hkind
    refine .get_bind h.stands ?_
    split
    · exact h.done (.refl _) rfl
    · split
      · exact h.done (.refl _) rfl
      · rename_i type htype
        refine h.chainNearer (rules.composite hkind (.written (compositeType?_parts htype)) h)
          fun e s1 h1 _ => ?_
        exact rules.suffixes.go h1 rfl
  · exact h.done (.refl _) rfl

omit hb in
theorem subscript_succ : GathersBehind file buffer (fuel + 1) 8 (subscript (fuel + 1)) := by
  intro base s₀ s h
  have h := h.spend
  refine .sees_bind h.stands ?_
  extract_lets afterLow
  -- Without a lower bound a colon follows.
  have hlow : ∀ low s1,
      Reading file fuel buffer true 7 s₀ ([.expr base] ++ low.toList.map .expr) s1 →
      (low = none → s1.current.kind = .colon) →
      Ends buffer (afterLow low) (Gains file buffer true s₀ (fun e => [.expr e]) fun _ => True)
        s1 := by
    intro low s1 h1 hcolon
    refine h1.eatIf rfl (fun s2 h2 => ?_) fun hother => ?_
    · refine .sees_bind h2.stands (.sees_bind h2.stands ?_)
      refine h2.gatherUnless rules.expr rfl fun high s3 h3 _ => ?_
      refine h3.eat fun colon s4 h4 _ => ?_
      refine h4.gatherSome rules.expr rfl fun max s5 h5 _ => ?_
      refine h5.expect rfl fun s6 h6 => .previousSpan_bind h6.stands ?_
      refine h6.give rfl rfl .node h6.closes (.all ?_) rfl
      simp [TreeNode.children, Expr.treeNodes, ← map_eq_flatMap]
    · cases low with
      | none => exact absurd (hcolon rfl) hother
      | some key =>
        refine h1.expect rfl fun s2 h2 => .previousSpan_bind h2.stands ?_
        exact h2.give rfl rfl .node h2.closes (.all (.refl _)) rfl
  split
  · rename_i hcolon
    rw [pure_bind]
    exact hlow none s h fun _ => by simpa using hcolon
  · refine h.gather rules.expr rfl fun low s1 h1 => ?_
    rw [pure_bind]
    exact hlow (some low) s1 h1 (by simp)

theorem primary_succ : Gathers file buffer (fuel + 1) true 4 (primary (fuel + 1))
    fun e => [.expr e] := by
  refine .intro hb fun s h => ?_
  refine .get_bind h.stands ?_
  extract_lets token start
  -- an expression of one token
  have hleaf (hroom : takesRoom s.current.kind) {e : Expr} (hspan : e.span = s.current.span)
      (hparts : e.treeNodes = []) (hfree : (TreeNode.expr e).isFree = true) :
      Ends buffer (advance >>= fun _ => pure e)
        (Gains file buffer true s (fun e => [.expr e]) fun _ => True) s := by
    refine h.token hroom fun s1 h1 => ?_
    have h2 : Reading file fuel buffer true _ s [.expr e] s1 := h1.leaf hroom hspan hparts hfree
    exact h2.done (.refl _) rfl
  split
  · rename_i hbuiltin
    exact hleaf (takesRoom_of_isBuiltinType hbuiltin) rfl rfl rfl
  · split
    · rename_i hkind
      exact hleaf (hkind ▸ rfl) rfl rfl rfl
    · rename_i hkind
      refine h.token (hkind ▸ rfl) fun s1 h1 => ?_
      refine h1.gather (rules.expr.withHeader hb) rfl fun inner s2 h2 => ?_
      refine h2.expect rfl fun s3 h3 => .previousSpan_bind h3.stands ?_
      exact h3.give rfl rfl .token h3.closes (.all (.refl _)) rfl
    · rename_i hkind
      refine h.token (hkind ▸ rfl) fun s1 h1 => ?_
      -- What is read behind the keyword starts behind it.
      refine h1.restart.gather rules.signature rfl fun lists s2 h2 => ?_
      refine .sees_bind h2.stands ?_
      split
      · refine h2.gather rules.block rfl fun body s3 h3 => .previousSpan_bind h3.stands ?_
        have h4 := h1.join h3
        refine h4.giveAs rfl rfl .token h4.closes
          (.all (by simp [TreeNode.children, Expr.treeNodes]))
          rfl fun hordered hclean => ?_
        have hpast := (h1.moved hordered (h3.clean hclean)).past rfl
        have hbody := (h3.strung hpast.ordered hclean).mem Placed.local
          (mem_append_right _ (mem_singleton_self (TreeNode.block body)))
        have hbehind : s1.start ≤ body.span.start := (Placed.local.covers hbody).start
        have hstart := hpast.start_lt
        have hpassed := hpast.ordered.passed_le
        exact Nat.lt_of_le_of_lt (Nat.min_le_left _ _) (show s.start < body.span.start by omega)
      · refine .previousSpan_bind h2.stands ?_
        have h3 := h1.join h2
        exact h3.give rfl rfl .token h3.closes (.all (.refl _)) rfl
    iterate 5 exact h.rest rules.typeOrComposite rfl rfl
    · split
      · rename_i value hvalue
        exact hleaf (takesRoom_of_literal hvalue) rfl rfl rfl
      · have hblank : ∀ node ∈ [TreeNode.expr (.blank start)], node.Grown (Merged buffer) := by
          simpa using TreeNode.Grown.leaf h.stands.current rfl
        refine h.want fun s1 h1 _ => ?_
        split
        · exact h1.advance fun s2 h2 => h2.done hblank
        · exact h1.done hblank

omit hb in
theorem composite_succ {type start nodes} (hkind : s.current.kind = .leftBrace)
    (hhead : Heads s₀ s nodes type start) (h : Reading file (fuel + 1) buffer past 1 s₀ nodes s) :
    Ends buffer (composite (fuel + 1) type start) (fun e s' =>
      Gains file buffer true s₀ (fun e => [.expr e]) (fun _ => True) e s' ∧ s'.Nearer s) s := by
  have h := h.spend
  refine h.expectAt hkind rfl fun s1 h1 => ?_
  have helems : Ends buffer (withHeader false (do
        let elems ← elements fuel
        let _ ← expect .rightBrace
        return elems))
      (Gains file buffer true s₀ (fun elems => nodes ++ elems.map .expr) fun _ => True) s1 := by
    refine h1.withHeader fun s2 h2 => ?_
    refine h2.gather rules.elements rfl fun elems s3 h3 => ?_
    exact h3.expect rfl fun s4 h4 => h4.done (.refl _) rfl
  refine h1.chain helems fun elems s2 h2 _ => .previousSpan_bind h2.stands ?_
  cases hhead with
  | written parts =>
    refine h2.give rfl rfl .node h2.closes (.first ?_) rfl
    simpa [TreeNode.children, Expr.treeNodes] using parts
  | brace start =>
    subst start
    exact h2.give rfl rfl .token h2.closes (.all (.refl _)) rfl

theorem elements_succ : Gathers file buffer (fuel + 1) false 9 (elements (fuel + 1))
    fun es => es.map .expr := by
  refine .listed hb rfl fun s _ h => ?_
  refine h.gather rules.element rfl fun key s1 h1 => ?_
  refine h1.eat fun colon s2 h2 _ => ?_
  extract_lets next
  have hnext : ∀ elem s3, Reading file fuel buffer true 8 s [.expr elem] s3 →
      Ends buffer (next elem)
        (Gains file buffer false s (fun es => es.map .expr) fun _ => True) s3 := by
    intro elem s3 h3
    refine h3.eatIf rfl (fun s4 h4 => ?_) fun _ =>
      h3.eatNewline fun s4 h4 => h4.done (by simp) rfl
    refine h4.eatNewline fun s5 h5 => ?_
    refine h5.gather rules.elements rfl fun rest s6 h6 => ?_
    exact h6.done (by simp) rfl
  split
  · refine h2.gather rules.element rfl fun value s3 h3 => ?_
    rw [pure_bind]
    exact hnext _ _ (h3.build rfl .node .node (.all (.refl _)) rfl)
  · rw [pure_bind]
    exact hnext _ _ h2

/-! ## Types -/

theorem typeForm_succ : Gathers file buffer (fuel + 1) true 1 (typeForm (fuel + 1))
    TypeExpr.treeNodes := by
  refine .intro hb fun s h => ?_
  refine .peek_bind h.stands ?_
  split
  · rename_i hbuiltin
    exact h.token (takesRoom_of_isBuiltinType hbuiltin) fun s1 h1 => h1.done (.refl _) rfl
  · split
    · refine h.gather (name_gathers fuel) rfl fun first s1 h1 => ?_
      refine .sees_bind h1.stands (.peekNext_bind h1.stands ?_)
      split
      · refine h1.advance fun s2 h2 => h2.gather (name_gathers fuel) rfl fun member s3 h3 => ?_
        exact h3.done (by simp [TypeExpr.treeNodes]) rfl
      · exact h1.done (by simp [TypeExpr.treeNodes]) rfl
    · rename_i hkind
      refine h.token (hkind ▸ rfl) fun s1 h1 => ?_
      exact h1.gather rules.typeExpr.inner rfl fun elem s2 h2 => h2.done (.refl _) rfl
    · rename_i hkind
      refine h.token (hkind ▸ rfl) fun s1 h1 => .sees_bind h1.stands ?_
      refine h1.gatherUnless (rules.expr.withHeader hb) rfl fun length s2 h2 _ => ?_
      refine h2.expect rfl fun s3 h3 => ?_
      refine h3.gather rules.typeExpr.inner rfl fun elem s4 h4 => h4.done ?_ rfl
      simp [TypeExpr.treeNodes, ← map_eq_flatMap]
    · rename_i hkind
      refine h.token (hkind ▸ rfl) fun s1 h1 => h1.expect rfl fun s2 h2 => ?_
      refine h2.gather rules.typeExpr.inner rfl fun key s3 h3 => h3.expect rfl fun s4 h4 => ?_
      exact h4.gather rules.typeExpr.inner rfl fun elem s5 h5 => h5.done (.refl _) rfl
    · rename_i hkind
      refine h.token (hkind ▸ rfl) fun s1 h1 => h1.eat fun sends s2 h2 _ => ?_
      exact h2.gather rules.typeExpr.inner rfl fun elem s3 h3 => h3.done (.refl _) rfl
    · rename_i hkind
      refine h.token (hkind ▸ rfl) fun s1 h1 => h1.expect rfl fun s2 h2 => ?_
      exact h2.gather rules.typeExpr.inner rfl fun elem s3 h3 => h3.done (.refl _) rfl
    · rename_i hkind
      refine h.token (hkind ▸ rfl) fun s1 h1 => ?_
      exact h1.gather rules.signature rfl fun lists s2 h2 => h2.done (.refl _) rfl
    · rename_i hkind
      refine h.token (hkind ▸ rfl) fun s1 h1 => h1.expect rfl fun s2 h2 => ?_
      refine h2.gather rules.structFields rfl fun fields s3 h3 => ?_
      exact h3.expect rfl fun s4 h4 => h4.done (.refl _) rfl
    · rename_i hkind
      refine h.token (hkind ▸ rfl) fun s1 h1 => h1.expect rfl fun s2 h2 => ?_
      refine h2.gather rules.interfaceMethods rfl fun methods s3 h3 => ?_
      exact h3.expect rfl fun s4 h4 => h4.done (.refl _) rfl
    · rename_i hkind
      refine h.token (hkind ▸ rfl) fun s1 h1 => ?_
      refine h1.gather rules.typeExpr.inner rfl fun inner s2 h2 => ?_
      exact h2.expect rfl fun s3 h3 => h3.done (.refl _) rfl
    · exact h.want fun s1 h1 _ => h1.done (by simp [TypeExpr.treeNodes])

theorem structFields_succ : Gathers file buffer (fuel + 1) false 3
    (structFields (fuel + 1)) fieldTreeNodes := by
  refine .listed hb rfl fun s hgo h => ?_
  refine h.eatSemicolonIf (fun s1 h1 => h1.rest rules.structFields rfl rfl) ?_
  refine .remaining_bind h.stands (.peekNext_bind h.stands ?_)
  refine .sees_bind h.stands (.sees_bind h.stands ?_)
  extract_lets embedded next
  have hnext : ∀ field s1, Reading file fuel buffer true 2 s field.treeNodes s1 →
      Ends buffer (next field) (Gains file buffer false s fieldTreeNodes fun _ => True) s1 := by
    intro field s1 h1
    refine h1.eat fun _ s2 h2 _ => h2.terminator fun s3 h3 => ?_
    refine h3.forced h hgo.2 fun s4 h4 => ?_
    exact h4.gather rules.structFields rfl fun rest s5 h5 =>
      h5.done (by simp [fieldTreeNodes]) rfl
  split
  · refine h.gather rules.typeExpr rfl fun type s1 h1 => ?_
    rw [pure_bind]
    exact hnext _ s1 h1
  · refine h.gather (names_gathers hb fuel) rfl fun bound s1 h1 => ?_
    refine h1.gather rules.typeExpr rfl fun type s2 h2 => ?_
    rw [pure_bind]
    exact hnext ⟨bound, type⟩ s2 h2

theorem interfaceMethods_succ : Gathers file buffer (fuel + 1) false 3
    (interfaceMethods (fuel + 1)) fieldTreeNodes := by
  refine .listed hb rfl fun s hgo h => ?_
  refine h.eatSemicolonIf (fun s1 h1 => h1.rest rules.interfaceMethods rfl rfl) ?_
  refine .remaining_bind h.stands (.sees_bind h.stands (.peekNext_bind h.stands ?_))
  extract_lets next
  have hnext : ∀ field s1, Reading file fuel buffer true 2 s field.treeNodes s1 →
      Ends buffer (next field) (Gains file buffer false s fieldTreeNodes fun _ => True) s1 := by
    intro field s1 h1
    refine h1.terminator fun s2 h2 => h2.forced h hgo.2 fun s3 h3 => ?_
    exact h3.gather rules.interfaceMethods rfl fun rest s4 h4 =>
      h4.done (by simp [fieldTreeNodes]) rfl
  split
  · rename_i hmethod
    have hident : s.current.kind = .ident := by simpa using (Bool.and_eq_true_iff.1 hmethod).1
    refine h.nameAt hident fun bound h1 => .currentSpan_bind h1.stands ?_
    -- The type of a method begins behind its name.
    refine h1.restart.gather rules.signature rfl fun lists s2 h2 => ?_
    refine .previousSpan_bind h2.stands ?_
    rw [pure_bind]
    refine hnext _ s2 (.less (h1.join
      (h2.build ?_ .token h2.closes (.all (.refl _)) rfl)) (by decide))
    rfl
  · refine h.gather rules.typeExpr rfl fun type s1 h1 => ?_
    rw [pure_bind]
    exact hnext _ s1 h1

/-! ## Signatures -/

theorem signature_succ : GathersAs file buffer (fuel + 1) true 7 (signature (fuel + 1))
    (fun lists => fieldTreeNodes lists.1 ++ fieldTreeNodes lists.2)
    fun lists => Field.Uniform lists.1 ∧ Field.Uniform lists.2 := by
  refine .intro hb fun s h => ?_
  refine h.gatherAs rules.parameters rfl fun params s1 h1 hparams => ?_
  refine .sees_bind h1.stands ?_
  split
  · refine h1.restart.gatherAs rules.parameters rfl fun results s2 h2 hresults => ?_
    refine (h1.join h2).doneAs (.refl _) rfl fun hordered hclean => ?_
    have hclean1 := h2.clean hclean
    exact ⟨hparams hordered hclean1, hresults (h1.ordered hordered hclean1) hclean⟩
  · refine .peek_bind h1.stands ?_
    split
    · refine h1.restart.gather rules.typeExpr rfl fun type s2 h2 => ?_
      refine (h1.join h2).doneAs (.refl _) rfl fun hordered hclean => ?_
      exact ⟨hparams hordered (h2.clean hclean), .inl (by simp [Field.unnamed])⟩
    · refine h1.doneAs (by simp [fieldTreeNodes]) rfl fun hordered hclean => ?_
      exact ⟨hparams hordered hclean, .inl (by simp)⟩

/-! ## Declarations -/

theorem genDecl_succ : GathersAt file buffer (fuel + 1) 1 [.kwVar, .kwConst, .kwType]
    (genDecl (fuel + 1)) (fun decl => [.decl (.gen decl)]) fun _ => True := by
  refine .intro hb fun s hkind h => ?_
  have hroom : takesRoom s.current.kind := by
    simp only [mem_cons, not_mem_nil, or_false] at hkind
    rcases hkind with hkind | hkind | hkind <;> exact hkind ▸ rfl
  refine .currentSpan_bind h.stands (.peek_bind h.stands ?_)
  extract_lets keyword next
  refine h.tokenAt hroom fun s1 h1 _ => ?_
  have hnext : ∀ specs s', Reading file fuel buffer true 3 s (specs.flatMap Spec.treeNodes) s' →
      Ends buffer (next specs)
        (Gains file buffer true s (fun decl => [.decl (.gen decl)]) fun _ => True) s' := by
    intro specs s' h'
    refine .previousSpan_bind h'.stands ?_
    exact h'.give rfl rfl .token h'.closes (.all (.refl _)) rfl
  refine h1.eat fun paren s2 h2 _ => ?_
  split
  · refine h2.gather (rules.specGroup _) rfl fun specs s3 h3 => h3.expect rfl fun s4 h4 => ?_
    rw [pure_bind]
    exact hnext specs s4 (h4.less (by decide))
  · refine h2.gather (rules.spec _) rfl fun spec s3 h3 => ?_
    rw [pure_bind]
    exact hnext [spec] s3 (by simpa using h3.less (by decide))

theorem spec_succ (keyword : DeclKeyword) : Gathers file buffer (fuel + 1) true 3
    (spec (fuel + 1) keyword) Spec.treeNodes := by
  refine .intro hb fun s h => ?_
  unfold spec
  split
  · refine h.gather (name_gathers fuel) rfl fun bound s1 h1 => h1.eat fun isAlias s2 h2 _ => ?_
    exact h2.gather rules.typeExpr rfl fun type s3 h3 => h3.done (.refl _) rfl
  · refine h.gather (names_gathers hb fuel) rfl fun bound s1 h1 => .peek_bind h1.stands ?_
    refine h1.gatherSome rules.typeExpr rfl fun type s2 h2 _ => ?_
    refine h2.eat fun assigned s3 h3 hassigned => ?_
    extract_lets next
    have hnext : ∀ values s', Reading file fuel buffer true 2 s (bound.map .name ++
        type.toList.map .type ++ values.map .expr) s' →
        Ends buffer (next values) (Gains file buffer true s Spec.treeNodes fun _ => True) s' := by
      intro values s' h'
      exact h'.faultIf (want_ends _ h'.stands) fun s4 h4 _ => h4.done (.refl _) rfl
    split
    · rename_i heaten
      refine (hassigned heaten rfl).gather rules.exprList rfl fun values s4 h4 => ?_
      exact hnext values s4 (by simpa [← map_eq_flatMap] using h4.less (by decide))
    · rw [pure_bind]
      exact hnext [] s3 (by simpa [← map_eq_flatMap] using h3)

/-! ## Statements -/

/-- What a block reads behind its opening brace. -/
theorem blockRest_gathers {s1} (h : Reading file fuel buffer true 12 s [] s1) : Ends buffer
      (nested
        (do
          skipStatement
          return ⟨[], s.current.span⟩)
        (do
          let stmts ← withHeader false (stmtList fuel)
          let stop ← expect .rightBrace
          return ⟨stmts, s.current.span.join stop⟩))
      (Gains file buffer true s (fun body : Block => [.block body]) fun _ => True) s1 := by
  refine h.nested (fun s2 h2 => h2.skip fun s3 h3 _ => h3.done ?_) fun s2 h2 => ?_
  · simpa using TreeNode.Grown.leaf h.first.current rfl
  · refine h2.gather (rules.stmtList.withHeader hb) rfl fun stmts s3 h3 => ?_
    refine h3.expectLast rfl fun s4 h4 hlast => ?_
    have hstop : Closes file buffer s s4 (stmts.map .stmt) s3.current.span :=
      .token h3.stands.current fun hordered hclean => (hlast hordered hclean).2
    exact h4.give rfl rfl .token hstop (.all (.refl _)) rfl

theorem stmtList_succ : Gathers file buffer (fuel + 1) false 12 (stmtList (fuel + 1))
    fun stmts => stmts.map .stmt := by
  refine .intro hb fun s h => ?_
  refine .peek_bind h.stands ?_
  split
  · exact h.done (.refl _) rfl
  · rename_i hgo
    have hkind : s.current.kind ≠ .endOfInput := by
      intro hend
      simp [hend, closesStmts] at hgo
    refine h.eatSemicolonIf (fun s1 h1 => h1.rest rules.stmtList rfl rfl) ?_
    refine .remaining_bind h.stands ?_
    refine h.gather rules.stmt rfl fun first s1 h1 => .peek_bind h1.stands ?_
    refine h1.terminatorIf fun s2 h2 => h2.forced h hkind fun s3 h3 => ?_
    exact h3.gather rules.stmtList rfl fun rest s4 h4 => h4.done (by simp) rfl

theorem stmt_succ : Gathers file buffer (fuel + 1) true 11 (stmt (fuel + 1))
    fun stmt => [.stmt stmt] := by
  refine .intro hb fun s h => ?_
  have hdecl (hkind : s.current.kind ∈ [.kwVar, .kwConst, .kwType]) :
      Ends buffer (genDecl fuel >>= fun decl => newStmt (.decl decl) decl.span)
        (Gains file buffer true s (fun stmt => [.stmt stmt]) fun _ => True) s := by
    refine h.gatherAt rules.genDecl hkind rfl fun decl s1 h1 _ => ?_
    exact h1.newStmtAs (Span.join_self _).symm .node .node (.all (.refl _)) (fun _ _ => trivial)
      fun _ => trivial
  have hlaunch (form : Expr → StmtForm) (hkind : s.current.kind ∈ [.kwGo, .kwDefer])
      (hform : ∀ e, (form e).treeNodes = [.expr e]) (hshaped : ∀ e, (form e).Shaped) :
      Ends buffer (launchedCall fuel >>= fun call =>
          newStmt (form call) (s.current.span.join call.span))
        (Gains file buffer true s (fun stmt => [.stmt stmt]) fun _ => True) s := by
    refine h.gatherAt rules.launchedCall hkind rfl fun call s1 h1 _ => ?_
    exact h1.newStmtAs rfl .token .node (.all (by simp [hform])) (fun _ _ => hshaped call)
      fun _ => trivial
  refine .currentSpan_bind h.stands (.peek_bind h.stands ?_)
  split
  iterate 3
    · rename_i hkind
      exact hdecl (by simp [hkind])
  · rename_i hkind
    refine h.token (hkind ▸ rfl) fun s1 h1 => ?_
    refine .sees_bind h1.stands (.sees_bind h1.stands ?_)
    extract_lets next
    have hnext : ∀ values s2, Reading file fuel buffer true 26 s (values.map .expr) s2 →
        Ends buffer (next values)
          (Gains file buffer true s (fun stmt => [.stmt stmt]) fun _ => True) s2 := by
      intro values s2 h2
      refine .previousSpan_bind h2.stands ?_
      exact h2.newStmtAs rfl .token h2.closes (.all (.refl _)) (fun _ _ => trivial) fun _ => trivial
    split
    · rw [pure_bind]
      exact hnext [] s1 h1
    · exact h1.gather rules.exprList rfl fun values s2 h2 => hnext values s2 h2
  iterate 3
    · rename_i hkind
      exact jumpStmt_gathers (hkind ▸ rfl) h
  · rename_i hkind
    refine (h.tokenAt (hkind ▸ rfl) fun s1 h1 hbefore => ?_).mono fun _ _ _ ha => ha.1
    have hstop : Closes file buffer s s1 [] s.current.span :=
      .token h.stands.current fun _ _ => by simp [hbefore]
    exact h1.newStmtAs (Span.join_self _).symm .token hstop (.all (.refl _)) (fun _ _ => trivial)
      fun _ => trivial
  · rename_i hkind
    exact hlaunch .go (by simp [hkind]) (fun _ => rfl) fun _ => trivial
  · rename_i hkind
    exact hlaunch .defer (by simp [hkind]) (fun _ => rfl) fun _ => trivial
  · rename_i hkind
    exact h.restAt rules.blockStmt (by simp [hkind]) rfl
  · rename_i hkind
    exact h.restAt rules.ifStmt (by simp [hkind]) rfl
  · rename_i hkind
    exact h.restAt rules.switchStmt (by simp [hkind]) rfl
  · rename_i hkind
    exact h.restAt rules.selectStmt (by simp [hkind]) rfl
  · rename_i hkind
    exact h.restAt rules.forStmt (by simp [hkind]) rfl
  · rename_i hkind
    refine .peekNext_bind h.stands ?_
    split
    · rename_i hcolon
      refine h.nameAt hkind fun label h1 => ?_
      have hcolon : s.advanced.current.kind = .colon := by
        have hnext : s.nextKind = .colon := by simpa using hcolon
        rw [State.advanced_kind (by rw [hnext]; simp), hnext]
      -- The inner statement begins at the colon, if it is empty, or behind it.
      refine (h1.restart.tokenAt (hcolon ▸ rfl) fun s2 h2 hbefore => ?_).mono fun _ _ _ ha => ha.1
      refine .sees_bind h2.stands (.sees_bind h2.stands ?_)
      extract_lets next
      have hnext : ∀ inner s3, Reading file fuel buffer true 42 s.advanced [.stmt inner] s3 →
          Ends buffer (next inner)
            (Gains file buffer true s (fun stmt => [.stmt stmt]) fun _ => True) s3 := by
        intro inner s3 h3
        exact (h1.join h3).newStmtAs rfl .token .node (.all (.refl _)) (fun _ _ => trivial)
          fun _ => trivial
      split
      · refine .previousSpan_bind h2.stands ?_
        have hstop : Closes file buffer s.advanced s2 [] (s2.before.getD s2.current.span) :=
          h2.closes
        rw [hbefore, Option.getD_some] at hstop ⊢
        exact h2.newStmt (Span.join_self _).symm .token hstop (.all (.refl _)) (fun _ _ => trivial)
          fun id s3 h3 => hnext _ s3 h3
      · exact h2.gather rules.stmt rfl fun inner s3 h3 => hnext inner s3 h3
    · exact h.rest rules.simpleStmt.plain rfl rfl
  · exact h.rest rules.simpleStmt.plain rfl rfl

theorem simple_succ (rangeAllowed : Bool) : GathersAs file buffer (fuel + 1) true 9
    (simple (fuel + 1) rangeAllowed) Simple.treeNodes Simple.Shaped := by
  refine .intro hb fun s h => ?_
  refine .currentSpan_bind h.stands (.sees_bind h.stands ?_)
  split
  · rename_i hrange
    have hkind : s.current.kind = .kwRange := by simpa using (Bool.and_eq_true_iff.1 hrange).2
    refine h.token (hkind ▸ rfl) fun s1 h1 => h1.gather rules.expr rfl fun subject s2 h2 => ?_
    exact (h2.build rfl .token .node (.all (.refl _)) rfl).doneAs (.refl _) rfl fun _ _ => trivial
  · refine h.gatherAs rules.exprList rfl fun targets s1 h1 htargets => ?_
    refine .peek_bind h1.stands ?_
    split
    · rename_i op hop
      refine h1.token (takesRoom_of_assignOp hop) fun s2 h2 => .sees_bind h2.stands ?_
      split
      · refine h2.advance fun s3 h3 => h3.gather rules.expr rfl fun subject s4 h4 => ?_
        have hsubject : TreeNode.expr subject ∈ targets.map .expr ++ [.expr subject] := by simp
        have hspan := h.stands.current.merge hb (h4.merged hsubject)
        refine h4.faultIf (refuse_ends _ hspan h4.stands) fun s5 h5 _ => ?_
        refine (h5.build rfl .token .node (.all ?_) rfl).doneAs (.refl _) rfl fun _ _ => trivial
        rcases targets with _ | ⟨key, _ | ⟨value, rest⟩⟩ <;>
          simp [TreeNode.children, Expr.treeNodes]
      · refine h2.gather rules.exprList rfl fun values s3 h3 => .previousSpan_bind h3.stands ?_
        extract_lets span last next
        have hspan : Merged buffer span := h.stands.current.merge hb h3.stands.previous
        have hlast : ∀ s4, Reading file fuel buffer true 24 s
            (targets.map .expr ++ values.map .expr) s4 →
            (s4.reports = [] → s4 = s3 ∧ (StmtForm.assign targets op values).Shaped) →
            Ends buffer (last ()) (Gains file buffer true s Simple.treeNodes Simple.Shaped) s4 := by
          intro s4 h4 hsound
          have hstop : Closes file buffer s s4 (targets.map .expr ++ values.map .expr)
              (s3.before.getD s3.current.span) :=
            .token h3.stands.previous fun _ hclean => by rw [(hsound hclean).1]
          exact h4.newStmt rfl .token hstop (.all (.refl _)) (fun _ hclean => (hsound hclean).2)
            fun id s5 h5 => h5.doneAs (.refl _) rfl fun _ _ => rfl
        refine h3.faultIf (refuse_ends _ hspan h3.stands) fun s4 h4 hcount => ?_
        have hsound (hclean : s4.reports = []) : s4 = s3 ∧
            (op.combines?.isSome → targets.length = 1 ∧ values.length = 1) := by
          simpa using hcount hclean
        dsimp only [next]
        split
        · split
          · rename_i target hfind
            have htarget : TreeNode.expr target ∈ targets.map .expr ++ values.map .expr :=
              mem_append_left _ (mem_map_of_mem (mem_of_find?_eq_some hfind))
            exact h4.refuse (h4.merged htarget) fun s5 h5 _ =>
              hlast s5 (h5.reading h4.grown) fun hclean => absurd hclean h5.faulty
          · rename_i hfind
            refine hlast s4 h4 fun hclean => ⟨(hsound hclean).1, (hsound hclean).2, fun _ => ?_⟩
            simpa [Option.isSome_iff_ne_none] using hfind
        · rename_i hother
          refine hlast s4 h4 fun hclean => ⟨(hsound hclean).1, (hsound hclean).2, fun hop => ?_⟩
          simp [hop] at hother
    · -- Only the first of the expressions is kept; with more of them there is a report.
      have hfirst : Reading file fuel buffer true 8 s
          [.expr (targets.headD (.blank s.current.span))] s1 := by
        cases targets with
        | nil =>
          exact { h1 with
            grown := by simpa using TreeNode.Grown.leaf h.stands.current rfl
            strung := fun hordered hclean => absurd rfl (htargets hordered hclean) }
        | cons first rest => exact h1.sub (by simp)
      refine hfirst.faultIf (want_ends _ h1.stands) fun s2 h2 _ => ?_
      generalize targets.headD (.blank s.current.span) = first at h2 ⊢
      have hstep (increments : Bool) :
          Ends buffer (advance >>= fun _ => previousSpan >>= fun span =>
              newStmt (.incDec first increments) (s.current.span.join span) >>= fun stmt =>
                pure (Simple.stmt stmt))
            (Gains file buffer true s Simple.treeNodes Simple.Shaped) s2 := by
        refine h2.advance fun s3 h3 => .previousSpan_bind h3.stands ?_
        exact h3.newStmt rfl .token h3.closes (.all (.refl _)) (fun _ _ => trivial)
          fun id s4 h4 => h4.doneAs (.refl _) rfl fun _ _ => rfl
      refine .peek_bind h2.stands ?_
      split
      · refine h2.advance fun s3 h3 => h3.gather rules.expr rfl fun value s4 h4 => ?_
        exact h4.newStmt rfl .token .node (.all (.refl _)) (fun _ _ => trivial)
          fun id s5 h5 => h5.doneAs (.refl _) rfl fun _ _ => rfl
      · exact hstep true
      · exact hstep false
      · have hstop : Closes file buffer s s2 ([] ++ [.expr first]) first.span := .node
        exact h2.newStmt (Span.join_self _).symm .node hstop (.all (.refl _)) (fun _ _ => trivial)
          fun id s3 h3 => h3.doneAs (.refl _) rfl fun _ _ => rfl

/-! ## Headers and bodies -/

theorem header_succ : GathersAs file buffer (fuel + 1) false 11 (header (fuel + 1))
    (fun parts => parts.1.toList.map .stmt ++ parts.2.toList.map .stmt)
    fun parts => (∀ x ∈ parts.1, x.isSimple) ∧ ∀ x ∈ parts.2, x.isSimple := by
  refine .intro hb fun s h => ?_
  refine .sees_bind h.stands ?_
  split
  · exact h.doneAs (.refl _) rfl (by simp)
  · refine .sees_bind h.stands ?_
    refine h.gatherUnless rules.simpleStmt rfl fun first s1 h1 hfirst => .get_bind h1.stands ?_
    rw [← map_eq_flatMap] at h1
    dsimp only
    split
    · refine h1.restart.advance fun s2 h2 => .sees_bind h2.stands ?_
      split
      · refine (h1.join h2).doneAs (.refl _) rfl fun hordered hclean => ⟨?_, by simp⟩
        exact hfirst hordered (h2.clean hclean)
      · refine h2.gatherAs rules.simpleStmt rfl fun second s3 h3 hsecond => ?_
        refine (h1.join h3).doneAs (.refl _) rfl fun hordered hclean => ?_
        have hclean1 := h3.clean hclean
        refine ⟨hfirst hordered hclean1, ?_⟩
        simpa using hsecond (h1.ordered hordered hclean1) hclean
    · exact h1.doneAs (.refl _) rfl fun hordered hclean => ⟨by simp, hfirst hordered hclean⟩

theorem ifStmt_succ : GathersAt file buffer (fuel + 1) 1 [.kwIf] (ifStmt (fuel + 1))
    (fun stmt => [.stmt stmt]) (·.isBranch) := by
  refine .intro hb fun s hkind h => ?_
  refine h.expectAt (by simpa using hkind) rfl fun s1 h1 => ?_
  refine h1.gatherAs (rules.header.withHeader hb) rfl fun parts s2 h2 hparts => ?_
  obtain ⟨init, rest⟩ := parts
  dsimp -zeta only
  extract_lets next
  have hnext : ∀ test s3, Reading file fuel buffer true 16 s
      (init.toList.map .stmt ++ [.expr test]) s3 →
      (s.Ordered file → s3.reports = [] → ∀ x ∈ init, x.isSimple) →
      Ends buffer (next test) (Gains file buffer true s (fun stmt => [.stmt stmt]) (·.isBranch))
        s3 := by
    intro test s3 h3 hinit
    refine h3.restart.gather rules.block rfl fun body s4 h4 => h4.eat fun again s5 h5 hagain => ?_
    extract_lets last
    have hlast : ∀ otherwise s6, Reading file fuel buffer true 0 s3
        ([.block body] ++ otherwise.toList.map .stmt) s6 →
        (s3.Ordered file → s6.reports = [] → ∀ x ∈ otherwise, x.isBranch) →
        Ends buffer (last otherwise)
          (Gains file buffer true s (fun stmt => [.stmt stmt]) (·.isBranch)) s6 := by
      intro otherwise s6 h6 hotherwise
      have h7 := h3.join h6
      refine .previousSpan_bind h6.stands (h7.newStmtAs rfl .token h7.closes
        (.all (by simp [StmtForm.treeNodes])) (fun hordered hclean => ?_) fun _ => rfl)
      have hclean3 := h6.clean hclean
      exact ⟨hinit hordered hclean3, hotherwise (h3.ordered hordered hclean3) hclean⟩
    have hnone (s6 : State) (h6 : Reading file fuel buffer true 0 s3 [.block body] s6) :
        Ends buffer (last none)
          (Gains file buffer true s (fun stmt => [.stmt stmt]) (·.isBranch)) s6 :=
      hlast none s6 h6 (by simp)
    split
    · rename_i heaten
      refine .peek_bind h5.stands ?_
      split
      · rename_i hkind
        refine h5.gatherAt rules.ifStmt (by simp [hkind]) rfl fun other s6 h6 hother => ?_
        rw [pure_bind]
        exact hlast (some other) s6 (h6.less (by decide)) (by simpa using hother)
      · rename_i hkind
        refine h5.gatherAt rules.blockStmt (by simp [hkind]) rfl fun other s6 h6 hother => ?_
        rw [pure_bind]
        exact hlast (some other) s6 (h6.less (by decide)) (by simpa using hother)
      · refine h5.want fun s6 h6 _ => ?_
        rw [pure_bind]
        exact hnone s6 ((h6.reading h5.grown).less (by decide))
    · rw [pure_bind]
      exact hnone s5 (h5.less (by decide))
  have hblank {span : Span} {s3 : State} (h3 : Failed file fuel buffer 16 s s3)
      (hspan : Merged buffer span) : Ends buffer (next (.blank span))
        (Gains file buffer true s (fun stmt => [.stmt stmt]) (·.isBranch)) s3 := by
    refine hnext _ s3 (h3.reading ?_) fun _ hclean => absurd hclean h3.faulty
    have hinit : Reading file fuel buffer true 16 s (init.toList.map .stmt) s2 := h2.sub (by simp)
    refine forall_mem_append.2 ⟨hinit.grown, ?_⟩
    simpa using TreeNode.Grown.leaf hspan rfl
  split
  · rw [pure_bind]
    exact hnext _ s2 h2.inner fun hordered hclean => (hparts hordered hclean).1
  · rename_i other _
    have hother : TreeNode.stmt other ∈ init.toList.map .stmt ++ [.stmt other] := by simp
    have hspan : Merged buffer other.span := h2.merged hother
    refine h2.refuse hspan fun s3 h3 _ => ?_
    rw [pure_bind]
    exact hblank h3 hspan
  · refine h2.want fun s3 h3 _ => .currentSpan_bind h3.stands ?_
    rw [pure_bind]
    exact hblank h3 h3.stands.current

theorem switchStmt_succ : GathersAt file buffer (fuel + 1) 1 [.kwSwitch]
    (switchStmt (fuel + 1)) (fun stmt => [.stmt stmt]) fun _ => True := by
  refine .intro hb fun s hkind h => ?_
  refine h.expectAt (by simpa using hkind) rfl fun s1 h1 => ?_
  refine h1.gatherAs (rules.header.withHeader hb) rfl fun parts s2 h2 hparts => ?_
  obtain ⟨init, rest⟩ := parts
  dsimp only at h2 hparts ⊢
  -- The arms, behind what the header makes of the statement.
  have harms (form : List CaseClause → StmtForm) {nodes : List TreeNode} {s3 : State}
      (h3 : Reading file fuel buffer true 16 s nodes s3)
      (hform : ∀ clauses, (form clauses).treeNodes = nodes ++ clauses.map .caseClause)
      (hshaped : s.Ordered file → s3.reports = [] → ∀ clauses, (form clauses).Shaped) :
      Ends buffer (caseClauses fuel >>= fun clauses => previousSpan >>= fun span =>
          newStmt (form clauses) (s.current.span.join span))
        (Gains file buffer true s (fun stmt => [.stmt stmt]) fun _ => True) s3 := by
    refine h3.restart.gather rules.caseClauses rfl fun clauses s4 h4 => ?_
    refine .previousSpan_bind h4.stands ?_
    have h5 := h3.join h4
    exact h5.newStmtAs rfl .token h5.closes (.all (by simp [hform]))
      (fun hordered hclean => hshaped hordered (h4.clean hclean) clauses) fun _ => trivial
  split
  · exact harms (.switch init none) h2 (by simp [StmtForm.treeNodes]) fun hordered hclean _ =>
      (hparts hordered hclean).1
  · rename_i head
    split
    · exact harms (.typeSwitch init head) h2 (by simp [StmtForm.treeNodes])
        fun hordered hclean _ => by simpa [StmtForm.Shaped] using hparts hordered hclean
    · split
      · rename_i tag htag
        rw [pure_bind]
        have h3 := h2.inner
        rw [TreeNode.children, htag] at h3
        exact harms (.switch init (some tag)) h3 (by simp [StmtForm.treeNodes])
          fun hordered hclean _ => (hparts hordered hclean).1
      · have hhead : TreeNode.stmt head ∈ init.toList.map .stmt ++ [.stmt head] := by simp
        have hspan : Merged buffer head.span := h2.merged hhead
        refine h2.refuse hspan fun s3 h3 _ => ?_
        rw [pure_bind]
        have h4 : Reading file fuel buffer true 16 s (init.toList.map .stmt) s3 :=
          h3.reading (h2.sub (by simp)).grown
        exact harms (.switch init none) h4 (by simp [StmtForm.treeNodes])
          fun _ hclean => absurd hclean h3.faulty

theorem forStmt_succ : GathersAt file buffer (fuel + 1) 1 [.kwFor] (forStmt (fuel + 1))
    (fun stmt => [.stmt stmt]) fun _ => True := by
  refine .intro hb fun s hkind h => ?_
  refine h.expectAt (by simpa using hkind) rfl fun s1 h1 => ?_
  refine h1.gatherAs (rules.loopHead.withHeader hb) rfl fun head s2 h2 hhead => ?_
  refine h2.restart.gather rules.block rfl fun body s3 h3 => .previousSpan_bind h3.stands ?_
  have h4 := h2.join h3
  have hshaped (hordered : s.Ordered file) (hclean : s3.reports = []) :=
    hhead hordered (h3.clean hclean)
  cases head with
  | range key value defines subject =>
    exact h4.newStmtAs rfl .token h4.closes
      (.all (by simp [LoopHead.treeNodes, StmtForm.treeNodes]))
      (fun _ _ => trivial) fun _ => trivial
  | clauses init test post =>
    exact h4.newStmtAs rfl .token h4.closes (.all (.refl _)) hshaped fun _ => trivial

theorem loopHead_succ : GathersAs file buffer (fuel + 1) false 11 (loopHead (fuel + 1))
    LoopHead.treeNodes LoopHead.Shaped := by
  refine .intro hb fun s h => ?_
  refine .sees_bind h.stands ?_
  split
  · exact h.doneAs (.refl _) rfl (by simp [LoopHead.Shaped])
  · refine .sees_bind h.stands ?_
    split
    · rename_i hsemicolon
      exact rules.loopClauses (by simpa using hsemicolon) (by simp) (h.less (by decide))
    · refine h.gatherAs (rules.simple true) rfl fun x s1 h1 hx => ?_
      split
      · refine h1.inner.doneAs ?_ rfl fun _ _ => trivial
        simp [TreeNode.children, Expr.treeNodes, LoopHead.treeNodes]
      · rename_i first
        refine .sees_bind h1.stands ?_
        split
        · rename_i hsemicolon
          refine rules.loopClauses (by simpa using hsemicolon) (fun hordered hclean => ?_)
            (h1.less (by decide))
          simpa [Simple.Shaped] using hx hordered hclean
        · split
          · rename_i test htest
            refine h1.inner.doneAs ?_ rfl (by simp [LoopHead.Shaped])
            simp [TreeNode.children, htest, StmtForm.treeNodes, LoopHead.treeNodes]
          · refine h1.refuse (h1.merged (.head _)) fun s2 h2 _ => h2.done ?_
            simp [LoopHead.treeNodes]

omit hb in
theorem loopClauses_succ {init} (hkind : s.current.kind = .semicolon)
    (hinit : s₀.Ordered file → s.reports = [] → ∀ x ∈ init, x.isSimple)
    (h : Reading file (fuel + 1) buffer past 1 s₀ (init.toList.map .stmt) s) :
    Ends buffer (loopClauses (fuel + 1) init)
      (Gains file buffer false s₀ LoopHead.treeNodes LoopHead.Shaped) s := by
  have h := h.spend
  refine h.restart.advanceOver (by simp [hkind]) fun s1 h1 _ => .sees_bind h1.stands ?_
  refine h1.gatherUnless rules.expr rfl fun test s2 h2 _ => h2.expectSemicolon fun s3 h3 => ?_
  refine .sees_bind h3.stands ?_
  refine h3.gatherUnless rules.simpleStmt rfl fun post s4 h4 hpost => ?_
  refine (h.join h4).doneAs ?_ rfl fun hordered hclean => ?_
  · simp [LoopHead.treeNodes, ← map_eq_flatMap]
  · have hclean1 := h4.clean hclean
    exact ⟨hinit hordered hclean1, hpost (h.ordered hordered hclean1) hclean⟩

theorem RulesGather.succ : RulesGather file buffer (fuel + 1) where
  expr := .intro hb fun _ h => h.rest (rules.exprAbove 0) rfl rfl
  exprList := by
    refine .intro hb fun s h => ?_
    refine h.gather rules.expr rfl fun first s1 h1 => ?_
    refine h1.eatIf rfl (fun s2 h2 => ?_) fun _ => h1.doneAs (by simp) rfl (by simp)
    refine h2.gather rules.exprList rfl fun rest s3 h3 => ?_
    exact h3.doneAs (by simp) rfl (by simp)
  exprAbove least := by
    refine .intro hb fun s h => ?_
    refine h.nested (fun s1 h1 => ?_) fun s1 h1 => ?_
    · refine .currentSpan_bind h1.stands ?_
      refine h1.skip fun s2 h2 _ => h2.done ?_
      simpa using TreeNode.Grown.leaf h1.stands.current rfl
    · refine h1.gather rules.unaryExpr rfl fun left s2 h2 => ?_
      exact (rules.binaryRest least).go h2 rfl
  binaryRest := binaryRest_succ rules
  unaryExpr := unaryExpr_succ hb rules
  suffixes := suffixes_succ rules
  arguments := by
    refine .listed hb rfl fun s _ h => ?_
    refine h.gather rules.argument rfl fun first s1 h1 => ?_
    refine h1.eat fun spread s2 h2 _ => ?_
    refine h2.eatIf rfl (fun s3 h3 => ?_) fun _ => h2.done (by simp) rfl
    refine h3.gather rules.arguments rfl fun rest s4 h4 => ?_
    exact h4.done (by simp) rfl
  argument := by
    refine .intro hb fun s h => ?_
    refine .sees_bind h.stands (.sees_bind h.stands ?_)
    split
    · exact h.rest rules.typeOrComposite rfl rfl
    · exact h.rest rules.expr rfl rfl
  typeOrComposite := by
    refine .intro hb fun s h => ?_
    refine h.gather rules.typeExpr rfl fun type s1 h1 => ?_
    refine .sees_bind h1.stands ?_
    split
    · rename_i hkind
      refine (rules.composite (by simpa using hkind) (.written (.refl _))
        (h1.less (by decide))).mono fun _ _ _ he => he.1
    · have h2 : Reading file fuel buffer true 2 s [.expr (.type type.span type.val)] s1 :=
        h1.become (.cons ⟨rfl, rfl, trivial, fun _ _ h => h⟩ .nil)
      exact h2.done (.refl _) rfl
  subscript := subscript_succ rules
  primary := primary_succ hb rules
  composite := composite_succ rules
  elements := elements_succ hb rules
  element := by
    refine .intro hb fun s h => ?_
    refine .sees_bind h.stands ?_
    split
    · rename_i hkind
      refine .currentSpan_bind h.stands ?_
      exact (rules.composite (by simpa using hkind) (.brace rfl) (h.less (by decide))).mono
        fun _ _ _ he => he.1
    · exact h.rest rules.expr rfl rfl
  typeExpr := by
    refine .intro hb fun s h => ?_
    refine .currentSpan_bind h.stands (h.nested (fun s1 h1 => h1.done ?_) fun s1 h1 => ?_)
    · simpa using TreeNode.Grown.leaf h.stands.current rfl
    · refine h1.gather rules.typeForm rfl fun type s2 h2 => .previousSpan_bind h2.stands ?_
      exact h2.give rfl rfl .token h2.closes (.all (.refl _)) rfl
  typeForm := typeForm_succ hb rules
  structFields := structFields_succ hb rules
  interfaceMethods := interfaceMethods_succ hb rules
  signature := signature_succ hb rules
  parameters := by
    refine .intro hb fun s h => ?_
    refine h.expect rfl fun s1 h1 => ?_
    have hentries : Ends buffer (withHeader false (do
          let entries ← Grammar.paramEntries fuel
          let _ ← expect .rightParen
          return entries))
        (Gains file buffer true s (fun entries => entries.flatMap ParamEntry.treeNodes)
          fun _ => True) s1 := by
      refine h1.withHeader fun s2 h2 => ?_
      refine h2.gather rules.paramEntries rfl fun entries s3 h3 => ?_
      exact h3.expect rfl fun s4 h4 => h4.done (.refl _) rfl
    exact h1.chain hentries fun entries s2 h2 _ => groupParams_ends h2
  paramEntries := by
    refine .listed hb rfl fun s _ h => ?_
    refine h.gather rules.paramEntry rfl fun first s1 h1 => ?_
    refine h1.eatIf rfl (fun s2 h2 => ?_) fun _ => h1.done (by simp) rfl
    exact h2.gather rules.paramEntries rfl fun rest s3 h3 => h3.done (by simp) rfl
  paramEntry := by
    refine .intro hb fun s h => ?_
    refine .sees_bind h.stands ?_
    split
    · refine .peekNext_bind h.stands ?_
      split
      iterate 2 exact h.gather (name_gathers fuel) rfl fun bound s1 h1 => h1.done (.refl _) rfl
      · exact h.gather rules.typeExpr rfl fun type s1 h1 => h1.done (.refl _) rfl
      · refine h.gather (name_gathers fuel) rfl fun bound s1 h1 => ?_
        exact h1.gather rules.paramType rfl fun type s2 h2 => h2.done (.refl _) rfl
    · exact h.gather rules.paramType rfl fun type s1 h1 => h1.done (.refl _) rfl
  paramType := by
    refine .intro hb fun s h => ?_
    refine .sees_bind h.stands ?_
    split
    · rename_i hkind
      refine .currentSpan_bind h.stands (h.token (eq_of_beq hkind ▸ rfl) fun s1 h1 => ?_)
      refine h1.gather rules.typeExpr rfl fun elem s2 h2 => ?_
      exact h2.give rfl rfl .token .node
        (.first (by simp [TreeNode.children, TypeExpr.treeNodes])) rfl
    · exact h.rest rules.typeExpr rfl rfl
  genDecl := genDecl_succ hb rules
  specGroup keyword := by
    refine .listed hb rfl fun s hgo h => ?_
    refine .remaining_bind h.stands ?_
    refine h.gather (rules.spec keyword) rfl fun first s1 h1 => .sees_bind h1.stands ?_
    refine h1.terminatorIf fun s2 h2 => h2.forced h hgo.2 fun s3 h3 => ?_
    exact h3.gather (rules.specGroup keyword) rfl fun rest s4 h4 => h4.done (by simp) rfl
  spec := spec_succ hb rules
  block := by
    refine .intro hb fun s h => ?_
    exact h.expect rfl fun s1 h1 => blockRest_gathers hb rules h1
  blockAt := by
    refine .intro hb fun s hkind h => ?_
    exact h.expectAt (by simpa using hkind) rfl fun s1 h1 =>
      blockRest_gathers hb rules (h1.less (by decide))
  stmtList := stmtList_succ hb rules
  stmt := stmt_succ hb rules
  blockStmt := by
    refine .intro hb fun s hkind h => ?_
    refine h.gatherFirst rules.blockAt hkind rfl fun body s1 h1 _ => ?_
    exact h1.newStmtAs (Span.join_self _).symm .node .node (.all (.refl _)) (fun _ _ => trivial)
      fun _ => rfl
  launchedCall := by
    refine .intro hb fun s hkind h => ?_
    have hroom : takesRoom s.current.kind := by
      simp only [mem_cons, not_mem_nil, or_false] at hkind
      rcases hkind with hkind | hkind <;> exact hkind ▸ rfl
    refine h.tokenAt hroom fun s1 h1 _ => h1.gather rules.expr rfl fun call s2 h2 => ?_
    split
    · exact h2.done (.refl _) rfl
    · exact h2.refuse (h2.merged (.head _)) fun s3 h3 _ => h3.done h2.grown
  simpleStmt := by
    refine .intro hb fun s h => ?_
    refine h.gatherAs (rules.simple false) rfl fun x s1 h1 hx => ?_
    split
    · exact h1.doneAs (.refl _) rfl hx
    · rename_i key value defines subject span
      have hspan : Merged buffer span := h1.merged (.head _)
      exact h1.refuse hspan fun s2 h2 _ => h2.newStmt fun id => .leaf hspan rfl
  simple := simple_succ hb rules
  header := header_succ hb rules
  ifStmt := ifStmt_succ hb rules
  switchStmt := switchStmt_succ hb rules
  caseClauses := by
    refine .intro hb fun s h => ?_
    refine h.expect rfl fun s1 h1 => h1.gather rules.caseArms rfl fun clauses s2 h2 => ?_
    exact h2.expect rfl fun s3 h3 => h3.done (.refl _) rfl
  caseArms :=
    arms_gathers hb rules.exprList rfl rules.stmtList rules.caseArms (fun _ _ _ => rfl)
      (fun read _ _ => by cases read <;> simp [TreeNode.children]) fun _ => rfl
  selectStmt := by
    refine .intro hb fun s hkind h => ?_
    refine h.expectAt (by simpa using hkind) rfl fun s1 h1 => h1.expect rfl fun s2 h2 => ?_
    refine h2.gather rules.commArms rfl fun clauses s3 h3 => h3.expect rfl fun s4 h4 => ?_
    refine .previousSpan_bind h4.stands ?_
    exact h4.newStmtAs rfl .token h4.closes (.all (.refl _)) (fun _ _ => trivial) fun _ => trivial
  commArms :=
    arms_gathers hb rules.simpleStmt rfl rules.stmtList rules.commArms (fun _ _ _ => rfl)
      (fun _ _ _ => by simp [TreeNode.children, ← map_eq_flatMap]) fun _ => rfl
  forStmt := forStmt_succ hb rules
  loopHead := loopHead_succ hb rules
  loopClauses := loopClauses_succ rules

end RulesGather

/-- The rules come to an end with the fuel that their rank asks for, and give what they read. -/
theorem rulesGather (fuel : Nat) : RulesGather file buffer fuel := by
  induction fuel with
  | zero =>
    -- All ranks are positive, so nothing is asked of a rule without fuel.
    constructor
    all_goals
      intros
      first
      | exact .zero
      | exact fun _ _ _ hfuel => absurd hfuel (by omega)
      | exact fun _ _ _ h => h.not_zero.elim
      | exact Reading.not_zero (by assumption) |>.elim
  | succ fuel rules => exact rules.succ hb

end ScriptLowering.Grammar
