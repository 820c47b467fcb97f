import Mathlib.Data.List.Forall2
import ScriptLowering.Proofs.Norms
import ScriptLowering.Proofs.Reading

/-!
# The nodes of a tree

Everything in a tree that has a place of its own is a `TreeNode`; `TreeNode.children` are the nodes
right below it. Written types have no place, so what stands inside one belongs to the node that the
type is written in. `NodeWithin file lo hi node` says that the node lies in a stretch of a file and
contains its children, and they theirs.

What was read stands between two points of the parse: it takes room there (`Covers`), and its
children stand in it one behind another (`Placed`). So two nodes that meet stand one above the
other. The grammar gives a node a shape as well (`TreeNode.Formed`): header statements are simple,
an `else` is followed by an `if` or a block, and the entries of a parameter list are all named or
all unnamed.

While a rule reads, the nodes it has read are collected (`Gathered`): they all lie between the first
token and the last one. The node that the rule gives covers both, and so contains them.
-/

namespace ScriptLowering.Grammar

/-! ## Stretches of a parse -/

/-- What stands between two points of a parse. -/
abbrev Stretch := Mark → Mark → Prop

/-- The span takes room in `file` between two points. -/
structure Covers (file : Nat) (span : Span) (a b : Mark) : Prop where
  file : span.file = file
  room : span.start < span.stop
  start : a.offset ≤ span.start
  stop : span.stop ≤ b.offset
  id : a.id ≤ b.id

theorem Covers.le {file span a b} (h : Covers file span a b) : a ≤ b :=
  ⟨Nat.le_trans h.start (Nat.le_trans (Nat.le_of_lt h.room) h.stop), h.id⟩

/-- The current token of `s`, once it was read. -/
theorem Covers.of_token {file} {s s' : State} (hs : s.Ordered file)
    (hroom : takesRoom s.current.kind) (h : s.Past file s') :
    Covers file s.current.span s.front s'.rear := by
  have hfits := hs.tokens.fits
  obtain ⟨last, hlast, -, hstop, -⟩ := h.covered
  have hpassed : s'.rear.offset = last.stop := State.passed_of_mem hlast
  exact ⟨hfits.file, hfits.room hroom, Nat.le_refl _, by omega, h.nextId⟩

end ScriptLowering.Grammar

namespace ScriptLowering

open List

/-! ## Shapes -/

/-- A statement that may stand in a header. -/
def Stmt.isSimple (stmt : Stmt) : Bool :=
  match stmt.form with
  | .expr _ | .send .. | .incDec .. | .assign .. => true
  | _ => false

/-- The shape that the grammar gives a form. -/
def StmtForm.Shaped : StmtForm → Prop
  | .assign targets op values =>
    (op.combines?.isSome → targets.length = 1 ∧ values.length = 1) ∧
      (op = .define → ∀ target ∈ targets, target.name?.isSome)
  | .cond init _ _ otherwise =>
    (∀ x ∈ init, x.isSimple) ∧ ∀ x ∈ otherwise, x.isBranch
  | .switch init _ _ => ∀ x ∈ init, x.isSimple
  | .typeSwitch init guard _ => (∀ x ∈ init, x.isSimple) ∧ guard.isSimple
  | .loop init _ post _ => (∀ x ∈ init, x.isSimple) ∧ ∀ x ∈ post, x.isSimple
  | _ => True

theorem Stmt.isFlat_of_isSimple {stmt : Stmt} (h : stmt.isSimple = true) : stmt.isFlat = true := by
  unfold Stmt.isSimple at h
  unfold Stmt.isFlat
  split at h
  all_goals simp_all

/-- The statements of a header are flat, and what follows an `else` is a condition or a block. -/
def StmtForm.Headed : StmtForm → Prop
  | .cond init _ _ otherwise => (∀ x ∈ init, x.isFlat) ∧ ∀ x ∈ otherwise, x.isBranch
  | .switch init _ _ => ∀ x ∈ init, x.isFlat
  | .loop init _ post _ => (∀ x ∈ init, x.isFlat) ∧ ∀ x ∈ post, x.isFlat
  | _ => True

theorem StmtForm.Shaped.headed {form : StmtForm} (h : form.Shaped) : form.Headed := by
  cases form with
  | cond => exact ⟨fun x hx => x.isFlat_of_isSimple (h.1 x hx), h.2⟩
  | switch => exact fun x hx => x.isFlat_of_isSimple (h x hx)
  | loop =>
    exact ⟨fun x hx => x.isFlat_of_isSimple (h.1 x hx), fun x hx => x.isFlat_of_isSimple (h.2 x hx)⟩
  | _ => trivial

/-- The entries of the list are all named, or all unnamed. -/
def Field.Uniform (fields : List Field) : Prop :=
  (∀ field ∈ fields, field.names = []) ∨ ∀ field ∈ fields, field.names ≠ []

/-- A part of a tree with a place. -/
inductive TreeNode where
  | name (name : Name)
  | type (type : Located TypeExpr)
  | expr (expr : Expr)
  | block (block : Block)
  | stmt (stmt : Stmt)
  | caseClause (clause : CaseClause)
  | commClause (clause : CommClause)
  | decl (decl : Decl)
  | item (item : Import)

/-! ## Parts -/

def Field.treeNodes (field : Field) : List TreeNode :=
  field.names.map .name ++ [.type field.type]

def fieldTreeNodes (fields : List Field) : List TreeNode := fields.flatMap Field.treeNodes

/-- The nodes inside a written type. -/
def TypeExpr.treeNodes : TypeExpr → List TreeNode
  | .named _ | .qualified .. => []
  | .pointer elem | .chan _ elem | .variadic elem => elem.treeNodes
  | .array length elem => length.toList.map .expr ++ elem.treeNodes
  | .map key elem => key.treeNodes ++ elem.treeNodes
  | .func params results => fieldTreeNodes params ++ fieldTreeNodes results
  | .struct fields | .interface fields => fieldTreeNodes fields

def Expr.treeNodes : Expr → List TreeNode
  | .ident .. | .lit .. => []
  | .composite _ written elems => written.toList.flatMap TypeExpr.treeNodes ++ elems.map .expr
  | .keyValue _ left right | .index _ left right | .binary _ _ left right =>
    [.expr left, .expr right]
  | .funcLit _ params results body =>
    fieldTreeNodes params ++ fieldTreeNodes results ++ [.block body]
  | .paren _ inner | .unary _ _ inner => [.expr inner]
  | .selector _ base member => [.expr base, .name member]
  | .slice _ base low high max =>
    .expr base :: (low.toList ++ high.toList ++ max.toList).map .expr
  | .typeAssert _ base written => .expr base :: written.toList.flatMap TypeExpr.treeNodes
  | .call _ callee args _ => .expr callee :: args.map .expr
  | .type _ written => written.treeNodes

def Spec.treeNodes : Spec → List TreeNode
  | .value names type values => names.map .name ++ type.toList.map .type ++ values.map .expr
  | .typeName name _ type => [.name name, .type type]

def StmtForm.treeNodes : StmtForm → List TreeNode
  | .decl inner => [.decl (.gen inner)]
  | .empty => []
  | .labeled label stmt => [.name label, .stmt stmt]
  | .expr e | .incDec e _ | .go e | .defer e => [.expr e]
  | .send chan value => [.expr chan, .expr value]
  | .assign targets _ values => targets.map .expr ++ values.map .expr
  | .ret values => values.map .expr
  | .jump _ label => label.toList.map .name
  | .block body => [.block body]
  | .cond init test body otherwise =>
    init.toList.map .stmt ++ [.expr test, .block body] ++ otherwise.toList.map .stmt
  | .switch init tag clauses =>
    init.toList.map .stmt ++ tag.toList.map .expr ++ clauses.map .caseClause
  | .typeSwitch init guard clauses =>
    init.toList.map .stmt ++ [.stmt guard] ++ clauses.map .caseClause
  | .select clauses => clauses.map .commClause
  | .loop init test post body =>
    init.toList.map .stmt ++ test.toList.map .expr ++ post.toList.map .stmt ++ [.block body]
  | .range key value _ subject body =>
    key.toList.map .expr ++ value.toList.map .expr ++ [.expr subject, .block body]

def Decl.treeNodes : Decl → List TreeNode
  | .func decl =>
    decl.receiver.toList.flatMap fieldTreeNodes ++ [.name decl.name] ++
      fieldTreeNodes decl.params ++ fieldTreeNodes decl.results ++ decl.body.toList.map .block
  | .gen decl => decl.specs.flatMap Spec.treeNodes

def Decl.span : Decl → Span
  | .func decl => decl.span
  | .gen decl => decl.span

/-- The topmost nodes of a file. -/
def SourceFile.treeNodes (file : SourceFile) : List TreeNode :=
  file.package.toList.map .name ++ file.imports.map .item ++ file.decls.map .decl

namespace TreeNode

def span : TreeNode → Span
  | name x => x.span
  | type x => x.span
  | expr x => x.span
  | block x => x.span
  | stmt x => x.span
  | caseClause x => x.span
  | commClause x => x.span
  | decl x => x.span
  | item x => x.span

/-- The nodes right below a node. -/
def children : TreeNode → List TreeNode
  | name _ | item _ => []
  | type x => x.val.treeNodes
  | expr x => x.treeNodes
  | block x => x.stmts.map stmt
  | stmt x => x.form.treeNodes
  | caseClause x => (x.exprs.getD []).map expr ++ x.body.map stmt
  | commClause x => x.comm.toList.map stmt ++ x.body.map stmt
  | decl x => x.treeNodes

/-- The statement sequence of a block or an arm. -/
def stmts : TreeNode → List Stmt
  | block x => x.stmts
  | caseClause x => x.body
  | commClause x => x.body
  | _ => []

/-- `node.Above below`: the second node is the first one, or stands somewhere below it. -/
inductive Above : TreeNode → TreeNode → Prop where
  | refl (node : TreeNode) : Above node node
  | child {node next below : TreeNode} (mem : next ∈ node.children) (above : Above next below) :
      Above node below

end TreeNode

/-- Each statement ends before the next ones start. -/
def InOrder (stmts : List Stmt) : Prop :=
  stmts.Pairwise fun x y => x.span.stop ≤ y.span.start

/-! ## Containment -/

/-- The node lies between two offsets of `file`. Its span covers those of its children, which
contain theirs in turn, and statement sequences stand in order. -/
inductive NodeWithin (file : Nat) : Nat → Nat → TreeNode → Prop where
  | intro {lo hi : Nat} {node : TreeNode} (home : node.span.file = file)
      (start : lo ≤ node.span.start) (room : node.span.start ≤ node.span.stop)
      (stop : node.span.stop ≤ hi) (order : InOrder node.stmts)
      (children : ∀ child ∈ node.children, NodeWithin file node.span.start node.span.stop child) :
      NodeWithin file lo hi node

namespace NodeWithin

variable {file lo hi lo' hi' : Nat} {node : TreeNode}

section

variable (h : NodeWithin file lo hi node)
include h

theorem mono (hlo : lo' ≤ lo) (hhi : hi ≤ hi') : NodeWithin file lo' hi' node := by
  obtain ⟨hfile, hstart, hroom, hstop, horder, hchildren⟩ := h
  exact ⟨hfile, Nat.le_trans hlo hstart, hroom, Nat.le_trans hstop hhi, horder, hchildren⟩

/-- A node keeps to its own span. -/
theorem own : NodeWithin file node.span.start node.span.stop node := by
  obtain ⟨hfile, -, hroom, -, horder, hchildren⟩ := h
  exact ⟨hfile, Nat.le_refl _, hroom, Nat.le_refl _, horder, hchildren⟩

theorem bounds :
    node.span.file = file ∧ lo ≤ node.span.start ∧
    node.span.start ≤ node.span.stop ∧ node.span.stop ≤ hi := by
  obtain ⟨hfile, hstart, hroom, hstop, -, -⟩ := h
  exact ⟨hfile, hstart, hroom, hstop⟩

theorem child {child} (hmem : child ∈ node.children) :
    NodeWithin file node.span.start node.span.stop child := by
  obtain ⟨-, -, -, -, -, hchildren⟩ := h
  exact hchildren child hmem

theorem order : InOrder node.stmts := by
  obtain ⟨-, -, -, -, horder, -⟩ := h
  exact horder

/-- What lies below a node that contains its children does so, too. -/
theorem of_above {below} (habove : node.Above below) :
    NodeWithin file node.span.start node.span.stop below := by
  induction habove generalizing lo hi with
  | refl => exact h.own
  | child mem above ih =>
    have hchild := h.child mem
    exact (ih hchild).mono hchild.bounds.2.1 hchild.bounds.2.2.2

end

end NodeWithin

open Grammar

/-- Every span of the node and of those below it has `P`. -/
inductive TreeNode.Grown (P : Span → Prop) : TreeNode → Prop where
  | intro {node : TreeNode} (span : P node.span)
      (children : ∀ child ∈ node.children, TreeNode.Grown P child) : TreeNode.Grown P node

theorem TreeNode.Grown.leaf {P} {node : TreeNode} (hspan : P node.span)
    (hchildren : node.children = []) : node.Grown P :=
  ⟨hspan, by simp [hchildren]⟩

/-- What the grammar says about a node besides its place: a statement has the shape of its form, a
parameter list is uniform, and a function literal starts before its body. -/
def TreeNode.Formed : TreeNode → Prop
  | .stmt x => x.form.Shaped
  | .decl (.func func) => Field.Uniform func.params ∧ Field.Uniform func.results
  | .expr (.funcLit span _ _ body) => span.start < body.span.start
  | _ => True

/-- The identities up to `id` are given out behind the children of the node, those up to `id'`
behind the node. -/
def TreeNode.Numbered : TreeNode → (id id' : NodeId) → Prop
  | .stmt x, id, id' => id ≤ x.id ∧ x.id < id'
  | _, id, id' => id ≤ id'

def TreeNode.isStmt : TreeNode → Bool
  | .stmt _ => true
  | _ => false

/-- The grammar says nothing about these nodes but their place. -/
def TreeNode.isFree : TreeNode → Bool
  | .stmt _ | .decl (.func _) | .expr (.funcLit ..) => false
  | _ => true

theorem TreeNode.isStmt_of_isFree {node : TreeNode} (h : node.isFree = true) :
    node.isStmt = false := by
  cases node <;> first | rfl | contradiction

theorem TreeNode.formed_of_isFree {node : TreeNode} (h : node.isFree = true) : node.Formed := by
  unfold Formed
  split
  all_goals first | contradiction | trivial

theorem TreeNode.numbered_of_isStmt {node : TreeNode} {id id'} (h : node.isStmt = false)
    (hle : id ≤ id') : node.Numbered id id' := by
  cases node <;> first | exact hle | contradiction

theorem TreeNode.Numbered.le {node : TreeNode} {id id'} (h : node.Numbered id id') : id ≤ id' := by
  cases node with
  | stmt x => exact Nat.le_of_lt (Nat.lt_of_le_of_lt h.1 h.2)
  | _ => exact h

theorem TreeNode.Numbered.mono {node : TreeNode} {id id' id''} (h : node.Numbered id id')
    (hle : id' ≤ id'') : node.Numbered id id'' := by
  cases node with
  | stmt x => exact ⟨h.1, Nat.lt_of_lt_of_le h.2 hle⟩
  | _ => exact Nat.le_trans h hle

/-- The second node can stand wherever the first one stands: it has the same place and the same
children. -/
def TreeNode.Becomes (node node' : TreeNode) : Prop :=
  node'.span = node.span ∧ node'.children = node.children ∧ node'.Formed ∧
    ∀ id id' : NodeId, node.Numbered id id' → node'.Numbered id id'

theorem TreeNode.Grown.become {P} {node node' : TreeNode} (h : node.Grown P)
    (hbecomes : node.Becomes node') : node'.Grown P := by
  obtain ⟨hspan, hchildren⟩ := h
  obtain ⟨hspan', hchildren', -, -⟩ := hbecomes
  exact ⟨hspan' ▸ hspan, hchildren' ▸ hchildren⟩

namespace Grammar

open Relation

variable {file : Nat} {P : TreeNode → Stretch} {node : TreeNode} {nodes nodes' : List TreeNode}
  {a b a' b' m m' : Mark}

/-! ## Nodes one behind another -/

/-- The nodes stand one behind another between two points, each of them as `P` says. -/
inductive Strung (P : TreeNode → Stretch) : List TreeNode → Stretch where
  | nil {a b : Mark} (id : a.id ≤ b.id) : Strung P [] a b
  | cons {node : TreeNode} {nodes : List TreeNode} {a m b : Mark} (head : P node a m) (le : m ≤ b)
      (tail : Strung P nodes m b) : Strung P (node :: nodes) a b

/-- Where a node stands, it stands between all points around its span. -/
structure Local (file : Nat) (P : TreeNode → Stretch) : Prop where
  covers : ∀ {node : TreeNode} {a b : Mark}, P node a b → Covers file node.span a b
  move : ∀ {node : TreeNode} {a b a' b' : Mark}, P node a b → a'.offset ≤ node.span.start →
    node.span.stop ≤ b'.offset → a'.id ≤ a.id → b.id ≤ b'.id → P node a' b'

namespace Local

variable (hP : Local file P)
include hP

theorem le (h : P node a b) : a ≤ b := (hP.covers h).le

theorem mono (h : P node a b) (ha : a' ≤ a) (hb : b ≤ b') : P node a' b' :=
  hP.move h (Nat.le_trans ha.1 (hP.covers h).start) (Nat.le_trans (hP.covers h).stop hb.1) ha.2 hb.2

end Local

namespace Strung

theorem one (h : P node a b) : Strung P [node] a b := .cons h (le_refl b) (.nil (Nat.le_refl _))

variable (hP : Local file P)
include hP

theorem mono (h : Strung P nodes a b) (ha : a' ≤ a) (hb : b ≤ b') : Strung P nodes a' b' := by
  induction h generalizing a' with
  | nil hid => exact .nil (Nat.le_trans ha.2 (Nat.le_trans hid hb.2))
  | cons head le _ ih =>
    exact .cons (hP.mono head ha (le_refl _)) (le_trans le hb) (ih (le_refl _) hb)

theorem id_le (h : Strung P nodes a b) : a.id ≤ b.id := by
  cases h with
  | nil hid => exact hid
  | cons head le _ => exact (le_trans (hP.le head) le).2

theorem append (h : Strung P nodes a m) (h' : Strung P nodes' m' b) (hm : m ≤ m') (ha : a ≤ m')
    (hb : m ≤ b) : Strung P (nodes ++ nodes') a b := by
  induction h with
  | nil => exact h'.mono hP ha (le_refl b)
  | cons head le _ ih => exact .cons head (le_trans le hb) (ih hm (le_trans le hm) hb)

theorem sublist (h : Strung P nodes a b) (hsub : nodes'.Sublist nodes) : Strung P nodes' a b := by
  induction hsub generalizing a with
  | slnil => exact h
  | cons node hsub ih =>
    cases h with
    | cons head le tail => exact (ih tail).mono hP (hP.le head) (le_refl b)
  | cons_cons node hsub ih =>
    cases h with
    | cons head le tail => exact .cons head le (ih tail)

theorem mem (h : Strung P nodes a b) (hmem : node ∈ nodes) : P node a b := by
  induction h with
  | nil => simp at hmem
  | cons head le _ ih =>
    rcases mem_cons.1 hmem with rfl | hmem
    · exact hP.mono head (le_refl _) le
    · exact hP.mono (ih hmem) (hP.le head) (le_refl _)

/-- Each node ends before the next ones start. -/
theorem pairwise (h : Strung P nodes a b) :
    nodes.Pairwise fun x y => x.span.stop ≤ y.span.start := by
  induction h with
  | nil => exact .nil
  | cons head le tail ih =>
    refine .cons (fun next hnext => ?_) ih
    exact Nat.le_trans (hP.covers head).stop (hP.covers (tail.mem hP hnext)).start

/-- Nodes from the start of the first one on. -/
theorem fromFirst (h : Strung P (node :: nodes) a b) :
    Strung P (node :: nodes) ⟨node.span.start, a.id⟩ b := by
  cases h with
  | cons head le tail =>
    exact .cons (hP.move head (Nat.le_refl _) (hP.covers head).stop (Nat.le_refl _) (Nat.le_refl _))
      le tail

/-- Nodes that end before an offset. -/
theorem upTo (offset : Nat) (h : Strung P nodes a b) (hstart : a.offset ≤ offset)
    (hstop : ∀ node ∈ nodes, node.span.stop ≤ offset) : Strung P nodes a ⟨offset, b.id⟩ := by
  induction nodes generalizing a with
  | nil =>
    have hid : a.id ≤ b.id := h.id_le hP
    exact .nil hid
  | cons node nodes ih =>
    obtain ⟨hnode, hnodes⟩ := forall_mem_cons.1 hstop
    cases h with
    | @cons _ _ _ m _ head le tail =>
      have hcovers := hP.covers head
      have hhead : P node a ⟨min m.offset offset, m.id⟩ :=
        hP.move head hcovers.start (Nat.le_min.2 ⟨hcovers.stop, hnode⟩) (Nat.le_refl _)
          (Nat.le_refl _)
      refine .cons hhead ⟨Nat.min_le_right _ _, le.2⟩ ?_
      exact ih (tail.mono hP ⟨Nat.min_le_left _ _, Nat.le_refl _⟩ (le_refl b))
        (Nat.min_le_right _ _) hnodes

end Strung

/-! ## Places -/

/-- The node stands between two points of the parse of `file`, and its children stand in it one
behind another, in the same way. -/
inductive Placed (file : Nat) : TreeNode → Stretch where
  | intro {node : TreeNode} {a b : Mark} {first last : NodeId} (covers : Covers file node.span a b)
      (formed : node.Formed) (early : a.id ≤ first) (numbered : node.Numbered last b.id)
      (children : Strung (Placed file) node.children ⟨node.span.start, first⟩
        ⟨node.span.stop, last⟩) : Placed file node a b

theorem Placed.local : Local file (Placed file) where
  covers h := by
    obtain ⟨hcovers, -, -, -, -⟩ := h
    exact hcovers
  move h hstart hstop hfirst hlast := by
    obtain ⟨hcovers, hformed, hearly, hnumbered, hchildren⟩ := h
    exact ⟨⟨hcovers.file, hcovers.room, hstart, hstop,
      Nat.le_trans hfirst (Nat.le_trans hcovers.id hlast)⟩, hformed, Nat.le_trans hfirst hearly,
      hnumbered.mono hlast, hchildren⟩

/-- What holds of every node whose children have it in their places holds of all nodes. -/
theorem Placed.induct {M}
    (step : ∀ {node : TreeNode} {a b : Mark} {first last : NodeId}, Covers file node.span a b →
      node.Formed → a.id ≤ first → node.Numbered last b.id →
      Strung M node.children ⟨node.span.start, first⟩ ⟨node.span.stop, last⟩ → M node a b)
    (h : Placed file node a b) : M node a b := by
  refine @Placed.rec file (fun node a b _ => M node a b) (fun nodes a b _ => Strung M nodes a b)
    ?_ ?_ ?_ node a b h
  · intro node a b first last hcovers hformed hearly hnumbered _ hchildren
    exact step hcovers hformed hearly hnumbered hchildren
  · intro a b hid
    exact .nil hid
  · intro node nodes a m b _ le _ head tail
    exact .cons head le tail

theorem Placed.child {child : TreeNode} (h : Placed file node a b) (hmem : child ∈ node.children) :
    Placed file child a b := by
  obtain ⟨hcovers, -, hearly, hnumbered, hchildren⟩ := h
  exact Placed.local.mono (hchildren.mem Placed.local hmem) ⟨hcovers.start, hearly⟩
    ⟨hcovers.stop, hnumbered.le⟩

/-- What is below a node stands between the points that the node stands between. -/
theorem Placed.above {below} (h : Placed file node a b) (habove : node.Above below) :
    Placed file below a b := by
  induction habove with
  | refl => exact h
  | child mem _ ih => exact ih (h.child mem)

/-- The children of a node in its place. -/
theorem Strung.unfold (nodes : List TreeNode)
    (h : Strung (Placed file) (nodes ++ node :: nodes') a b) :
    Strung (Placed file) (nodes ++ (node.children ++ nodes')) a b := by
  induction nodes generalizing a with
  | nil =>
    cases h with
    | cons head le tail =>
      obtain ⟨hcovers, -, hearly, hnumbered, hchildren⟩ := head
      have hinner := hchildren.mono Placed.local ⟨hcovers.start, hearly⟩
        ⟨hcovers.stop, hnumbered.le⟩
      rw [nil_append]
      exact hinner.append Placed.local tail (le_refl _) hcovers.le le
  | cons first nodes ih =>
    cases h with
    | cons head le tail => exact .cons head le (ih tail)

theorem Placed.become {node'} (h : Placed file node a b) (hbecomes : node.Becomes node') :
    Placed file node' a b := by
  obtain ⟨hcovers, -, hearly, hnumbered, hchildren⟩ := h
  obtain ⟨hspan, hnodes, hformed, hid⟩ := hbecomes
  rw [← hspan] at hcovers hchildren
  rw [← hnodes] at hchildren
  exact ⟨hcovers, hformed, hearly, hid _ _ hnumbered, hchildren⟩

theorem Strung.become (h : Strung (Placed file) nodes a b)
    (hbecome : Forall₂ TreeNode.Becomes nodes nodes') : Strung (Placed file) nodes' a b := by
  induction hbecome generalizing a with
  | nil => cases h with | nil hid => exact .nil hid
  | cons hnode _ ih =>
    cases h with
    | cons head le tail => exact .cons (head.become hnode) le (ih tail)

/-- A node that stands somewhere contains its children. -/
theorem Placed.within (h : Placed file node a b) : NodeWithin file a.offset b.offset node := by
  let M : TreeNode → Stretch := fun node a b =>
    Covers file node.span a b ∧ NodeWithin file node.span.start node.span.stop node
  have hM : Local file M := by
    refine ⟨fun h => h.1, fun h hstart hstop hfirst hlast => ⟨?_, h.2⟩⟩
    exact ⟨h.1.file, h.1.room, hstart, hstop, Nat.le_trans hfirst (Nat.le_trans h.1.id hlast)⟩
  suffices hall : M node a b from hall.2.mono hall.1.start hall.1.stop
  refine h.induct fun {node a b first last} hcovers _ _ _ hchildren => ⟨hcovers, ?_⟩
  refine ⟨hcovers.file, Nat.le_refl _, Nat.le_of_lt hcovers.room, Nat.le_refl _, ?_, ?_⟩
  · have hstmts : (node.stmts.map TreeNode.stmt).Sublist node.children := by
      cases node <;> simp [TreeNode.stmts, TreeNode.children]
    exact pairwise_map.1 ((hchildren.pairwise hM).sublist hstmts)
  · intro child hmem
    obtain ⟨hspan, hchild⟩ := hchildren.mem hM hmem
    exact hchild.mono hspan.start hspan.stop

end Grammar

/-! ## Nodes that meet -/

/-- The spans share an offset. -/
def Span.Meets (x y : Span) : Prop := x.start < y.stop ∧ y.start < x.stop

theorem Span.Meets.mono {x x' y y' : Span} (h : x.Meets y) (hx : x'.start ≤ x.start)
    (hx' : x.stop ≤ x'.stop) (hy : y'.start ≤ y.start) (hy' : y.stop ≤ y'.stop) : x'.Meets y' :=
  ⟨Nat.lt_of_le_of_lt hx (Nat.lt_of_lt_of_le h.1 hy'),
    Nat.lt_of_le_of_lt hy (Nat.lt_of_lt_of_le h.2 hx')⟩

namespace Grammar

variable {file : Nat} {node x y : TreeNode} {nodes : List TreeNode} {a b : Mark}

/-- What is below a node lies in its span. -/
theorem Placed.bounds (h : Placed file node a b) (hx : node.Above x) :
    node.span.start ≤ x.span.start ∧ x.span.stop ≤ node.span.stop :=
  have hbounds := (h.within.of_above hx).bounds
  ⟨hbounds.2.1, hbounds.2.2.2⟩

/-- Of nodes one behind another, no two meet. -/
theorem Strung.eq_of_meets (h : Strung (Placed file) nodes a b) (hx : x ∈ nodes) (hy : y ∈ nodes)
    (hmeets : x.span.Meets y.span) : x = y := by
  have hapart := h.pairwise Placed.local
  induction nodes generalizing a with
  | nil => simp at hx
  | cons first rest ih =>
    obtain ⟨hfirst, hapart⟩ := pairwise_cons.1 hapart
    obtain ⟨hstart, hstop⟩ := hmeets
    cases h with
    | cons _ _ tail =>
      rcases mem_cons.1 hx with rfl | hx' <;> rcases mem_cons.1 hy with rfl | hy'
      · rfl
      · exact absurd hstop (Nat.not_lt.2 (hfirst y hy'))
      · exact absurd hstart (Nat.not_lt.2 (hfirst x hx'))
      · exact ih tail hx' hy' hapart

/-- Nodes that meet stand below the same one of several nodes. -/
theorem Strung.eq_of_above (h : Strung (Placed file) nodes a b) {left right : TreeNode}
    (hleft : left ∈ nodes) (hright : right ∈ nodes) (hx : left.Above x) (hy : right.Above y)
    (hmeets : x.span.Meets y.span) : left = right := by
  have hx := (h.mem Placed.local hleft).bounds hx
  have hy := (h.mem Placed.local hright).bounds hy
  exact h.eq_of_meets hleft hright (hmeets.mono hx.1 hx.2 hy.1 hy.2)

theorem Placed.eq_of_above (h : Placed file node a b) {left right} (hleft : left ∈ node.children)
    (hright : right ∈ node.children) (hx : left.Above x) (hy : right.Above y)
    (hmeets : x.span.Meets y.span) : left = right := by
  obtain ⟨-, -, -, -, hchildren⟩ := h
  exact hchildren.eq_of_above hleft hright hx hy hmeets

/-- Of two nodes in a tree that meet, one stands below the other. -/
theorem Placed.above_or_above (h : Placed file node a b) (hx : node.Above x) (hy : node.Above y)
    (hmeets : x.span.Meets y.span) : x.Above y ∨ y.Above x := by
  induction hx generalizing a b with
  | refl => exact .inl hy
  | child mem hx ih =>
    cases hy with
    | refl => exact .inr (.child mem hx)
    | child mem' hy =>
      obtain rfl := h.eq_of_above mem mem' hx hy hmeets
      exact ih (h.child mem) hy hmeets

theorem Strung.above_or_above (h : Strung (Placed file) nodes a b) {left right}
    (hleft : left ∈ nodes) (hright : right ∈ nodes) (hx : left.Above x) (hy : right.Above y)
    (hmeets : x.span.Meets y.span) : x.Above y ∨ y.Above x := by
  obtain rfl := h.eq_of_above hleft hright hx hy hmeets
  exact (h.mem Placed.local hleft).above_or_above hx hy hmeets

end Grammar

/-! ## The spans of a node -/

/-- The spans of the entries of a parameter or result list have `P`. -/
def fieldsSpanned (P : Span → Prop) (fields : List Field) : Prop :=
  ∀ field ∈ fields, (∀ name ∈ field.names, P name.span) ∧ P field.type.span

/-- The spans that a report about the head of the function is made of have `P`. -/
structure FuncDecl.Spanned (P : Span → Prop) (func : FuncDecl) : Prop where
  name : P func.name.span
  receiver : ∀ fields ∈ func.receiver, fieldsSpanned P fields
  results : fieldsSpanned P func.results

/-- Every node of the declaration is within the norm. -/
structure Decl.Spanned (norm : Norm) (decl : Decl) : Prop where
  span : norm.span decl.span
  fits : decl.Fits norm
  head : ∀ func, decl = .func func → func.Spanned norm.span

/-- Every node of the tree is within the norm. -/
def TreeNode.Spanned (norm : Norm) : TreeNode → Prop
  | .expr e => e.Fits norm
  | .block body => body.Fits norm
  | .stmt x => x.Fits norm
  | .caseClause x => norm.span x.span ∧ labelFits norm x.exprs ∧ stmtsFit norm x.body
  | .commClause x => norm.span x.span ∧ stmt?Fits norm x.comm ∧ stmtsFit norm x.body
  | .decl x => x.Spanned norm
  | node => norm.span node.span

/-- What the norm asks of the header of a form. -/
def StmtForm.HeadFits (norm : Norm) : StmtForm → Prop
  | .cond init _ _ otherwise => norm.Heads init none otherwise
  | .switch init _ _ => norm.Heads init none none
  | .loop init _ post _ => norm.Heads init post none
  | _ => True

section Spans

variable {norm : Norm}

theorem casesFit_iff (clauses : List CaseClause) :
    casesFit norm clauses ↔ ∀ x ∈ clauses, (TreeNode.caseClause x).Spanned norm := by
  induction clauses with
  | nil => simp [casesFit]
  | cons clause clauses ih =>
    obtain ⟨exprs, body, place⟩ := clause
    simp [casesFit, TreeNode.Spanned, ih]

theorem commsFit_iff (clauses : List CommClause) :
    commsFit norm clauses ↔ ∀ x ∈ clauses, (TreeNode.commClause x).Spanned norm := by
  induction clauses with
  | nil => simp [commsFit]
  | cons clause clauses ih =>
    obtain ⟨comm, body, place⟩ := clause
    simp [commsFit, TreeNode.Spanned, ih]

theorem specsFit_of_nodes {specs} (h : ∀ node ∈ specs.flatMap Spec.treeNodes, node.Spanned norm) :
    specsFit norm specs := by
  induction specs with
  | nil => trivial
  | cons spec specs ih =>
    rw [flatMap_cons, forall_mem_append] at h
    cases spec with
    | value names type values =>
      refine ⟨⟨fun name hname => h.1 (.name name) ?_, (exprsFit_iff _).2 fun e he =>
        h.1 (.expr e) ?_⟩, ih h.2⟩
      · simp [Spec.treeNodes, hname]
      · simp [Spec.treeNodes, he]
    | typeName => exact ih h.2

theorem fieldsSpanned_of_nodes {fields} (h : ∀ node ∈ fieldTreeNodes fields, node.Spanned norm) :
    fieldsSpanned norm.span fields := by
  intro field hfield
  have hnodes : ∀ node ∈ field.treeNodes, node.Spanned norm := fun node hnode =>
    h node (mem_flatMap.2 ⟨field, hfield, hnode⟩)
  refine ⟨fun name hname => hnodes (.name name) ?_, hnodes (.type field.type) ?_⟩
  · simp [Field.treeNodes, hname]
  · simp [Field.treeNodes]

section Parts

variable (hconstruct : ∀ construct place, norm.span place → norm.construct construct place)
include hconstruct

/-- An expression is within a norm of places if its span and its parts are. -/
theorem Expr.fits_of_nodes {e : Expr} (hspan : norm.span e.span)
    (h : ∀ node ∈ e.treeNodes, node.Spanned norm) : e.Fits norm := by
  have hplace (construct : Construct) : norm.construct construct e.span :=
    hconstruct construct e.span hspan
  cases e with
  | _ => simp_all [Expr.treeNodes, Expr.Fits, TreeNode.Spanned, Expr.span, or_imp, forall_and]

/-- A form is within a norm of places if its parts and its header are. -/
theorem StmtForm.fits_of_nodes {form : StmtForm} {place} (hspan : norm.span place)
    (hhead : form.HeadFits norm) (h : ∀ node ∈ form.treeNodes, node.Spanned norm) :
    form.Fits norm place := by
  have hplace (construct : Construct) : norm.construct construct place :=
    hconstruct construct place hspan
  cases form with
  | decl decl =>
    obtain ⟨keyword, specs, place⟩ := decl
    have hdecl := h (.decl (.gen ⟨keyword, specs, place⟩)) (mem_singleton_self _)
    exact ⟨hdecl.span, hdecl.fits⟩
  | labeled label stmt =>
    have hlabel := h (.name label) (.head _)
    exact ⟨hlabel, hconstruct _ _ hlabel, h (.stmt stmt) (.tail _ (.head _))⟩
  | switch init tag clauses =>
    simp only [StmtForm.treeNodes, forall_mem_append, forall_mem_map] at h
    obtain ⟨⟨hinit, htag⟩, hclauses⟩ := h
    refine ⟨?_, ?_, (casesFit_iff _).2 hclauses, hhead⟩
    · simpa [TreeNode.Spanned] using hinit
    · simpa [TreeNode.Spanned] using htag
  | typeSwitch init guard clauses =>
    simp only [StmtForm.treeNodes, forall_mem_append, forall_mem_map] at h
    obtain ⟨⟨hinit, hguard⟩, hclauses⟩ := h
    refine ⟨hplace _, ?_, hguard _ (.head _), (casesFit_iff _).2 hclauses⟩
    simpa [TreeNode.Spanned] using hinit
  | select clauses => exact ⟨hplace _, (commsFit_iff _).2 (forall_mem_map.1 h)⟩
  | _ =>
    simp_all [StmtForm.treeNodes, StmtForm.Fits, StmtForm.HeadFits, TreeNode.Spanned, or_imp,
      forall_and]

/-- A tree is within a norm of places if the span of every node and the header of every statement
is. -/
theorem TreeNode.Grown.spanned {node : TreeNode} (h : node.Grown norm.span)
    (hheads : ∀ x, node.Above (.stmt x) → x.form.HeadFits norm) : node.Spanned norm := by
  induction h with
  | @intro node span _ ih =>
    have children (child : TreeNode) (hmem : child ∈ node.children) : child.Spanned norm :=
      ih child hmem fun x hx => hheads x (.child hmem hx)
    have hstmt (x : Stmt) (h : .stmt x ∈ node.children) : x.Fits norm := children (.stmt x) h
    cases node with
    | name | type | item => exact span
    | expr e => exact e.fits_of_nodes hconstruct span children
    | stmt stmt =>
      obtain ⟨id, place, form⟩ := stmt
      exact ⟨span, form.fits_of_nodes hconstruct span (hheads _ (.refl _)) children⟩
    | block body =>
      obtain ⟨stmts, place⟩ := body
      exact ⟨span, by simpa [TreeNode.children] using hstmt⟩
    | caseClause clause =>
      refine ⟨span, ?_, by simpa [TreeNode.children] using hstmt⟩
      cases hlabel : clause.exprs with
      | none => trivial
      | some es =>
        have hexpr (e : Expr) (hmem : e ∈ es) : e.Fits norm :=
          children (.expr e) (by simp [TreeNode.children, hlabel, hmem])
        simpa [labelFits] using hexpr
    | commClause clause =>
      refine ⟨span, ?_, ?_⟩
      · simpa [TreeNode.children] using fun x hx => hstmt x (by simp [TreeNode.children, hx])
      · simpa [TreeNode.children] using fun x hx => hstmt x (by simp [TreeNode.children, hx])
    | decl decl =>
      cases decl with
      | func func =>
        have hnodes : ∀ node ∈ func.receiver.toList.flatMap fieldTreeNodes ++ [.name func.name] ++
          fieldTreeNodes func.params ++ fieldTreeNodes func.results ++ func.body.toList.map .block,
          node.Spanned norm := children
        simp only [forall_mem_append] at hnodes
        obtain ⟨⟨⟨⟨hreceiver, hname⟩, -⟩, hresults⟩, hbody⟩ := hnodes
        refine ⟨span, fun body hmem => hbody (.block body) (by simpa using hmem), ?_⟩
        rintro _ ⟨⟩
        refine ⟨hname _ (mem_singleton_self _), fun fields hfields => ?_,
          fieldsSpanned_of_nodes hresults⟩
        refine fieldsSpanned_of_nodes fun node hnode => hreceiver node ?_
        exact mem_flatMap.2 ⟨fields, Option.mem_toList.2 hfields, hnode⟩
      | gen decl => exact ⟨span, specsFit_of_nodes children, by rintro _ ⟨⟩⟩

end Parts

end Spans

end ScriptLowering
