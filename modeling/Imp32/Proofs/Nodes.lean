import Imp32.Stmt

/-!
# Nodes

The nodes of a tree. A condition on all nodes, or on some node, of a program is stated as one on the
members of these lists.
-/

namespace Imp32

namespace Expr

/-- The nodes of an expression, from its root on. -/
def nodes : Expr → List Expr
  | .num value line => [.num value line]
  | .var name line => [.var name line]
  | .unary op operand line => .unary op operand line :: operand.nodes
  | .binary left op right line => .binary left op right line :: (left.nodes ++ right.nodes)

/-- With every node, its own nodes are listed. -/
def ClosedNodes (ns : List Expr) : Prop := ∀ n ∈ ns, n.nodes ⊆ ns

theorem ClosedNodes.append {ns ms : List Expr} (hn : ClosedNodes ns) (hm : ClosedNodes ms) :
    ClosedNodes (ns ++ ms) := by
  intro n h
  rcases List.mem_append.mp h with h | h
  · exact List.Subset.trans (hn n h) (List.subset_append_left ns ms)
  · exact List.Subset.trans (hm n h) (List.subset_append_right ns ms)

/-- A node may be put before the nodes beneath it. -/
theorem ClosedNodes.cons {e : Expr} {ns : List Expr} (he : e.nodes = e :: ns)
    (hn : ClosedNodes ns) : ClosedNodes (e :: ns) := by
  intro n h
  rcases List.mem_cons.mp h with rfl | h
  · rw [he]
    exact List.Subset.refl _
  · exact List.Subset.trans (hn n h) (List.subset_cons_self e ns)

theorem closedNodes_nil : ClosedNodes [] := by
  intro n h
  cases h

/-- The nodes of an expression include those beneath each of them. -/
theorem closedNodes_nodes (e : Expr) : ClosedNodes e.nodes := by
  induction e with
  | num value line => exact .cons rfl closedNodes_nil
  | var name line => exact .cons rfl closedNodes_nil
  | unary op operand line ih => exact .cons rfl ih
  | binary left op right line ihl ihr => exact .cons rfl (ihl.append ihr)

end Expr

namespace Stmt

mutual

/-- The statement nodes of a statement, from its root on. -/
def nodes : Stmt → List Stmt
  | .empty line => [.empty line]
  | .block body line => .block body line :: nodesAll body
  | .ifThen condition thenBranch line => .ifThen condition thenBranch line :: thenBranch.nodes
  | .ifElse condition thenBranch elseBranch line =>
    .ifElse condition thenBranch elseBranch line :: (thenBranch.nodes ++ elseBranch.nodes)
  | .whileDo condition body line => .whileDo condition body line :: body.nodes
  | .doWhile body condition line => .doWhile body condition line :: body.nodes
  | .forDo init condition step body line =>
    .forDo init condition step body line :: (init.nodes ++ body.nodes)
  | .exprs list line => [.exprs list line]
  | .print value line => [.print value line]

/-- The statement nodes of some statements. -/
def nodesAll : List Stmt → List Stmt
  | [] => []
  | s :: ss => s.nodes ++ nodesAll ss

end

mutual

/-- The expression nodes of a statement. -/
def exprNodes : Stmt → List Expr
  | .empty _ => []
  | .block body _ => exprNodesAll body
  | .ifThen condition thenBranch _ => condition.nodes ++ thenBranch.exprNodes
  | .ifElse condition thenBranch elseBranch _ =>
    condition.nodes ++ thenBranch.exprNodes ++ elseBranch.exprNodes
  | .whileDo condition body _ => condition.nodes ++ body.exprNodes
  | .doWhile body condition _ => body.exprNodes ++ condition.nodes
  | .forDo init condition step body _ =>
    init.exprNodes ++ condition.nodes ++ step.nodes ++ body.exprNodes
  | .exprs list _ => list.flatMap Expr.nodes
  | .print value _ => value.nodes

/-- The expression nodes of some statements. -/
def exprNodesAll : List Stmt → List Expr
  | [] => []
  | s :: ss => s.exprNodes ++ exprNodesAll ss

end

mutual

theorem closedNodes_exprNodes (s : Stmt) : Expr.ClosedNodes s.exprNodes := by
  match s with
  | .empty _ => exact Expr.closedNodes_nil
  | .block body _ => exact closedNodes_exprNodesAll body
  | .ifThen condition thenBranch _ =>
    exact condition.closedNodes_nodes.append (closedNodes_exprNodes thenBranch)
  | .ifElse condition thenBranch elseBranch _ =>
    exact (condition.closedNodes_nodes.append (closedNodes_exprNodes thenBranch)).append
      (closedNodes_exprNodes elseBranch)
  | .whileDo condition body _ =>
    exact condition.closedNodes_nodes.append (closedNodes_exprNodes body)
  | .doWhile body condition _ =>
    exact (closedNodes_exprNodes body).append condition.closedNodes_nodes
  | .forDo init condition step body _ =>
    exact (((closedNodes_exprNodes init).append condition.closedNodes_nodes).append
      step.closedNodes_nodes).append (closedNodes_exprNodes body)
  | .exprs list _ =>
    rw [exprNodes]
    induction list with
    | nil => exact Expr.closedNodes_nil
    | cons e es ih => exact e.closedNodes_nodes.append ih
  | .print value _ => exact value.closedNodes_nodes

theorem closedNodes_exprNodesAll (ss : List Stmt) : Expr.ClosedNodes (exprNodesAll ss) := by
  match ss with
  | [] => exact Expr.closedNodes_nil
  | s :: ss => exact (closedNodes_exprNodes s).append (closedNodes_exprNodesAll ss)

end

theorem nodesAll_eq_flatMap (ss : List Stmt) : nodesAll ss = ss.flatMap nodes := by
  induction ss with
  | nil => rfl
  | cons s ss ih => rw [nodesAll, ih, List.flatMap_cons]

theorem exprNodesAll_eq_flatMap (ss : List Stmt) : exprNodesAll ss = ss.flatMap exprNodes := by
  induction ss with
  | nil => rfl
  | cons s ss ih => rw [exprNodesAll, ih, List.flatMap_cons]

end Stmt

namespace Program

/-- The statement nodes of a program. -/
def nodes (p : Program) : List Stmt := p.flatMap Stmt.nodes

/-- The expression nodes of a program. -/
def exprNodes (p : Program) : List Expr := p.flatMap Stmt.exprNodes

end Program

end Imp32
