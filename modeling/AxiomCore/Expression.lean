import Mathlib.Data.Finset.Basic
import AxiomCore.Ty

/-!
The expression algebra and its two syntactic walks: the search for an
aggregate and the collection of free attribute names. Both are characterised
by the nodes of the tree, which are listed left to right, operands first.
-/

namespace AxiomCore

open Refined

/-- An aggregate over one column; `count none` is `COUNT(*)`. -/
inductive Agg where
  | count (attr : Option AttributeName)
  | sum (attr : AttributeName)
  | min (attr : AttributeName)
  | max (attr : AttributeName)
  | avg (attr : AttributeName)
  deriving DecidableEq

/-- An aggregate with the name of its output column. -/
structure NamedAgg where
  name : AttributeName
  agg : Agg
  deriving DecidableEq

inductive BinOp where
  | add | sub | mul | div
  | eq | ne | lt | le | gt | ge
  | and | or
  | concat
  deriving DecidableEq

inductive UnOp where
  | neg | not
  deriving DecidableEq

/-- The literals of an `IN` list. -/
abbrev InListValues : Type := BoundedVec Value 1 maxInList

inductive Expression where
  | attr (name : AttributeName)
  | lit (value : Value)
  | binOp (op : BinOp) (lhs rhs : Expression)
  | unOp (op : UnOp) (operand : Expression)
  | like (operand : Expression) (pattern : Pattern)
  | inList (operand : Expression) (values : InListValues)
  | isNull (operand : Expression)
  | cast (operand : Expression) (target : Ty)
  | agg (agg : Agg)

/-- Whether the expression or any sub-expression is an aggregate. -/
def containsAggregate : Expression → Bool
  | .attr _ | .lit _ => false
  | .binOp _ lhs rhs => containsAggregate lhs || containsAggregate rhs
  | .unOp _ operand | .like operand _ | .isNull operand | .cast operand _ | .inList operand _ =>
    containsAggregate operand
  | .agg _ => true

def aggregateAttributeNames : Agg → List AttributeName
  | .count attr => attr.toList
  | .sum name | .min name | .max name | .avg name => [name]

/-- Add every attribute name the expression mentions to `out`. -/
def freeAttrsInto : Expression → Finset AttributeName → Finset AttributeName
  | .attr name, out => insert name out
  | .lit _, out => out
  | .binOp _ lhs rhs, out => freeAttrsInto rhs (freeAttrsInto lhs out)
  | .unOp _ operand, out | .like operand _, out | .isNull operand, out | .cast operand _, out
  | .inList operand _, out => freeAttrsInto operand out
  | .agg a, out => (aggregateAttributeNames a).foldl (fun names name => insert name names) out

namespace Expression

/-- The free attribute names of an expression. -/
def freeAttrs (e : Expression) : Finset AttributeName := freeAttrsInto e ∅

/-- Every node of the tree, operands before operators and left before right. -/
def postOrder : Expression → List Expression
  | .attr name => [.attr name]
  | .lit value => [.lit value]
  | .binOp op lhs rhs => postOrder lhs ++ postOrder rhs ++ [.binOp op lhs rhs]
  | .unOp op operand => postOrder operand ++ [.unOp op operand]
  | .like operand pattern => postOrder operand ++ [.like operand pattern]
  | .inList operand values => postOrder operand ++ [.inList operand values]
  | .isNull operand => postOrder operand ++ [.isNull operand]
  | .cast operand target => postOrder operand ++ [.cast operand target]
  | .agg a => [.agg a]

@[simp] theorem mem_postOrder_self (e : Expression) : e ∈ e.postOrder := by
  cases e <;> simp [postOrder]

/-- A node of a node is a node. -/
theorem postOrder_trans {e node inner : Expression} (hnode : node ∈ e.postOrder)
    (hinner : inner ∈ node.postOrder) : inner ∈ e.postOrder := by
  induction e with
  | attr name | lit value | agg a =>
      simp only [postOrder, List.mem_singleton] at hnode
      exact hnode ▸ hinner
  | binOp op lhs rhs ihl ihr =>
      simp only [postOrder, List.mem_append, List.mem_singleton] at hnode
      rcases hnode with (hleft | hright) | rfl
      · simp [postOrder, ihl hleft]
      · simp [postOrder, ihr hright]
      · exact hinner
  | unOp op operand ih | like operand pattern ih | inList operand values ih | isNull operand ih
  | cast operand target ih =>
      simp only [postOrder, List.mem_append, List.mem_singleton] at hnode
      rcases hnode with hoperand | rfl
      · simp [postOrder, ih hoperand]
      · exact hinner

end Expression

/-- The search for an aggregate finds exactly the aggregate nodes. -/
theorem containsAggregate_iff (e : Expression) :
    containsAggregate e = true ↔ ∃ a, Expression.agg a ∈ e.postOrder := by
  induction e with
  | attr name | lit value | agg a => simp [containsAggregate, Expression.postOrder]
  | binOp op lhs rhs ihl ihr =>
      simp [containsAggregate, Expression.postOrder, ihl, ihr, exists_or]
  | unOp op operand ih | like operand pattern ih | inList operand values ih | isNull operand ih
  | cast operand target ih => simp [containsAggregate, Expression.postOrder, ih]

private theorem mem_foldl_insert (names : List AttributeName) (out : Finset AttributeName)
    (name : AttributeName) :
    name ∈ names.foldl (fun found next => insert next found) out ↔ name ∈ out ∨ name ∈ names := by
  induction names generalizing out with
  | nil => simp
  | cons head tail ih =>
      simp only [List.foldl_cons, ih, Finset.mem_insert, List.mem_cons]
      tauto

/-- The collection of free attributes adds exactly the names of the attribute
leaves and of the aggregate operands. -/
theorem mem_freeAttrsInto (e : Expression) (out : Finset AttributeName) (name : AttributeName) :
    name ∈ freeAttrsInto e out ↔ name ∈ out ∨ .attr name ∈ e.postOrder ∨
      ∃ a, Expression.agg a ∈ e.postOrder ∧ name ∈ aggregateAttributeNames a := by
  induction e generalizing out with
  | attr n =>
      simp only [freeAttrsInto, Expression.postOrder, Finset.mem_insert, List.mem_singleton,
        Expression.attr.injEq, reduceCtorEq, false_and, exists_false, or_false]
      exact or_comm
  | lit value => simp [freeAttrsInto, Expression.postOrder]
  | agg a => simp [freeAttrsInto, Expression.postOrder, mem_foldl_insert]
  | binOp op lhs rhs ihl ihr =>
      simp only [freeAttrsInto, Expression.postOrder, ihl, ihr, List.mem_append,
        List.mem_singleton, reduceCtorEq, or_false, or_and_right, exists_or]
      rw [or_assoc]
      exact or_congr_right (or_or_or_comm ..)
  | unOp op operand ih | like operand pattern ih | inList operand values ih | isNull operand ih
  | cast operand target ih => simp [freeAttrsInto, Expression.postOrder, ih]

namespace Expression

theorem mem_freeAttrs_iff {e : Expression} {name : AttributeName} :
    name ∈ e.freeAttrs ↔ .attr name ∈ e.postOrder ∨
      ∃ a, Expression.agg a ∈ e.postOrder ∧ name ∈ aggregateAttributeNames a := by
  simp [freeAttrs, mem_freeAttrsInto]

/-- A node mentions no name that its tree does not mention. -/
theorem freeAttrs_node {e node : Expression} (hnode : node ∈ e.postOrder) :
    node.freeAttrs ⊆ e.freeAttrs := by
  intro name hname
  rw [mem_freeAttrs_iff] at hname ⊢
  rcases hname with hattr | ⟨a, hagg, ha⟩
  · exact Or.inl (postOrder_trans hnode hattr)
  · exact Or.inr ⟨a, postOrder_trans hnode hagg, ha⟩

end Expression

end AxiomCore
