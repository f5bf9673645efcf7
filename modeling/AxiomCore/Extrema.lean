import AxiomCore.Comparisons
import AxiomCore.References

/-!
Extrema. The least and the greatest value of a column exist only where its type is
ordered all the way down. Inference looks at the outermost constructor of the type, so
it rejects JSON and relations there and lets an array or an optional of them pass.
-/

namespace AxiomCore

open Checked Construction Refined

namespace Ty

/-- An array or an optional with JSON or a relation inside, at any depth. -/
def wrapsIncomparable : Ty → Bool
  | .array item => !item.isComparable
  | .optional inner => !inner.isComparable
  | _ => false

/-- A type is comparable when it is so on the outside and wraps nothing that is not. -/
theorem isComparable_iff (ty : Ty) :
    ty.isComparable = true ↔ ty.hasExtremum = true ∧ ty.wrapsIncomparable = false := by
  cases ty <;> simp [isComparable, hasExtremum, wrapsIncomparable]

theorem hasExtremum_of_wrapsIncomparable {ty : Ty} (h : ty.wrapsIncomparable = true) :
    ty.hasExtremum = true := by
  cases ty <;> simp_all [hasExtremum, wrapsIncomparable]

end Ty

/-- The aggregate is `MIN` or `MAX` over the column. -/
def Agg.IsExtremum (a : Agg) (name : AttributeName) : Prop := a = .min name ∨ a = .max name

/-- `MIN` and `MAX` are accepted over the columns whose type is comparable on the
outside, and return it unchanged. -/
theorem aggTy_extremum_eq_ok {a : Agg} {name : AttributeName} (ha : a.IsExtremum name)
    {schema : Schema} {ty : Ty} :
    aggTy a schema = .ok ty ↔ schema.lookup name = some ty ∧ ty.hasExtremum = true := by
  have hstages : aggTy a schema = lookup schema name >>= extremumTy := by
    rcases ha with rfl | rfl <;> rfl
  rw [hstages, bind_eq_ok]
  simp only [lookup, okOr_eq_ok, extremumTy_eq_ok]
  constructor
  · intro haccepted
    obtain ⟨columnTy, hlookup, hextremum, rfl⟩ := haccepted
    exact ⟨hlookup, hextremum⟩
  · intro hcolumn
    obtain ⟨hlookup, hextremum⟩ := hcolumn
    exact ⟨ty, hlookup, hextremum, rfl⟩

/-- Every `MIN` and `MAX` of a summary is over a comparable column. -/
def Op.ExtremaComparable (op : Op) : Prop :=
  match op.kind with
  | .summarize input _ aggs =>
    ∀ agg ∈ aggs.items, ∀ name, agg.agg.IsExtremum name →
      ∀ ty, input.schema.lookup name = some ty → ty.isComparable = true
  | _ => True

/-- No `MIN` or `MAX` of a summary call is over an array or an optional with an
incomparable part. -/
def Call.ExtremaUnwrapped : Call → Prop
  | .summarize input _ aggs =>
    ∀ agg ∈ aggs.items, ∀ name, agg.agg.IsExtremum name →
      ∀ ty, input.schema.lookup name = some ty → ty.wrapsIncomparable = false
  | _ => True

section Kernel

variable [Whittle]

/-- One call: the columns under `MIN` and `MAX` are comparable exactly when none of them
wraps an incomparable type. -/
theorem Call.extremaComparable_iff {call : Call} {op : Op} (hrun : call.run = .ok op) :
    op.ExtremaComparable ↔ call.ExtremaUnwrapped := by
  rw [Op.ExtremaComparable, Call.kind_of_run hrun]
  cases call with
  | summarize input keys aggs =>
      obtain ⟨grouped, computed, -, hcomputed, -⟩ := Op.summarize_eq_ok.mp hrun
      apply forall₂_congr
      intro agg hagg
      obtain ⟨a, -, hcolumn⟩ := exists_output hcomputed hagg
      have hty := (Op.aggregateColumn_eq_ok.mp hcolumn).2.2
      apply forall₂_congr
      intro name hextremum
      obtain ⟨hlookup, houtside⟩ := (aggTy_extremum_eq_ok hextremum).mp hty
      apply forall₂_congr
      intro ty hcolumnTy
      obtain rfl : a.ty = ty := Option.some.inj (hlookup.symm.trans hcolumnTy)
      simp [Ty.isComparable_iff, houtside]
  | join left right kind joinOn =>
      rcases Call.kind_join left right kind joinOn with hkind | hkind
      · rw [hkind]; rfl
      · rw [hkind]; rfl
  | _ => rfl

/-- Where `MIN` and `MAX` admit comparable columns only. For one header, what they accept
is comparable and returned unchanged exactly when their column is not an array or an
optional with JSON or a relation inside. The summaries in every tree of a run take them
over comparable columns exactly when no summary call takes them over such a column. -/
theorem extrema_comparable_iff :
    (∀ (a : Agg) (name : AttributeName) (schema : Schema), a.IsExtremum name →
      ((∀ ty, aggTy a schema = .ok ty →
          schema.lookup name = some ty ∧ ty.isComparable = true) ↔
        ∀ ty, schema.lookup name = some ty → ty.wrapsIncomparable = false)) ∧
    ∀ calls ops, Run kernel calls ops →
      ((∀ op ∈ ops, ∀ node, Op.Node op node → node.ExtremaComparable) ↔
        ∀ call ∈ calls, call.ExtremaUnwrapped) := by
  constructor
  · intro a name schema ha
    constructor
    · intro haccept ty hlookup
      by_contra hwraps
      rw [Bool.not_eq_false] at hwraps
      have houtside := Ty.hasExtremum_of_wrapsIncomparable hwraps
      have hcomparable := (haccept ty ((aggTy_extremum_eq_ok ha).mpr ⟨hlookup, houtside⟩)).2
      rw [Ty.isComparable_iff, hwraps] at hcomparable
      exact absurd hcomparable.2 Bool.noConfusion
    · intro hunwrapped ty hty
      obtain ⟨hlookup, houtside⟩ := (aggTy_extremum_eq_ok ha).mp hty
      exact ⟨hlookup, (Ty.isComparable_iff ty).mpr ⟨houtside, hunwrapped ty hlookup⟩⟩
  · intro calls ops hrun
    exact hrun.forall_node_iff fun call op => Call.extremaComparable_iff

end Kernel

namespace Catalogue

def maxOf (column : AttributeName) : NamedAggSet :=
  ⟨[⟨total, .max column⟩], ⟨by simp, by simp [maxSchemaAttributes]⟩, by simp⟩

/-- Users with a list of JSON tags in place of their name. -/
def taggedTable : Source :=
  .table (.ofAttributes [⟨id, .int64⟩, ⟨name, .array .json⟩] (by decide)) ⟨"tagged", by decide⟩

def tagged : Op := .source taggedTable

end Catalogue

/-- The last user by name. -/
theorem extrema_comparable_users :
    aggTy (.max Catalogue.name) Catalogue.users.schema = .ok .string ∧
      Ty.isComparable .string = true ∧
      ∃ op, Catalogue.users.summarize Catalogue.grandTotal (Catalogue.maxOf Catalogue.name) =
        .ok op ∧ op.ExtremaComparable := by
  obtain ⟨hagg, hruns⟩ := extrema_comparable_iff
  have hname : Catalogue.users.schema.lookup Catalogue.name = some .string := by decide
  have hcomparable := (hagg (.max Catalogue.name) Catalogue.name Catalogue.users.schema
    (Or.inr rfl)).mpr (by simp [hname, Ty.wrapsIncomparable]) .string rfl
  obtain ⟨op, hsummarize⟩ : ∃ op, Catalogue.users.summarize Catalogue.grandTotal
      (Catalogue.maxOf Catalogue.name) = .ok op := ⟨_, rfl⟩
  have hrun : Run kernel
      [.summarize Catalogue.users Catalogue.grandTotal (Catalogue.maxOf Catalogue.name),
        .source Catalogue.usersTable] [op, Catalogue.users] :=
    .step Catalogue.run_users (by simp [kernel, Call.inputs]) hsummarize
  have hnodes := (hruns _ _ hrun).mpr
    (by simp [Call.ExtremaUnwrapped, Catalogue.maxOf, Agg.IsExtremum, hname, Ty.wrapsIncomparable])
  exact ⟨rfl, hcomparable.2, op, hsummarize, hnodes op (by simp) op (.root op)⟩

/-- The greatest list of JSON tags passes every check. -/
theorem extremum_of_json_lists :
    aggTy (.max Catalogue.name) Catalogue.tagged.schema = .ok (.array .json) ∧
      Ty.isComparable (.array .json) = false ∧
      ∃ op, Catalogue.tagged.summarize Catalogue.grandTotal (Catalogue.maxOf Catalogue.name) =
        .ok op ∧ op.Reachable ∧ ¬ op.ExtremaComparable := by
  refine ⟨rfl, rfl, _, rfl, ?_, ?_⟩
  · exact Op.reachable_of_run
      (.summarize Catalogue.tagged Catalogue.grandTotal (Catalogue.maxOf Catalogue.name)) rfl
      (by simp [Call.inputs, Catalogue.tagged, Op.reachable_source])
  · intro hcomparable
    have htags := hcomparable ⟨Catalogue.total, .max Catalogue.name⟩ (by simp [Catalogue.maxOf])
      Catalogue.name (Or.inr rfl) (.array .json) (by decide)
    simp [Ty.isComparable] at htags

end AxiomCore
