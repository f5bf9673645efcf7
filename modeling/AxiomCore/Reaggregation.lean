import AxiomCore.Extrema
import AxiomCore.Pruning

/-!
Aggregation in two stages. A summary by some columns can be summarised again by fewer of
them: sums of sums, sums of counts, and extrema of extrema. The second stage is typed over
the header of the first, whose columns have wider types, and it ends at the header that a
single stage has, because widening a widened type changes nothing.
-/

namespace AxiomCore

open Checked Refined

/-- The aggregate that puts the results of an aggregate together, found in the column
`name`. An average cannot be put together and stays as it is. -/
def Agg.restage (name : AttributeName) : Agg → Agg
  | .sum _ | .count _ => .sum name
  | .min _ => .min name
  | .max _ => .max name
  | .avg attr => .avg attr

/-- The second stage of an output column keeps its name. -/
def NamedAgg.restage (agg : NamedAgg) : NamedAgg := ⟨agg.name, agg.agg.restage agg.name⟩

def NamedAggSet.restage (aggs : NamedAggSet) : NamedAggSet where
  items := aggs.items.map NamedAgg.restage
  rule :=
    { min_le := by simpa using aggs.rule.min_le
      le_max := by simpa using aggs.rule.le_max
      nodup := by simpa [Function.comp_def, NamedAgg.restage] using aggs.rule.nodup }

/-- The type of a sum can be summed again, and is then its own sum. -/
theorem sumTy_of_sumTy {columnTy ty : Ty} (h : sumTy columnTy = .ok ty) : sumTy ty = .ok ty := by
  cases columnTy with
  | int32 | int64 | float64 | decimal =>
      obtain rfl := Except.ok.inj h
      rfl
  | _ => simp [sumTy] at h

/-- The second stage of an aggregate other than an average has the type of the first, over
any header with the column of the first. -/
theorem aggTy_restage {a : Agg} {s t : Schema} {name : AttributeName} {ty : Ty}
    (havg : ∀ attr, a ≠ .avg attr) (hty : aggTy a s = .ok ty)
    (hcolumn : t.lookup name = some ty) : aggTy (a.restage name) t = .ok ty := by
  have hlookup : lookup t name = .ok ty := (okOr_eq_ok _ _ _).mpr hcolumn
  cases a with
  | count attr =>
      obtain rfl := Except.ok.inj hty
      exact (bind_eq_ok _ _ _).mpr ⟨_, hlookup, rfl⟩
  | sum attr =>
      obtain ⟨columnTy, -, hsum⟩ := (bind_eq_ok _ _ _).mp hty
      exact (bind_eq_ok _ _ _).mpr ⟨_, hlookup, sumTy_of_sumTy hsum⟩
  | min attr =>
      obtain ⟨-, hextremum⟩ := (aggTy_extremum_eq_ok (Or.inl rfl)).mp hty
      exact (aggTy_extremum_eq_ok (Or.inl rfl)).mpr ⟨hcolumn, hextremum⟩
  | max attr =>
      obtain ⟨-, hextremum⟩ := (aggTy_extremum_eq_ok (Or.inr rfl)).mp hty
      exact (aggTy_extremum_eq_ok (Or.inr rfl)).mpr ⟨hcolumn, hextremum⟩
  | avg attr => exact absurd rfl (havg attr)

/-- The leading columns of a header can be thinned out and reordered, as long as a column
follows them. -/
theorem headerRule_of_fewer {grouped kept computed : List Attribute}
    (rule : HeaderRule (grouped ++ computed)) (hkept : (kept.map Attribute.name).Nodup)
    (hsub : ∀ name ∈ kept.map Attribute.name, name ∈ grouped.map Attribute.name)
    (hpos : 1 ≤ computed.length) : HeaderRule (kept ++ computed) := by
  have hnodup := rule.nodup
  have hmax := rule.le_max
  rw [List.map_append, List.nodup_append'] at hnodup
  obtain ⟨-, hcomputed, hdisjoint⟩ := hnodup
  have hlength : kept.length ≤ grouped.length := by
    simpa using hkept.length_le_of_subset hsub
  have hnames : ((kept ++ computed).map Attribute.name).Nodup := by
    rw [List.map_append, List.nodup_append']
    exact ⟨hkept, hcomputed, fun name hname => hdisjoint (hsub name hname)⟩
  rw [List.length_append] at hmax
  exact ⟨⟨by rw [List.length_append]; omega, by rw [List.length_append]; omega⟩, hnames⟩

/-- An output column does not change with fewer grouping columns. -/
theorem Op.aggregateColumn_of_fewer {r : Op} {keys fewer : GroupingSet} {agg : NamedAgg}
    {a : Attribute} (hfewer : ∀ name ∈ fewer.items, name ∈ keys.items)
    (hcolumn : aggregateColumn r keys agg = .ok a) : aggregateColumn r fewer agg = .ok a := by
  rw [aggregateColumn_eq_ok] at hcolumn ⊢
  obtain ⟨hname, hsame, hty⟩ := hcolumn
  exact ⟨fun hmem => hname (hfewer _ hmem), hsame, hty⟩

/-- The second stage of an output column is the column itself. -/
theorem Op.aggregateColumn_restage {r op : Op} {keys fewer : GroupingSet} {agg : NamedAgg}
    {a : Attribute} (hfewer : ∀ name ∈ fewer.items, name ∈ keys.items)
    (havg : ∀ attr, agg.agg ≠ .avg attr) (hcolumn : aggregateColumn r keys agg = .ok a)
    (hmem : a ∈ op.schema.attributes) : aggregateColumn op fewer agg.restage = .ok a := by
  rw [aggregateColumn_eq_ok] at hcolumn ⊢
  obtain ⟨hname, hsame, hty⟩ := hcolumn
  refine ⟨fun hkey => hname (hfewer _ hkey), hsame, ?_⟩
  apply aggTy_restage havg hty
  rw [Schema.lookup_eq_some_iff, ← hsame]
  exact hmem

/-- Aggregation in two stages is type-stable. A summary by some columns whose aggregates
are sums, counts and extrema can be made by fewer columns in any order, directly or as a
summary of the first by the second stages of its aggregates, with the same header. -/
theorem two_stage_aggregation [Whittle] (r op : Op) (keys fewer : GroupingSet)
    (aggs : NamedAggSet) (hfewer : ∀ name ∈ fewer.items, name ∈ keys.items)
    (havg : ∀ agg ∈ aggs.items, ∀ attr, agg.agg ≠ .avg attr)
    (hop : r.summarize keys aggs = .ok op) :
    ∃ direct staged, r.summarize fewer aggs = .ok direct ∧
      op.summarize fewer aggs.restage = .ok staged ∧ staged.schema = direct.schema := by
  obtain ⟨grouped, computed, hgrouped, hcomputed, -, hcolumns⟩ := Op.summarize_eq_ok.mp hop
  obtain ⟨kept, hkept⟩ : ∃ kept, r.schema.Selects fewer.items kept := by
    apply Schema.Selects.exists_of_subset
    intro name hname
    exact hgrouped.subset_names name (hfewer name hname)
  obtain ⟨header, hheader⟩ : ∃ s : Schema, s.attributes = kept ++ computed := by
    have hpos : 1 ≤ computed.length := hcomputed.length_eq ▸ aggs.rule.min_le
    have hnodup : fewer.items.Nodup := by simpa using fewer.rule.nodup
    apply Schema.exists_attributes_iff.mpr
    apply headerRule_of_fewer (hcolumns ▸ op.schema.headerRule) _ _ hpos
    · rw [hkept.map_name]
      exact hnodup
    · rw [hkept.map_name, hgrouped.map_name]
      exact hfewer
  have hdirect : r.summarize fewer aggs = .ok ⟨.summarize r fewer aggs, header⟩ := by
    refine Op.summarize_eq_ok.mpr ⟨kept, computed, hkept, ?_, rfl, hheader⟩
    exact hcomputed.imp fun agg a => Op.aggregateColumn_of_fewer hfewer
  have hstaged : op.summarize fewer aggs.restage =
      .ok ⟨.summarize op fewer aggs.restage, header⟩ := by
    refine Op.summarize_eq_ok.mpr ⟨kept, computed, ?_, ?_, rfl, hheader⟩
    · apply hkept.transfer
      intro a ha
      obtain ⟨hmem, hname⟩ := hkept.mem_iff.mp ha
      rw [hcolumns]
      exact List.mem_append_left _ (hgrouped.mem_iff.mpr ⟨hmem, hfewer _ hname⟩)
    · rw [List.forall₂_iff_zip] at hcomputed
      rw [NamedAggSet.restage, List.forall₂_map_left_iff, List.forall₂_iff_zip]
      refine ⟨hcomputed.1, ?_⟩
      intro agg a hpair
      obtain ⟨hagg, ha⟩ := List.of_mem_zip hpair
      apply Op.aggregateColumn_restage hfewer (havg agg hagg) (hcomputed.2 hpair)
      rw [hcolumns]
      exact List.mem_append_right _ ha
  exact ⟨_, _, hdirect, hstaged, rfl⟩

namespace Catalogue

def perId : GroupingSet := ⟨[id], by decide⟩

def sumOf (column : AttributeName) : NamedAggSet :=
  ⟨[⟨total, .sum column⟩], ⟨by simp, by simp [maxSchemaAttributes]⟩, by simp⟩

end Catalogue

/-- The totals of the orders of each user, summed over the users. -/
theorem two_stage_aggregation_orders :
    ∃ perUser direct staged,
      Catalogue.orders.summarize Catalogue.perId (Catalogue.sumOf Catalogue.total) = .ok perUser ∧
      Catalogue.orders.summarize Catalogue.grandTotal (Catalogue.sumOf Catalogue.total) =
        .ok direct ∧
      perUser.summarize Catalogue.grandTotal (Catalogue.sumOf Catalogue.total).restage =
        .ok staged ∧ staged.schema = direct.schema := by
  obtain ⟨perUser, hperUser⟩ : ∃ op, Catalogue.orders.summarize Catalogue.perId
      (Catalogue.sumOf Catalogue.total) = .ok op := ⟨_, rfl⟩
  have hsum : ∀ agg ∈ (Catalogue.sumOf Catalogue.total).items, ∀ attr, agg.agg ≠ .avg attr := by
    simp [Catalogue.sumOf]
  obtain ⟨direct, staged, hdirect, hstaged, hschema⟩ := two_stage_aggregation Catalogue.orders
    perUser Catalogue.perId Catalogue.grandTotal (Catalogue.sumOf Catalogue.total)
    (by simp [Catalogue.grandTotal]) hsum hperUser
  exact ⟨perUser, direct, staged, hperUser, hdirect, hstaged, hschema⟩

end AxiomCore
