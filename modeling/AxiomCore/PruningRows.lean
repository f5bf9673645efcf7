import AxiomCore.Inlining
import AxiomCore.Pruning
import AxiomCore.PushdownRows

/-!
The rows of pruned inputs. A projection lists the values under some names, and an
expression reads values under its own, so only the values under the needed names
matter. Two operators whose rows agree there can stand for each other below a
restriction, a product or a theta join, and a projection of them emits the same
rows. A pruned input agrees with the whole one under everything that it keeps.
-/

namespace AxiomCore

open Checked Refined

theorem exists_row_of_length {values : List Value} {s : Schema}
    (hlength : values.length = s.cardinality) : ∃ row : Row, row.asSlice = values := by
  have hcolumns : s.attributes.length = s.cardinality := Schema.length_attributes s
  have rule : LengthRule 1 maxSchemaAttributes values := by
    rw [← hcolumns] at hlength
    exact ⟨hlength ▸ s.headerRule.min_le, hlength ▸ s.headerRule.le_max⟩
  exact ⟨.ofValues values rule, Row.asSlice_ofValues values rule⟩

section Padded

variable {left right op : Op} {l r out : Row} {name : AttributeName}

theorem Row.valueOf_leftPadded
    (hcolumns : op.schema.attributes = left.schema.attributes ++ right.schema.attributes)
    (hwidth : l.asSlice.length = left.schema.cardinality)
    (hout : out.asSlice = leftPadded left.schema right.schema l) :
    out.valueOf op.schema name = (l.valueOf left.schema name).or
      (if name ∈ right.schema.names then some .null else none) := by
  have hlength : left.schema.attributes.length = l.asSlice.length := by simp [hwidth]
  rw [valueOf, hout, leftPadded, Op.filter_disjoint (Op.disjoint_of_concat hcolumns), hcolumns,
    Keyed.valueAt_append hlength, Keyed.valueAt_map]
  congr 1
  split
  · rename_i hname
    obtain ⟨a, ha⟩ := Option.isSome_iff_exists.mp (Keyed.find_isSome_iff.mpr hname)
    rw [ha]
    rfl
  · rename_i hname
    rw [Keyed.find_eq_none_iff.mpr hname]
    rfl

theorem Row.valueOf_rightPadded {s : Schema}
    (hout : out.asSlice = rightPadded right.schema s r) :
    out.valueOf s name =
      if name ∈ s.names then some ((r.valueOf right.schema name).getD .null) else none := by
  rw [valueOf, hout, rightPadded, Keyed.valueAt_map]
  split
  · rename_i hname
    obtain ⟨a, ha⟩ := Option.isSome_iff_exists.mp (Keyed.find_isSome_iff.mpr hname)
    obtain ⟨-, rfl⟩ := Keyed.find_mem ha
    rw [ha]
    rfl
  · rename_i hname
    rw [Keyed.find_eq_none_iff.mpr hname]
    rfl

end Padded

/-- Each row that `op` emits has a row of `op'` with the same values under the
names. -/
structure Covers (backend : Backend) (names : Finset AttributeName) (op op' : Op) : Prop where
  names_iff : ∀ n ∈ names, n ∈ op'.schema.names ↔ n ∈ op.schema.names
  rows : ∀ r, Emits backend op r → ∃ r', Emits backend op' r' ∧
    ∀ n ∈ names, r'.valueOf op'.schema n = r.valueOf op.schema n

section Congruence

variable {backend : Backend} {names : Finset AttributeName} {op op' : Op}

theorem Covers.restrict {b : BoolExpression} (hcovers : Covers backend names op op')
    (hfree : b.expr.freeAttrs ⊆ names) :
    Covers backend names ⟨.restrict op (.expr b), op.schema⟩
      ⟨.restrict op' (.expr b), op'.schema⟩ where
  names_iff := hcovers.names_iff
  rows := by
    intro r hr
    obtain ⟨hr, htrue⟩ := emits_restrict_iff.mp hr
    obtain ⟨r', hr', hvalues⟩ := hcovers.rows r hr
    refine ⟨r', emits_restrict_iff.mpr ⟨hr', ?_⟩, hvalues⟩
    rw [← htrue]
    apply Backend.eval_congr
    intro n hn
    exact hvalues n (hfree hn)

/-- The projections to the names emit the same rows. -/
theorem Covers.project {attrs : AttributeSet} {s s' : Schema}
    (hcovers : Covers backend names op op') (hattrs : ∀ n ∈ attrs.items, n ∈ names) {row : Row}
    (hrow : Emits backend ⟨.project op attrs, s⟩ row) :
    Emits backend ⟨.project op' attrs, s'⟩ row := by
  cases hrow with
  | @project _ _ _ r _ hr hvalues =>
      obtain ⟨r', hr', hsame⟩ := hcovers.rows r hr
      apply Emits.project hr'
      have hmem := (List.forall₂_and_left _ _).mpr ⟨fun _ hn => hn, hvalues⟩
      apply hmem.imp
      intro n v h
      exact (hsame n (hattrs n h.1)).trans h.2

section Sides

variable {left left' right right' built built' : Op}

theorem Covers.sides_names (hleft : Covers backend names left left')
    (hright : Covers backend names right right')
    (hcolumns : built.schema.attributes = left.schema.attributes ++ right.schema.attributes)
    (hcolumns' : built'.schema.attributes = left'.schema.attributes ++ right'.schema.attributes) :
    ∀ n ∈ names, n ∈ built'.schema.names ↔ n ∈ built.schema.names := by
  intro n hn
  have hl := hleft.names_iff n hn
  have hr := hright.names_iff n hn
  rw [Schema.names, Schema.names] at hl hr
  rw [Schema.names, Schema.names, hcolumns, hcolumns', List.map_append, List.map_append,
    List.mem_append, List.mem_append, hl, hr]

/-- Rows of the sides that agree, side by side. -/
theorem Covers.sides_rows (hleft : Covers backend names left left')
    (hright : Covers backend names right right') (hfits : left.Fits backend)
    (hfitsLeft : left'.Fits backend) (hfitsRight : right'.Fits backend)
    (hcolumns : built.schema.attributes = left.schema.attributes ++ right.schema.attributes)
    (hcolumns' : built'.schema.attributes = left'.schema.attributes ++ right'.schema.attributes)
    {l r out : Row} (hl : Emits backend left l) (hr : Emits backend right r)
    (hout : out.asSlice = l.asSlice ++ r.asSlice) :
    ∃ l' r' out' : Row, Emits backend left' l' ∧ Emits backend right' r' ∧
      out'.asSlice = l'.asSlice ++ r'.asSlice ∧
      ∀ n ∈ names, out'.valueOf built'.schema n = out.valueOf built.schema n := by
  obtain ⟨l', hl', hleftValues⟩ := hleft.rows l hl
  obtain ⟨r', hr', hrightValues⟩ := hright.rows r hr
  have hwidth := (hfits l hl).width
  have hwidthLeft := (hfitsLeft l' hl').width
  have hwidthRight := (hfitsRight r' hr').width
  obtain ⟨out', hout'⟩ : ∃ out' : Row, out'.asSlice = l'.asSlice ++ r'.asSlice := by
    apply exists_row_of_length (s := built'.schema)
    rw [← Schema.length_attributes, hcolumns', List.length_append, List.length_append, hwidthLeft,
      hwidthRight, Schema.length_attributes, Schema.length_attributes]
  refine ⟨l', r', out', hl', hr', hout', ?_⟩
  intro n hn
  rw [Row.valueOf_append hcolumns hwidth hout, Row.valueOf_append hcolumns' hwidthLeft hout',
    hleftValues n hn, hrightValues n hn]

variable [Whittle]

theorem Covers.product (hleft : Covers backend names left left')
    (hright : Covers backend names right right') (hfits : left.Fits backend)
    (hfitsLeft : left'.Fits backend) (hfitsRight : right'.Fits backend)
    (hbuilt : left.product right = .ok built) (hbuilt' : left'.product right' = .ok built') :
    Covers backend names built built' := by
  obtain ⟨hkind, hcolumns⟩ := Op.product_eq_ok.mp hbuilt
  obtain ⟨hkind', hcolumns'⟩ := Op.product_eq_ok.mp hbuilt'
  refine ⟨hleft.sides_names hright hcolumns hcolumns', ?_⟩
  intro out hout
  have hsides := @Covers.sides_rows _ _ _ _ _ _ _ _ hleft hright hfits hfitsLeft hfitsRight
    hcolumns hcolumns'
  obtain ⟨kind, s⟩ := built
  obtain ⟨kind', s'⟩ := built'
  simp only at hkind hkind'
  subst hkind hkind'
  obtain ⟨l, r, hl, hr, hrow⟩ := emits_product_iff.mp hout
  obtain ⟨l', r', out', hl', hr', hrow', hvalues⟩ := hsides hl hr hrow
  exact ⟨out', emits_product_iff.mpr ⟨l', r', hl', hr', hrow'⟩, hvalues⟩

/-- The rows of a theta join over an expression, of whatever kind. -/
theorem emits_theta_kind_iff {kind : JoinKind} {b : BoolExpression} {row : Row}
    (hright : right.Fits backend) (hbuilt : left.join right kind (.theta (.expr b)) = .ok built) :
    Emits backend built row ↔
      (∃ l r, Emits backend left l ∧ Emits backend right r ∧
        row.asSlice = l.asSlice ++ r.asSlice ∧
        backend.eval b.expr built.schema row = .ok (.bool true)) ∨
      (kind.keepsLeft = true ∧ ∃ l, Emits backend left l ∧
        row.asSlice = leftPadded left.schema right.schema l) ∨
      (kind.keepsRight = true ∧ ∃ r, Emits backend right r ∧
        row.asSlice = rightPadded right.schema built.schema r) := by
  obtain ⟨-, -, hcolumns⟩ := Op.join_theta_eq_ok.mp hbuilt
  rw [emits_join_iff hright hbuilt]
  apply or_congr_left
  constructor
  · intro h
    obtain ⟨l, r, hl, hr, hrow, htrue⟩ := h
    rw [Row.without_of_concat hcolumns (hright r hr).width] at hrow
    exact ⟨l, r, hl, hr, hrow, htrue⟩
  · intro h
    obtain ⟨l, r, hl, hr, hrow, htrue⟩ := h
    rw [← Row.without_of_concat hcolumns (hright r hr).width] at hrow
    exact ⟨l, r, hl, hr, hrow, htrue⟩

theorem Covers.theta {kind : JoinKind} {b : BoolExpression}
    (hleft : Covers backend names left left') (hright : Covers backend names right right')
    (hfree : b.expr.freeAttrs ⊆ names)
    (hfits : left.Fits backend) (hfitsLeft : left'.Fits backend) (hfits' : right.Fits backend)
    (hfitsRight : right'.Fits backend)
    (hbuilt : left.join right kind (.theta (.expr b)) = .ok built)
    (hbuilt' : left'.join right' kind (.theta (.expr b)) = .ok built') :
    Covers backend names built built' := by
  obtain ⟨-, -, hcolumns⟩ := Op.join_theta_eq_ok.mp hbuilt
  obtain ⟨-, -, hcolumns'⟩ := Op.join_theta_eq_ok.mp hbuilt'
  have hnames := hleft.sides_names hright hcolumns hcolumns'
  refine ⟨hnames, ?_⟩
  intro out hout
  rcases (emits_theta_kind_iff hfits' hbuilt).mp hout with
    ⟨l, r, hl, hr, hrow, htrue⟩ | ⟨hkeeps, l, hl, hrow⟩ | ⟨hkeeps, r, hr, hrow⟩
  · obtain ⟨l', r', out', hl', hr', hrow', hvalues⟩ :=
      hleft.sides_rows hright hfits hfitsLeft hfitsRight hcolumns hcolumns' hl hr hrow
    have htrue' : backend.eval b.expr built'.schema out' = .ok (.bool true) := by
      rw [← htrue]
      apply Backend.eval_congr
      intro n hn
      exact hvalues n (hfree hn)
    exact ⟨out', (emits_theta_kind_iff hfitsRight hbuilt').mpr
      (Or.inl ⟨l', r', hl', hr', hrow', htrue'⟩), hvalues⟩
  · obtain ⟨l', hl', hleftValues⟩ := hleft.rows l hl
    have hwidth := (hfits l hl).width
    have hwidth' := (hfitsLeft l' hl').width
    obtain ⟨out', hrow'⟩ : ∃ out' : Row,
        out'.asSlice = leftPadded left'.schema right'.schema l' := by
      apply exists_row_of_length (s := built'.schema)
      rw [leftPadded, Op.filter_disjoint (Op.disjoint_of_concat hcolumns'), List.length_append,
        List.length_map, hwidth', ← Schema.length_attributes, ← Schema.length_attributes, hcolumns',
        List.length_append]
    refine ⟨out', (emits_theta_kind_iff hfitsRight hbuilt').mpr
      (Or.inr (Or.inl ⟨hkeeps, l', hl', hrow'⟩)), ?_⟩
    intro n hn
    rw [Row.valueOf_leftPadded hcolumns hwidth hrow, Row.valueOf_leftPadded hcolumns' hwidth' hrow',
      hleftValues n hn]
    simp only [hright.names_iff n hn]
  · obtain ⟨r', hr', hrightValues⟩ := hright.rows r hr
    obtain ⟨out', hrow'⟩ : ∃ out' : Row,
        out'.asSlice = rightPadded right'.schema built'.schema r' := by
      apply exists_row_of_length (s := built'.schema)
      rw [rightPadded, List.length_map, Schema.length_attributes]
    refine ⟨out', (emits_theta_kind_iff hfitsRight hbuilt').mpr
      (Or.inr (Or.inr ⟨hkeeps, r', hr', hrow'⟩)), ?_⟩
    intro n hn
    rw [Row.valueOf_rightPadded hrow, Row.valueOf_rightPadded hrow', hrightValues n hn]
    simp only [hnames n hn]

end Sides

section Pruned

variable [Whittle] {keep : AttributeSet} {pruned : Op}

theorem Op.Fits.project (hfits : op.Fits backend) (hpruned : op.project keep = .ok pruned) :
    pruned.Fits backend := by
  intro row hrow
  obtain ⟨hkind, hselect⟩ := Op.project_eq_ok.mp hpruned
  obtain ⟨kind, s⟩ := pruned
  simp only at hkind
  subst hkind
  cases hrow with
  | project hr hvalues => exact Keyed.forall₂_valueAt (hfits _ hr) hvalues hselect

/-- A row and its projection agree under the needed names. -/
theorem Row.valueOf_pruned {r row : Row} (hpruned : op.project keep = .ok pruned)
    (hkeeps : keep.KeepsNeeded op.schema names)
    (hvalues : r.ValuesOf op.schema keep.items row.asSlice) :
    ∀ n ∈ names, row.valueOf pruned.schema n = r.valueOf op.schema n := by
  obtain ⟨-, hselect⟩ := Op.project_eq_ok.mp hpruned
  intro n hn
  have hcells : List.Forall₂ (fun v a => r.valueOf op.schema a.name = some v) row.asSlice
      pruned.schema.attributes := by
    refine Keyed.forall₂_common (fun name v a hvalue hfind => ?_) hvalues hselect
    obtain ⟨-, rfl⟩ := Keyed.find_mem hfind
    exact hvalue
  have hkept : pruned.schema.names = keep.items := hselect.map_name
  by_cases hname : n ∈ op.schema.names
  · have hmem : n ∈ pruned.schema.names := hkept ▸ (hkeeps n).mpr ⟨hname, hn⟩
    obtain ⟨ty, hty⟩ := Schema.mem_names_iff.mp hmem
    obtain ⟨v, hv, hsame⟩ := Keyed.valueAt_of_mem pruned.schema.nodup_names hcells hty
    exact Eq.trans hv hsame.symm
  · have habsent : n ∉ pruned.schema.names := by
      rw [hkept, hkeeps]
      exact fun h => hname h.1
    rw [Row.valueOf_eq_none hname, Row.valueOf_eq_none habsent]

theorem AttributeSet.KeepsNeeded.names_iff (hpruned : op.project keep = .ok pruned)
    (hkeeps : keep.KeepsNeeded op.schema names) :
    ∀ n ∈ names, n ∈ pruned.schema.names ↔ n ∈ op.schema.names := by
  obtain ⟨-, hselect⟩ := Op.project_eq_ok.mp hpruned
  have hkept : pruned.schema.names = keep.items := hselect.map_name
  intro n hn
  rw [hkept, hkeeps]
  exact and_iff_left hn

theorem Covers.prune (hfits : op.Fits backend) (hpruned : op.project keep = .ok pruned)
    (hkeeps : keep.KeepsNeeded op.schema names) : Covers backend names op pruned where
  names_iff := hkeeps.names_iff hpruned
  rows := by
    intro r hr
    obtain ⟨hkind, hselect⟩ := Op.project_eq_ok.mp hpruned
    have hfound : ∀ n ∈ keep.items, ∃ v, r.valueOf op.schema n = some v := by
      intro n hn
      exact (hfits r hr).exists_valueOf ((hkeeps n).mp hn).1
    obtain ⟨values, hvalues⟩ := exists_outputs_iff.mpr hfound
    obtain ⟨row, rfl⟩ : ∃ row : Row, row.asSlice = values := by
      apply exists_row_of_length (s := pruned.schema)
      rw [← hvalues.length_eq, ← Schema.length_attributes]
      exact hselect.length_eq
    refine ⟨row, ?_, Row.valueOf_pruned hpruned hkeeps hvalues⟩
    rw [← Op.eta pruned, hkind]
    exact .project hr hvalues

theorem Covers.unprune (hpruned : op.project keep = .ok pruned)
    (hkeeps : keep.KeepsNeeded op.schema names) : Covers backend names pruned op where
  names_iff := fun n hn => (hkeeps.names_iff hpruned n hn).symm
  rows := by
    intro row hrow
    have hsame : ∀ r row : Row, r.ValuesOf op.schema keep.items row.asSlice →
        ∀ n ∈ names, row.valueOf pruned.schema n = r.valueOf op.schema n :=
      fun _ _ => Row.valueOf_pruned hpruned hkeeps
    obtain ⟨hkind, -⟩ := Op.project_eq_ok.mp hpruned
    rw [← Op.eta pruned, hkind] at hrow
    cases hrow with
    | @project _ _ _ r _ hr hvalues =>
        refine ⟨r, hr, ?_⟩
        intro n hn
        exact (hsame r row hvalues n hn).symm

/-- Projected to names under which their rows agree, two operators emit the same
rows. -/
theorem Covers.same_rows {attrs : AttributeSet} {out out' : Op}
    (hcovers : Covers backend names op op') (hback : Covers backend names op' op)
    (hattrs : ∀ n ∈ attrs.items, n ∈ names)
    (hout : op.project attrs = .ok out) (hout' : op'.project attrs = .ok out') (row : Row) :
    Emits backend out row ↔ Emits backend out' row := by
  obtain ⟨hkind, -⟩ := Op.project_eq_ok.mp hout
  obtain ⟨hkind', -⟩ := Op.project_eq_ok.mp hout'
  rw [← Op.eta out, ← Op.eta out', hkind, hkind']
  exact ⟨hcovers.project hattrs, hback.project hattrs⟩

end Pruned

section Extended

variable [Whittle] {extended : Op} {name : AttributeName} {expr : Expression}

theorem Row.valueOf_extended_other {r row : Row} {v : Value} (hfits : op.Fits backend)
    (hr : Emits backend op r) (hextended : op.extend name expr = .ok extended)
    (hrow : row.asSlice = r.asSlice ++ [v]) {n : AttributeName} (hne : n ≠ name) :
    row.valueOf extended.schema n = r.valueOf op.schema n := by
  obtain ⟨ty, -, -, -, -, hcolumns⟩ := Op.extend_eq_ok.mp hextended
  rw [Row.valueOf_grown hcolumns (hfits r hr).width hrow, if_neg hne.symm, Option.or_none]

theorem extended_names_iff (hextended : op.extend name expr = .ok extended) {n : AttributeName}
    (hne : n ≠ name) : n ∈ op.schema.names ↔ n ∈ extended.schema.names := by
  obtain ⟨ty, -, -, -, -, hcolumns⟩ := Op.extend_eq_ok.mp hextended
  rw [Schema.names, Schema.names, hcolumns, List.map_append, List.mem_append]
  simp [hne]

theorem Covers.unextend (hfits : op.Fits backend) (hextended : op.extend name expr = .ok extended)
    (hname : name ∉ names) : Covers backend names extended op where
  names_iff := fun n hn => extended_names_iff hextended fun h => hname (h ▸ hn)
  rows := by
    intro row hrow
    have hvalues : ∀ (r : Row) (v : Value), Emits backend op r → row.asSlice = r.asSlice ++ [v] →
        ∀ n ∈ names, r.valueOf op.schema n = row.valueOf extended.schema n := by
      intro r v hr hgrown n hn
      have hne : n ≠ name := fun h => hname (h ▸ hn)
      exact (Row.valueOf_extended_other hfits hr hextended hgrown hne).symm
    obtain ⟨ty, -, -, -, hkind, -⟩ := Op.extend_eq_ok.mp hextended
    rw [← Op.eta extended, hkind] at hrow
    cases hrow with
    | @extend _ _ _ _ r v _ hr hvalue hgrown => exact ⟨r, hr, hvalues r v hr hgrown⟩

/-- A computed column that is never a fault drops no row. -/
theorem Covers.extend (hfits : op.Fits backend) (hextended : op.extend name expr = .ok extended)
    (hname : name ∉ names)
    (hvalue : ∀ r, Emits backend op r → ∃ v, backend.eval expr op.schema r = .ok v) :
    Covers backend names op extended where
  names_iff := fun n hn => (extended_names_iff hextended fun h => hname (h ▸ hn)).symm
  rows := by
    intro r hr
    obtain ⟨v, hv⟩ := hvalue r hr
    obtain ⟨ty, -, -, -, hkind, hcolumns⟩ := Op.extend_eq_ok.mp hextended
    obtain ⟨row, hrow⟩ : ∃ row : Row, row.asSlice = r.asSlice ++ [v] := by
      apply exists_row_of_length (s := extended.schema)
      rw [← Schema.length_attributes, hcolumns, List.length_append, List.length_append,
        (hfits r hr).width, Schema.length_attributes]
      rfl
    refine ⟨row, ?_, ?_⟩
    · rw [← Op.eta extended, hkind]
      exact .extend hr hv hrow
    · intro n hn
      have hne : n ≠ name := fun h => hname (h ▸ hn)
      exact Row.valueOf_extended_other hfits hr hextended hrow hne

end Extended

end Congruence

section Kernel

variable [Whittle] {backend : Backend}

/-- Pruning inputs to exactly the needed columns keeps the rows of a projection: of
a projection, of a restriction, of a theta join of any kind and of a product.
Dropping an unneeded computed column loses no row, and gains none where its
evaluation never ends in a fault. -/
theorem projection_pruning_rows (htyped : backend.Typed) :
    (∀ r A B p q q', r.Reachable → Op.project r A = .ok p → p.project B = .ok q →
      r.project B = .ok q' → ∀ row, Emits backend q row ↔ Emits backend q' row) ∧
    (∀ r n x extended A p q, r.Reachable → Op.extend r n x = .ok extended →
      extended.project A = .ok p → r.project A = .ok q → n ∉ A.items →
        (∀ row, Emits backend p row → Emits backend q row) ∧
        ((∀ row, Emits backend r row → ∃ v, backend.eval x r.schema row = .ok v) →
          ∀ row, Emits backend q row → Emits backend p row)) ∧
    (∀ r b restricted A out keep pruned built out', r.Reachable →
      Op.restrict r (.expr b) = .ok restricted → restricted.project A = .ok out →
      keep.KeepsNeeded r.schema (A.items.toFinset ∪ b.expr.freeAttrs) →
      r.project keep = .ok pruned → pruned.restrict (.expr b) = .ok built →
      built.project A = .ok out' → ∀ row, Emits backend out row ↔ Emits backend out' row) ∧
    (∀ l r kind b joined A out keepLeft keepRight l' r' built out', l.Reachable → r.Reachable →
      Op.join l r kind (.theta (.expr b)) = .ok joined → joined.project A = .ok out →
      keepLeft.KeepsNeeded l.schema (A.items.toFinset ∪ b.expr.freeAttrs) →
      keepRight.KeepsNeeded r.schema (A.items.toFinset ∪ b.expr.freeAttrs) →
      l.project keepLeft = .ok l' → r.project keepRight = .ok r' →
      l'.join r' kind (.theta (.expr b)) = .ok built → built.project A = .ok out' →
        ∀ row, Emits backend out row ↔ Emits backend out' row) ∧
    (∀ l r joined A out keepLeft keepRight l' r' built out', l.Reachable → r.Reachable →
      Op.product l r = .ok joined → joined.project A = .ok out →
      keepLeft.KeepsNeeded l.schema A.items.toFinset →
      keepRight.KeepsNeeded r.schema A.items.toFinset →
      l.project keepLeft = .ok l' → r.project keepRight = .ok r' → l'.product r' = .ok built →
      built.project A = .ok out' → ∀ row, Emits backend out row ↔ Emits backend out' row) := by
  have hlisted : ∀ (A : AttributeSet) (free : Finset AttributeName), ∀ n ∈ A.items,
      n ∈ A.items.toFinset ∪ free := by
    intro A free n hn
    exact Finset.mem_union_left _ (List.mem_toFinset.mpr hn)
  refine ⟨?_, ?_, ?_, ?_, ?_⟩
  · intro r A B p q q' hr hp hq hq'
    have hfits := hr.fits htyped
    have hselect := (Op.project_eq_ok.mp hp).2
    have hkeeps : A.KeepsNeeded r.schema A.items.toFinset := by
      intro n
      rw [List.mem_toFinset]
      exact (and_iff_right_of_imp (hselect.subset_names n)).symm
    have hinner : ∀ n ∈ B.items, n ∈ A.items.toFinset := by
      intro n hn
      have hname := (Op.project_eq_ok.mp hq).2.subset_names n hn
      rw [Schema.names, hselect.map_name] at hname
      exact List.mem_toFinset.mpr hname
    exact (Covers.unprune hp hkeeps).same_rows (.prune hfits hp hkeeps) hinner hq hq'
  · intro r n x extended A p q hr hextended hp hq hname
    have hfits := hr.fits htyped
    have hnotNeeded : n ∉ A.items.toFinset := by simpa using hname
    have hattrs : ∀ m ∈ A.items, m ∈ A.items.toFinset := by simp
    obtain ⟨hkind, -⟩ := Op.project_eq_ok.mp hp
    obtain ⟨hkind', -⟩ := Op.project_eq_ok.mp hq
    rw [← Op.eta p, ← Op.eta q, hkind, hkind']
    constructor
    · intro row
      exact (Covers.unextend hfits hextended hnotNeeded).project hattrs
    · intro hvalue row
      exact (Covers.extend hfits hextended hnotNeeded hvalue).project hattrs
  · intro r b restricted A out keep pruned built out' hr hrestricted hout hkeeps hpruned hbuilt
      hout'
    have hfits := hr.fits htyped
    obtain ⟨-, rfl⟩ := Op.restrict_eq_ok.mp hrestricted
    obtain ⟨-, rfl⟩ := Op.restrict_eq_ok.mp hbuilt
    have hcovers := (Covers.prune hfits hpruned hkeeps).restrict Finset.subset_union_right
    have hunpruned : Covers backend _ pruned r := .unprune hpruned hkeeps
    have hback := hunpruned.restrict Finset.subset_union_right
    exact hcovers.same_rows hback (hlisted A _) hout hout'
  · intro l r kind b joined A out keepLeft keepRight l' r' built out' hl hr hjoined hout hkeepLeft
      hkeepRight hl' hr' hbuilt hout'
    have hleft := hl.fits htyped
    have hright := hr.fits htyped
    have hleft' := hleft.project hl'
    have hright' := hright.project hr'
    have hcovers := (Covers.prune hleft hl' hkeepLeft).theta (Covers.prune hright hr' hkeepRight)
      Finset.subset_union_right hleft hleft' hright hright' hjoined hbuilt
    have hback := (Covers.unprune hl' hkeepLeft).theta (Covers.unprune hr' hkeepRight)
      Finset.subset_union_right hleft' hleft hright' hright hbuilt hjoined
    exact hcovers.same_rows hback (hlisted A _) hout hout'
  · intro l r joined A out keepLeft keepRight l' r' built out' hl hr hjoined hout hkeepLeft
      hkeepRight hl' hr' hbuilt hout'
    have hleft := hl.fits htyped
    have hright := hr.fits htyped
    have hleft' := hleft.project hl'
    have hright' := hright.project hr'
    have hcovers := (Covers.prune hleft hl' hkeepLeft).product (Covers.prune hright hr' hkeepRight)
      hleft hleft' hright' hjoined hbuilt
    have hback := (Covers.unprune hl' hkeepLeft).product (Covers.unprune hr' hkeepRight)
      hleft' hleft hright hbuilt hjoined
    exact hcovers.same_rows hback (fun n hn => List.mem_toFinset.mpr hn) hout hout'

end Kernel

/-- The names of the users are the names of their names and ids. -/
theorem projection_pruning_rows_users : ∃ pruned out direct,
    Catalogue.users.project Catalogue.nameThenId = .ok pruned ∧
      pruned.project Catalogue.nameOnly = .ok out ∧
      Catalogue.users.project Catalogue.nameOnly = .ok direct ∧
      ∀ row, Emits Catalogue.backend out row ↔ Emits Catalogue.backend direct row := by
  obtain ⟨pruned, hpruned⟩ : ∃ op, Catalogue.users.project Catalogue.nameThenId = .ok op :=
    ⟨_, rfl⟩
  obtain ⟨direct, hdirect⟩ : ∃ op, Catalogue.users.project Catalogue.nameOnly = .ok op :=
    ⟨_, rfl⟩
  obtain ⟨out, hout⟩ : ∃ out, pruned.project Catalogue.nameOnly = .ok out := by
    have hnames : pruned.schema.names = Catalogue.nameThenId.items :=
      (Op.project_eq_ok.mp hpruned).2.map_name
    rw [Op.exists_project_iff, hnames]
    decide
  exact ⟨pruned, out, direct, hpruned, hout, hdirect,
    (projection_pruning_rows Catalogue.backend_typed).1 _ _ _ _ _ _ Catalogue.reachable_users
      hpruned hout hdirect⟩

end AxiomCore
