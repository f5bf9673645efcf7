import AxiomCore.Lineage
import AxiomCore.Pushdown
import AxiomCore.Relabelling

/-!
The rows of a restriction that is moved below an operator. An operator that makes
each of its rows of one row of an input keeps the values of the columns that it
passes on, and a predicate reads nothing else. So restricting the input emits
the rows that restricting the output does. A summary makes its rows of groups
and needs a key for that: without keys there is a row for the empty group.
-/

namespace AxiomCore

open Checked Refined

section Values

variable {backend : Backend}

/-- A predicate has the value on a row that it has on the row it is made of, when
the values under its names are the same. -/
theorem Backend.eval_of_cells {e : Expression} {s t : Schema} {r row : Row}
    (hcells : List.Forall₂ (fun v a => a.name ∈ e.freeAttrs → r.valueOf s a.name = some v)
      row.asSlice t.attributes)
    (hnames : ∀ n ∈ e.freeAttrs, n ∈ t.names) : backend.eval e t row = backend.eval e s r := by
  apply Backend.eval_congr
  intro n hn
  obtain ⟨ty, hty⟩ := Schema.mem_names_iff.mp (hnames n hn)
  obtain ⟨v, hv, hkept⟩ := Keyed.valueAt_of_mem t.nodup_names hcells hty
  exact Eq.trans hv (hkept hn).symm

/-- An expression whose names are mapped has the value that it has where the
names it had stand for the same values. -/
theorem Backend.eval_mapNames {e : Expression} {f : AttributeName → AttributeName} {s t : Schema}
    {r row : Row} (hvalues : ∀ n ∈ e.freeAttrs, row.valueOf t n = r.valueOf s (f n)) :
    backend.eval (e.mapNames f) s r = backend.eval e t row := by
  induction e with
  | attr name =>
      have hname := hvalues name (by simp [Expression.mem_freeAttrs_iff, Expression.postOrder])
      simp only [Expression.mapNames, eval, hname]
  | lit value | agg a => rfl
  | binOp op lhs rhs ihl ihr =>
      have hl := ihl fun n hn =>
        hvalues n (Expression.freeAttrs_node (by simp [Expression.postOrder]) hn)
      have hr := ihr fun n hn =>
        hvalues n (Expression.freeAttrs_node (by simp [Expression.postOrder]) hn)
      simp only [Expression.mapNames, eval, hl, hr]
  | unOp op operand ih | like operand pattern ih | inList operand values ih | isNull operand ih
  | cast operand target ih =>
      have ho := ih fun n hn =>
        hvalues n (Expression.freeAttrs_node (by simp [Expression.postOrder]) hn)
      simp only [Expression.mapNames, eval, ho]

end Values

section Pushdown

variable [Whittle] {backend : Backend}

/-- Built over the input restricted by `below`, the operator emits the rows of
`out` restricted by `above`. -/
def PushesRows (backend : Backend) (build : Op → Except OpError Op) (input out : Op)
    (above below : Expression) : Prop :=
  ∀ (b b' : BoolExpression) (restricted inner pushed : Op), b.expr = above → b'.expr = below →
    out.restrict (.expr b) = .ok restricted → input.restrict (.expr b') = .ok inner →
    build inner = .ok pushed → ∀ row, Emits backend pushed row ↔ Emits backend restricted row

/-- Over every input with the header, the operator makes each row of one row. -/
def RowWise (backend : Backend) (build : Op → Except OpError Op) (header : Schema)
    (made : Row → Row → Prop) : Prop :=
  ∀ part built : Op, part.schema = header → part.Fits backend → build part = .ok built →
    ∀ row, Emits backend built row ↔ ∃ r, Emits backend part r ∧ made r row

omit [Whittle] in
theorem RowWise.pushesRows {build : Op → Except OpError Op} {input out : Op}
    {made : Row → Row → Prop} {above below : Expression}
    (hrows : RowWise backend build input.schema made) (hfits : input.Fits backend)
    (hout : build input = .ok out)
    (hagree : (∀ n ∈ above.freeAttrs, n ∈ out.schema.names) → ∀ r row, Emits backend input r →
      made r row → backend.eval above out.schema row = backend.eval below input.schema r) :
    PushesRows backend build input out above below := by
  intro b b' restricted inner pushed hb hb' hrestricted hinner hpushed row
  have hagree' := hagree (Op.Admits.freeAttrs_subset ⟨b, hb, restricted, hrestricted⟩)
  obtain ⟨-, rfl⟩ := Op.restrict_eq_ok.mp hrestricted
  obtain ⟨-, rfl⟩ := Op.restrict_eq_ok.mp hinner
  have hinnerFits : (⟨.restrict input (.expr b'), input.schema⟩ : Op).Fits backend := by
    intro r hr
    exact hfits r (emits_restrict_iff.mp hr).1
  have hpushedRows := hrows ⟨.restrict input (.expr b'), input.schema⟩ pushed rfl hinnerFits
    hpushed row
  rw [hpushedRows, emits_restrict_iff, hrows _ _ rfl hfits hout, hb]
  constructor
  · intro h
    obtain ⟨r, hr, hmade⟩ := h
    obtain ⟨hr, htrue⟩ := emits_restrict_iff.mp hr
    rw [hb'] at htrue
    exact ⟨⟨r, hr, hmade⟩, (hagree' r row hr hmade).trans htrue⟩
  · intro h
    obtain ⟨⟨r, hr, hmade⟩, htrue⟩ := h
    refine ⟨r, emits_restrict_iff.mpr ⟨hr, ?_⟩, hmade⟩
    rw [hb', ← hagree' r row hr hmade]
    exact htrue

theorem rowWise_project (attrs : AttributeSet) (header : Schema) :
    RowWise backend (·.project attrs) header fun r row =>
      r.ValuesOf header attrs.items row.asSlice := by
  intro part built hheader _ hbuilt row
  subst hheader
  obtain ⟨kind, s⟩ := built
  obtain ⟨rfl, -⟩ := Op.project_eq_ok.mp hbuilt
  constructor
  · intro h
    cases h with
    | project hr hvalues => exact ⟨_, hr, hvalues⟩
  · intro h
    obtain ⟨r, hr, hvalues⟩ := h
    exact .project hr hvalues

theorem pushesRows_project {input out : Op} {attrs : AttributeSet} {e : Expression}
    (hfits : input.Fits backend) (hout : input.project attrs = .ok out) :
    PushesRows backend (·.project attrs) input out e e := by
  obtain ⟨-, hselect⟩ := Op.project_eq_ok.mp hout
  apply (rowWise_project attrs input.schema).pushesRows hfits hout
  intro hnames r row _ hvalues
  apply Backend.eval_of_cells _ hnames
  refine Keyed.forall₂_common (fun name v a hvalue hfind => ?_) hvalues hselect
  obtain ⟨-, rfl⟩ := Keyed.find_mem hfind
  exact fun _ => hvalue

theorem rowWise_extend (name : AttributeName) (expr : Expression) (header : Schema) :
    RowWise backend (·.extend name expr) header fun r row =>
      ∃ v, backend.eval expr header r = .ok v ∧ row.asSlice = r.asSlice ++ [v] := by
  intro part built hheader _ hbuilt row
  subst hheader
  obtain ⟨kind, s⟩ := built
  obtain ⟨-, -, -, -, rfl, -⟩ := Op.extend_eq_ok.mp hbuilt
  constructor
  · intro h
    cases h with
    | extend hr hvalue hrow => exact ⟨_, hr, _, hvalue, hrow⟩
  · intro h
    obtain ⟨r, hr, v, hvalue, hrow⟩ := h
    exact .extend hr hvalue hrow

theorem pushesRows_extend {input out : Op} {name : AttributeName} {expr e : Expression}
    (hfits : input.Fits backend) (hout : input.extend name expr = .ok out)
    (hfree : name ∉ e.freeAttrs) : PushesRows backend (·.extend name expr) input out e e := by
  obtain ⟨ty, -, -, -, -, hcolumns⟩ := Op.extend_eq_ok.mp hout
  apply (rowWise_extend name expr input.schema).pushesRows hfits hout
  intro hnames r row hr hmade
  obtain ⟨v, -, hrow⟩ := hmade
  apply Backend.eval_of_cells _ hnames
  rw [hrow, hcolumns]
  refine List.rel_append ((hfits r hr).cells.imp ?_) (.cons ?_ .nil)
  · intro w a hcell _
    exact hcell.2
  · intro hn
    exact absurd hn hfree

theorem rowWise_rename (fromName toName : AttributeName) (header : Schema) :
    RowWise backend (·.rename fromName toName) header fun r row => row = r := by
  intro part built hheader _ hbuilt row
  obtain ⟨kind, s⟩ := built
  obtain ⟨-, -, rfl, -⟩ := Op.rename_eq_ok.mp hbuilt
  constructor
  · intro h
    cases h with
    | rename hr => exact ⟨row, hr, rfl⟩
  · intro h
    obtain ⟨r, hr, rfl⟩ := h
    exact .rename hr

/-- Below a rename the predicate has the old name. -/
theorem pushesRows_rename {input out : Op} {fromName toName : AttributeName} {e : Expression}
    (hfits : input.Fits backend) (hout : input.rename fromName toName = .ok out) :
    PushesRows backend (·.rename fromName toName) input out e (e.substitute toName fromName) := by
  obtain ⟨-, hto, -, hcolumns⟩ := Op.rename_eq_ok.mp hout
  apply (rowWise_rename fromName toName input.schema).pushesRows hfits hout
  intro hnames r row hr hmade
  subst hmade
  have hcells : List.Forall₂
      (fun v a => row.valueOf input.schema (if a.name = toName then fromName else a.name) = some v)
      row.asSlice out.schema.attributes := by
    rw [hcolumns, List.forall₂_map_right_iff]
    apply (hfits row hr).cells.imp
    intro v a hcell
    obtain ⟨hmem, hvalue⟩ := hcell
    by_cases hfrom : a.name = fromName
    · simpa [hfrom] using hvalue
    · have hne : a.name ≠ toName := by
        intro hname
        rcases hto with hto | hto
        · exact hfrom (hname.trans hto.symm)
        · exact hto (hname ▸ Schema.mem_names_of_mem hmem)
      simpa [hfrom, hne] using hvalue
  symm
  apply Backend.eval_mapNames
  intro n hn
  obtain ⟨ty, hty⟩ := Schema.mem_names_iff.mp (hnames n hn)
  obtain ⟨v, hv, hkept⟩ := Keyed.valueAt_of_mem out.schema.nodup_names hcells hty
  exact Eq.trans hv hkept.symm

theorem rowWise_product_left (right : Op) (header : Schema) :
    RowWise backend (·.product right) header fun l row =>
      ∃ r, Emits backend right r ∧ row.asSlice = l.asSlice ++ r.asSlice := by
  intro part built hheader _ hbuilt row
  obtain ⟨kind, s⟩ := built
  obtain ⟨rfl, -⟩ := Op.product_eq_ok.mp hbuilt
  rw [emits_product_iff]
  constructor
  · intro h
    obtain ⟨l, r, hl, hr, hrow⟩ := h
    exact ⟨l, hl, r, hr, hrow⟩
  · intro h
    obtain ⟨l, hl, r, hr, hrow⟩ := h
    exact ⟨l, r, hl, hr, hrow⟩

theorem rowWise_product_right (left : Op) (header : Schema) :
    RowWise backend (left.product ·) header fun r row =>
      ∃ l, Emits backend left l ∧ row.asSlice = l.asSlice ++ r.asSlice := by
  intro part built hheader _ hbuilt row
  obtain ⟨kind, s⟩ := built
  obtain ⟨rfl, -⟩ := Op.product_eq_ok.mp hbuilt
  rw [emits_product_iff]
  constructor
  · intro h
    obtain ⟨l, r, hl, hr, hrow⟩ := h
    exact ⟨r, hr, l, hl, hrow⟩
  · intro h
    obtain ⟨r, hr, l, hl, hrow⟩ := h
    exact ⟨l, r, hl, hr, hrow⟩

omit [Whittle] in
/-- A row that starts with a row of left has its values under the names of left. -/
theorem Backend.eval_of_left {e : Expression} {left out : Schema} {l row : Row}
    {columns : List Attribute} {values : List Value} (hfits : l.Fits left)
    (hrow : row.asSlice = l.asSlice ++ values)
    (hcolumns : out.attributes = left.attributes ++ columns)
    (hlength : values.length = columns.length) (hfree : ∀ n ∈ e.freeAttrs, n ∈ left.names)
    (hnames : ∀ n ∈ e.freeAttrs, n ∈ out.names) :
    backend.eval e out row = backend.eval e left l := by
  have hnodup := out.nodup_names
  rw [Schema.names, hcolumns, List.map_append] at hnodup
  apply Backend.eval_of_cells _ hnames
  rw [hrow, hcolumns]
  refine List.rel_append (hfits.cells.imp ?_) (Keyed.forall₂_of_forall_mem hlength ?_)
  · intro v a hcell _
    exact hcell.2
  · intro v a ha hn
    have hleft := hfree _ hn
    exact absurd (List.mem_map_of_mem ha) (List.disjoint_of_nodup_append hnodup hleft)

omit [Whittle] in
/-- A row that ends with values of a row of right has them under their names. -/
theorem Backend.eval_of_right {e : Expression} {left right out : Schema} {l r row : Row}
    {columns : List Attribute} {values : List Value}
    (hlength : l.asSlice.length = left.attributes.length)
    (hrow : row.asSlice = l.asSlice ++ values)
    (hcolumns : out.attributes = left.attributes ++ columns)
    (hvalues : List.Forall₂ (fun v a => r.valueOf right a.name = some v) values columns)
    (hfree : ∀ n ∈ e.freeAttrs, n ∉ left.names) (hnames : ∀ n ∈ e.freeAttrs, n ∈ out.names) :
    backend.eval e out row = backend.eval e right r := by
  apply Backend.eval_of_cells _ hnames
  rw [hrow, hcolumns]
  refine List.rel_append (Keyed.forall₂_of_forall_mem hlength ?_) (hvalues.imp ?_)
  · intro v a ha hn
    exact absurd (Schema.mem_names_of_mem ha) (hfree _ hn)
  · intro v a hvalue _
    exact hvalue

theorem pushesRows_product_left {left right out : Op} {e : Expression} (hleft : left.Fits backend)
    (hright : right.Fits backend) (hout : left.product right = .ok out)
    (hfree : ∀ n ∈ e.freeAttrs, n ∈ left.schema.names) :
    PushesRows backend (·.product right) left out e e := by
  obtain ⟨-, hcolumns⟩ := Op.product_eq_ok.mp hout
  apply (rowWise_product_left right left.schema).pushesRows hleft hout
  intro hnames l row hl hmade
  obtain ⟨r, hr, hrow⟩ := hmade
  have hlength := (hright r hr).length_eq
  exact Backend.eval_of_left (hleft l hl) hrow hcolumns hlength hfree hnames

theorem pushesRows_product_right {left right out : Op} {e : Expression} (hleft : left.Fits backend)
    (hright : right.Fits backend) (hout : left.product right = .ok out)
    (hfree : ∀ n ∈ e.freeAttrs, n ∈ right.schema.names) :
    PushesRows backend (left.product ·) right out e e := by
  obtain ⟨-, hcolumns⟩ := Op.product_eq_ok.mp hout
  have hdisjoint := Op.disjoint_of_concat hcolumns
  apply (rowWise_product_right left right.schema).pushesRows hright hout
  intro hnames r row hr hmade
  obtain ⟨l, hl, hrow⟩ := hmade
  have hlength := (hleft l hl).length_eq
  have hvalues := (hright r hr).cells.imp fun _ _ hcell => hcell.2
  apply Backend.eval_of_right hlength hrow hcolumns hvalues _ hnames
  intro n hn hname
  exact hdisjoint n hname (hfree n hn)

/-- A join is built as such, unless it is an inner natural join without shared
columns. -/
theorem Op.join_kind {left right op : Op} {kind : JoinKind} {joinOn : JoinOn}
    (hjoin : left.join right kind joinOn = .ok op) :
    op.kind = .join left right kind joinOn ∨
      (op.kind = .product left right ∧ kind = .inner ∧ joinOn = .natural ∧
        op.schema.attributes = left.schema.attributes ++ right.schema.attributes) := by
  cases joinOn with
  | natural =>
      obtain ⟨-, hcolumns, hkind⟩ := Op.join_natural_eq_ok.mp hjoin
      split at hkind
      · rename_i hproduct
        rw [Op.filter_disjoint hproduct.2] at hcolumns
        exact Or.inr ⟨hkind, hproduct.1, rfl, hcolumns⟩
      · exact Or.inl hkind
  | equi pairs => exact Or.inl (Op.join_equi_eq_ok.mp hjoin).2.1
  | theta predicate => exact Or.inl (Op.join_theta_eq_ok.mp hjoin).2.1

/-- The rows of a join, also when it is built as a product. -/
theorem emits_join_iff {left right op : Op} {kind : JoinKind} {joinOn : JoinOn} {row : Row}
    (hright : right.Fits backend) (hjoin : left.join right kind joinOn = .ok op) :
    Emits backend op row ↔
      (∃ l r, Emits backend left l ∧ Emits backend right r ∧
        row.asSlice = l.asSlice ++ r.without right.schema left.schema.names ∧
        backend.Pairs left.schema right.schema op.schema l r row joinOn) ∨
      (kind.keepsLeft = true ∧ ∃ l, Emits backend left l ∧
        row.asSlice = leftPadded left.schema right.schema l) ∨
      (kind.keepsRight = true ∧ ∃ r, Emits backend right r ∧
        row.asSlice = rightPadded right.schema op.schema r) := by
  have hkind := Op.join_kind hjoin
  obtain ⟨shape, s⟩ := op
  rcases hkind with hkind | ⟨hkind, rfl, rfl, hcolumns⟩
  · simp only at hkind
    subst hkind
    constructor
    · intro h
      cases h with
      | paired hl hr hrow hpairs => exact Or.inl ⟨_, _, hl, hr, hrow, hpairs⟩
      | leftUnmatched hkeeps hl hrow => exact Or.inr (Or.inl ⟨hkeeps, _, hl, hrow⟩)
      | rightUnmatched hkeeps hr hrow => exact Or.inr (Or.inr ⟨hkeeps, _, hr, hrow⟩)
    · intro h
      rcases h with ⟨l, r, hl, hr, hrow, hpairs⟩ | ⟨hkeeps, l, hl, hrow⟩ | ⟨hkeeps, r, hr, hrow⟩
      · exact .paired hl hr hrow hpairs
      · exact .leftUnmatched hkeeps hl hrow
      · exact .rightUnmatched hkeeps hr hrow
  · simp only at hkind
    subst hkind
    have hwhole : ∀ r, Emits backend right r →
        r.without right.schema left.schema.names = r.asSlice := by
      intro r hr
      have hlength := (hright r hr).length_eq
      exact Row.without_of_concat hcolumns (by simpa using hlength)
    have hdisjoint := Op.disjoint_of_concat hcolumns
    rw [emits_product_iff]
    constructor
    · intro h
      obtain ⟨l, r, hl, hr, hrow⟩ := h
      rw [← hwhole r hr] at hrow
      refine Or.inl ⟨l, r, hl, hr, hrow, ?_⟩
      intro name hleft hshared
      exact absurd hshared (hdisjoint name hleft)
    · intro h
      rcases h with ⟨l, r, hl, hr, hrow, -⟩ | ⟨hkeeps, -⟩ | ⟨hkeeps, -⟩
      · rw [hwhole r hr] at hrow
        exact ⟨l, r, hl, hr, hrow⟩
      · exact absurd hkeeps (by simp [JoinKind.keepsLeft])
      · exact absurd hkeeps (by simp [JoinKind.keepsRight])

theorem rowWise_join_left {right : Op} {kind : JoinKind} {joinOn : JoinOn} {header out : Schema}
    (hright : right.Fits backend) (hinner : kind.keepsRight = false)
    (hcolumns : out.attributes = header.attributes ++
      right.schema.attributes.filter fun r => r.name ∉ header.names) :
    RowWise backend (·.join right kind joinOn) header fun l row =>
      (∃ r, Emits backend right r ∧
        row.asSlice = l.asSlice ++ r.without right.schema header.names ∧
        backend.Pairs header right.schema out l r row joinOn) ∨
      (kind.keepsLeft = true ∧ row.asSlice = leftPadded header right.schema l) := by
  intro part built hheader _ hbuilt row
  subst hheader
  obtain rfl : out = built.schema :=
    Schema.attributes_injective (hcolumns.trans (Op.join_columns hbuilt).2.symm)
  rw [emits_join_iff hright hbuilt, hinner]
  constructor
  · intro h
    rcases h with ⟨l, r, hl, hr, hrow⟩ | ⟨hkeeps, l, hl, hrow⟩ | ⟨hkeeps, -⟩
    · exact ⟨l, hl, Or.inl ⟨r, hr, hrow⟩⟩
    · exact ⟨l, hl, Or.inr ⟨hkeeps, hrow⟩⟩
    · exact absurd hkeeps (by simp)
  · intro h
    obtain ⟨l, hl, ⟨r, hr, hrow⟩ | ⟨hkeeps, hrow⟩⟩ := h
    · exact Or.inl ⟨l, r, hl, hr, hrow⟩
    · exact Or.inr (Or.inl ⟨hkeeps, l, hl, hrow⟩)

theorem rowWise_join_right {left : Op} {kind : JoinKind} {joinOn : JoinOn} {header out : Schema}
    (hinner : kind.keepsLeft = false)
    (hcolumns : out.attributes = left.schema.attributes ++
      header.attributes.filter fun r => r.name ∉ left.schema.names) :
    RowWise backend (left.join · kind joinOn) header fun r row =>
      (∃ l, Emits backend left l ∧
        row.asSlice = l.asSlice ++ r.without header left.schema.names ∧
        backend.Pairs left.schema header out l r row joinOn) ∨
      (kind.keepsRight = true ∧ row.asSlice = rightPadded header out r) := by
  intro part built hheader hpart hbuilt row
  subst hheader
  obtain rfl : out = built.schema :=
    Schema.attributes_injective (hcolumns.trans (Op.join_columns hbuilt).2.symm)
  rw [emits_join_iff hpart hbuilt, hinner]
  constructor
  · intro h
    rcases h with ⟨l, r, hl, hr, hrow⟩ | ⟨hkeeps, -⟩ | ⟨hkeeps, r, hr, hrow⟩
    · exact ⟨r, hr, Or.inl ⟨l, hl, hrow⟩⟩
    · exact absurd hkeeps (by simp)
    · exact ⟨r, hr, Or.inr ⟨hkeeps, hrow⟩⟩
  · intro h
    obtain ⟨r, hr, ⟨l, hl, hrow⟩ | ⟨hkeeps, hrow⟩⟩ := h
    · exact Or.inl ⟨l, r, hl, hr, hrow⟩
    · exact Or.inr (Or.inr ⟨hkeeps, r, hr, hrow⟩)

theorem pushesRows_join_left {left right out : Op} {kind : JoinKind} {joinOn : JoinOn}
    {e : Expression} (hleft : left.Fits backend) (hright : right.Fits backend)
    (hinner : kind.keepsRight = false) (hout : left.join right kind joinOn = .ok out)
    (hfree : ∀ n ∈ e.freeAttrs, n ∈ left.schema.names) :
    PushesRows backend (·.join right kind joinOn) left out e e := by
  have hcolumns := (Op.join_columns hout).2
  apply (rowWise_join_left hright hinner hcolumns).pushesRows hleft hout
  intro hnames l row hl hmade
  rcases hmade with ⟨r, hr, hrow, -⟩ | ⟨-, hrow⟩
  · have hcells := (hright r hr).cells
    have hlength := (Keyed.forall₂_pick hcells fun a => a.name ∉ left.schema.names).length_eq
    exact Backend.eval_of_left (hleft l hl) hrow hcolumns hlength hfree hnames
  · exact Backend.eval_of_left (hleft l hl) hrow hcolumns (by simp) hfree hnames

/-- A restriction on columns that only right has moves to right, when no row of
left is kept for its own sake. -/
theorem pushesRows_join_right {left right out : Op} {kind : JoinKind} {joinOn : JoinOn}
    {e : Expression} (hleft : left.Fits backend) (hright : right.Fits backend)
    (hinner : kind.keepsLeft = false) (hout : left.join right kind joinOn = .ok out)
    (hfree : ∀ n ∈ e.freeAttrs, n ∈ right.schema.names ∧ n ∉ left.schema.names) :
    PushesRows backend (left.join · kind joinOn) right out e e := by
  have hcolumns := (Op.join_columns hout).2
  apply (rowWise_join_right hinner hcolumns).pushesRows hright hout
  intro hnames r row hr hmade
  rcases hmade with ⟨l, hl, hrow, -⟩ | ⟨-, hrow⟩
  · have hlength := (hleft l hl).length_eq
    have hcells := (hright r hr).cells.imp fun _ _ hcell => hcell.2
    have hvalues := Keyed.forall₂_pick hcells fun a => a.name ∉ left.schema.names
    exact Backend.eval_of_right hlength hrow hcolumns hvalues (fun n hn => (hfree n hn).2) hnames
  · apply Backend.eval_of_cells _ hnames
    rw [hrow, rightPadded, List.forall₂_map_left_iff, List.forall₂_same]
    intro a _ hn
    obtain ⟨v, hv⟩ := (hright r hr).exists_valueOf (hfree _ hn).1
    rw [hv, Option.getD_some]

theorem rowWise_unnest (path : AnyPath) (header : Schema) :
    RowWise backend (·.unnest path) header fun r row =>
      ∃ target rows inner, path.target = some target ∧
        r.valueOf header target = some (.relation rows) ∧ inner ∈ rows.toList ∧
        row.asSlice = (header.attributes.zip r.asSlice).flatMap fun p =>
          if p.1.name = target then inner.asSlice else [p.2] := by
  intro part built hheader _ hbuilt row
  subst hheader
  obtain ⟨kind, s⟩ := built
  obtain ⟨_, _, _, _, rfl, -⟩ := Op.unnest_eq_ok.mp hbuilt
  constructor
  · intro h
    cases h with
    | unnest hpath hr hvalue hinner hrow => exact ⟨_, hr, _, _, _, hpath, hvalue, hinner, hrow⟩
  · intro h
    obtain ⟨r, hr, target, rows, inner, hpath, hvalue, hinner, hrow⟩ := h
    exact .unnest hpath hr hvalue hinner hrow

theorem pushesRows_unnest {input out : Op} {path : AnyPath} {target : AttributeName}
    {e : Expression} (hfits : input.Fits backend) (hout : input.unnest path = .ok out)
    (hpath : path.target = some target)
    (hfree : ∀ n ∈ e.freeAttrs, n ∈ input.schema.names ∧ n ≠ target) :
    PushesRows backend (·.unnest path) input out e e := by
  obtain ⟨target', nested, hpath', hmem, -, hcolumns⟩ := Op.unnest_eq_ok.mp hout
  obtain rfl := Option.some.inj (hpath.symm.trans hpath')
  apply (rowWise_unnest path input.schema).pushesRows hfits hout
  intro hnames r row hr hmade
  obtain ⟨target', rows, inner, hpath', hvalue, hinner, hrow⟩ := hmade
  obtain rfl := Option.some.inj (hpath.symm.trans hpath')
  have hlength := ((hfits r hr).nested hmem hvalue inner hinner).length_eq
  apply Backend.eval_of_cells _ hnames
  rw [hrow, hcolumns]
  apply Keyed.forall₂_flatMap_zip (hfits r hr).cells
  intro v a _ hcell
  by_cases htarget : a.name = target
  · simp only [if_pos htarget]
    -- No predicate column has the name of a nested one.
    apply Keyed.forall₂_of_forall_mem hlength
    intro w b hb hn
    obtain ⟨hname, hne⟩ := hfree _ hn
    obtain ⟨ty, hty⟩ := Schema.mem_names_iff.mp hname
    exact (Op.unnested_ne hmem hcolumns hb hty hne rfl).elim
  · simp only [if_neg htarget]
    exact .cons (fun _ => hcell.2) .nil

theorem rowWise_modify (path : AnyPath) (sub : Op) (header : Schema) :
    RowWise backend (·.modify path sub) header fun r row =>
      ∃ (target : AttributeName) (rows : Rows), path.target = some target ∧
        (∀ inner ∈ rows.toList, Emits backend sub inner) ∧
        row.asSlice = (header.attributes.zip r.asSlice).map fun p =>
          if p.1.name = target then .relation rows else p.2 := by
  intro part built hheader _ hbuilt row
  subst hheader
  obtain ⟨kind, s⟩ := built
  obtain ⟨_, _, _, _, rfl, -⟩ := Op.modify_eq_ok.mp hbuilt
  constructor
  · intro h
    cases h with
    | modify hpath hr hinner hrow => exact ⟨_, hr, _, _, hpath, hinner, hrow⟩
  · intro h
    obtain ⟨r, hr, target, rows, hpath, hinner, hrow⟩ := h
    exact .modify hpath hr hinner hrow

theorem pushesRows_modify {input out sub : Op} {path : AnyPath} {target : AttributeName}
    {e : Expression} (hfits : input.Fits backend) (hout : input.modify path sub = .ok out)
    (hpath : path.target = some target) (hfree : target ∉ e.freeAttrs) :
    PushesRows backend (·.modify path sub) input out e e := by
  obtain ⟨target', nested, hpath', -, -, hcolumns⟩ := Op.modify_eq_ok.mp hout
  obtain rfl := Option.some.inj (hpath.symm.trans hpath')
  apply (rowWise_modify path sub input.schema).pushesRows hfits hout
  intro hnames r row hr hmade
  obtain ⟨target', rows, hpath', -, hrow⟩ := hmade
  obtain rfl := Option.some.inj (hpath.symm.trans hpath')
  apply Backend.eval_of_cells _ hnames
  rw [hrow, hcolumns]
  apply Keyed.forall₂_map_zip (hfits r hr).cells
  intro v a _ hcell
  by_cases htarget : a.name = target
  · simp only [if_pos htarget]
    intro hn
    exact absurd (htarget ▸ hn) hfree
  · simp only [if_neg htarget]
    exact fun _ => hcell.2

omit [Whittle] in
theorem rowWise_intersect (right : Op) (header : Schema) :
    RowWise backend (·.intersect right) header fun l row =>
      row = l ∧ Emits backend right row := by
  intro part built hheader _ hbuilt row
  obtain ⟨-, rfl⟩ := Op.setOperator_eq_ok.mp hbuilt
  constructor
  · intro h
    cases h with
    | intersect hl hr => exact ⟨row, hl, rfl, hr⟩
  · intro h
    obtain ⟨l, hl, rfl, hr⟩ := h
    exact .intersect hl hr

omit [Whittle] in
theorem pushesRows_intersect {left right out : Op} {e : Expression} (hleft : left.Fits backend)
    (hout : left.intersect right = .ok out) :
    PushesRows backend (·.intersect right) left out e e := by
  obtain ⟨-, rfl⟩ := Op.setOperator_eq_ok.mp hout
  apply (rowWise_intersect right left.schema).pushesRows hleft hout
  intro _ l row _ hmade
  obtain ⟨rfl, -⟩ := hmade
  rfl

omit [Whittle] in
/-- A restriction of a union restricts both sides. -/
theorem emits_union_restricted {left right out restricted inner inner' pushed : Op}
    {b : BoolExpression} (hout : left.union right = .ok out)
    (hrestricted : out.restrict (.expr b) = .ok restricted)
    (hinner : left.restrict (.expr b) = .ok inner) (hinner' : right.restrict (.expr b) = .ok inner')
    (hpushed : inner.union inner' = .ok pushed) (row : Row) :
    Emits backend pushed row ↔ Emits backend restricted row := by
  obtain ⟨hsame, rfl⟩ := Op.setOperator_eq_ok.mp hout
  obtain ⟨-, rfl⟩ := Op.restrict_eq_ok.mp hrestricted
  obtain ⟨-, rfl⟩ := Op.restrict_eq_ok.mp hinner
  obtain ⟨-, rfl⟩ := Op.restrict_eq_ok.mp hinner'
  obtain ⟨-, rfl⟩ := Op.setOperator_eq_ok.mp hpushed
  constructor
  · intro h
    cases h with
    | unionLeft hrow =>
        obtain ⟨hrow, htrue⟩ := emits_restrict_iff.mp hrow
        exact emits_restrict_iff.mpr ⟨.unionLeft hrow, htrue⟩
    | unionRight hrow =>
        obtain ⟨hrow, htrue⟩ := emits_restrict_iff.mp hrow
        exact emits_restrict_iff.mpr ⟨.unionRight hrow, hsame ▸ htrue⟩
  · intro h
    obtain ⟨hrow, htrue⟩ := emits_restrict_iff.mp h
    cases hrow with
    | unionLeft hrow => exact .unionLeft (emits_restrict_iff.mpr ⟨hrow, htrue⟩)
    | unionRight hrow => exact .unionRight (emits_restrict_iff.mpr ⟨hrow, hsame ▸ htrue⟩)

/-- A row of a summary has the values of each row of its group under the keys. -/
theorem eval_of_group {input out : Op} {keys : GroupingSet} {aggs : NamedAggSet} {e : Expression}
    {r row : Row} {grouped computed : List Value} (hout : input.summarize keys aggs = .ok out)
    (hgrouped : r.ValuesOf input.schema keys.items grouped)
    (hlength : aggs.items.length = computed.length) (hrow : row.asSlice = grouped ++ computed)
    (hfree : ∀ n ∈ e.freeAttrs, n ∈ keys.items)
    (hnames : ∀ n ∈ e.freeAttrs, n ∈ out.schema.names) :
    backend.eval e out.schema row = backend.eval e input.schema r := by
  obtain ⟨columns, outputs, hselect, houtputs, -, hcolumns⟩ := Op.summarize_eq_ok.mp hout
  apply Backend.eval_of_cells _ hnames
  rw [hrow, hcolumns]
  refine List.rel_append ?_ (Keyed.forall₂_of_forall_mem ?_ ?_)
  · refine Keyed.forall₂_common (fun name v a hvalue hfind => ?_) hgrouped hselect
    obtain ⟨-, rfl⟩ := Keyed.find_mem hfind
    exact fun _ => hvalue
  · rw [← hlength]
    exact houtputs.length_eq
  · intro v a ha hn
    obtain ⟨agg, -, hcolumn⟩ := exists_output houtputs.flip ha
    obtain ⟨hkeys, hname, -⟩ := Op.aggregateColumn_eq_ok.mp hcolumn
    exact absurd (hname ▸ hfree _ hn) hkeys

/-- Below a summary with a key, each group is dropped or kept as a whole. -/
theorem pushesRows_summarize {input out : Op} {keys : GroupingSet} {aggs : NamedAggSet}
    {e : Expression} (hout : input.summarize keys aggs = .ok out) (hkeys : keys.items ≠ [])
    (hfree : ∀ n ∈ e.freeAttrs, n ∈ keys.items) :
    PushesRows backend (·.summarize keys aggs) input out e e := by
  intro b b' restricted inner pushed hb hb' hrestricted hinner hpushed row
  have hnames := Op.Admits.freeAttrs_subset ⟨b, hb, restricted, hrestricted⟩
  obtain ⟨-, rfl⟩ := Op.restrict_eq_ok.mp hrestricted
  obtain ⟨-, rfl⟩ := Op.restrict_eq_ok.mp hinner
  have hvalue := @eval_of_group _ backend input out keys aggs e
  obtain ⟨_, _, -, -, hkind, -⟩ := Op.summarize_eq_ok.mp hout
  obtain ⟨_, _, -, -, hkind', -⟩ := Op.summarize_eq_ok.mp hpushed
  rw [emits_restrict_iff, hb]
  obtain ⟨kind, s⟩ := out
  obtain ⟨kind', s'⟩ := pushed
  simp only at hkind hkind'
  subst hkind hkind'
  constructor
  · intro h
    cases h with
    | @summarize _ _ _ _ grouped computed group _ hgroup hgrouped hempty haggs hrow =>
        have hinside : ∀ r ∈ group, Emits backend input r ∧
            backend.eval e input.schema r = .ok (.bool true) := by
          intro r hr
          rw [← hb']
          exact emits_restrict_iff.mp (hgroup r hr)
        cases group with
        | nil => exact absurd (hempty rfl).1 hkeys
        | cons first rest =>
            refine ⟨.summarize (fun r hr => (hinside r hr).1) hgrouped (by simp) haggs hrow, ?_⟩
            rw [hvalue hout (hgrouped first (by simp)) haggs.length_eq hrow hfree hnames]
            exact (hinside first (by simp)).2
  · intro h
    obtain ⟨h, htrue⟩ := h
    cases h with
    | @summarize _ _ _ _ grouped computed group _ hgroup hgrouped hempty haggs hrow =>
        refine .summarize ?_ hgrouped hempty haggs hrow
        intro r hr
        refine emits_restrict_iff.mpr ⟨hgroup r hr, ?_⟩
        rw [hb', ← hvalue hout (hgrouped r hr) haggs.length_eq hrow hfree hnames]
        exact htrue

/-- The rows of a restriction do not depend on whether it stands above or below a
projection, a computed column, a rename, a product or join on the side that is
not padded, an unnest, a modify, a summary with a key or a set operator, as long
as it mentions only columns that come unchanged from the input it is moved to. -/
theorem restriction_pushdown_rows (htyped : backend.Typed) (e : Expression) :
    (∀ r attrs out, r.Reachable → Op.project r attrs = .ok out →
      PushesRows backend (·.project attrs) r out e e) ∧
    (∀ r name expr out, r.Reachable → Op.extend r name expr = .ok out → name ∉ e.freeAttrs →
      PushesRows backend (·.extend name expr) r out e e) ∧
    (∀ r fromName toName out, r.Reachable → Op.rename r fromName toName = .ok out →
      PushesRows backend (·.rename fromName toName) r out e (e.substitute toName fromName)) ∧
    (∀ l r kind joinOn out, l.Reachable → r.Reachable → Op.join l r kind joinOn = .ok out →
      (kind.keepsRight = false → (∀ n ∈ e.freeAttrs, n ∈ l.schema.names) →
        PushesRows backend (·.join r kind joinOn) l out e e) ∧
      (kind.keepsLeft = false →
        (∀ n ∈ e.freeAttrs, n ∈ r.schema.names ∧ n ∉ l.schema.names) →
          PushesRows backend (l.join · kind joinOn) r out e e)) ∧
    (∀ l r out, l.Reachable → r.Reachable → Op.product l r = .ok out →
      ((∀ n ∈ e.freeAttrs, n ∈ l.schema.names) → PushesRows backend (·.product r) l out e e) ∧
      ((∀ n ∈ e.freeAttrs, n ∈ r.schema.names) → PushesRows backend (l.product ·) r out e e)) ∧
    (∀ r path target out, r.Reachable → Op.unnest r path = .ok out → path.target = some target →
      (∀ n ∈ e.freeAttrs, n ∈ r.schema.names ∧ n ≠ target) →
        PushesRows backend (·.unnest path) r out e e) ∧
    (∀ r path sub target out, r.Reachable → Op.modify r path sub = .ok out →
      path.target = some target → target ∉ e.freeAttrs →
        PushesRows backend (·.modify path sub) r out e e) ∧
    (∀ r keys aggs out, Op.summarize r keys aggs = .ok out → keys.items ≠ [] →
      (∀ n ∈ e.freeAttrs, n ∈ keys.items) → PushesRows backend (·.summarize keys aggs) r out e e) ∧
    (∀ l r out, l.Reachable → Op.intersect l r = .ok out →
      PushesRows backend (·.intersect r) l out e e) ∧
    (∀ l r out restricted inner inner' pushed (b : BoolExpression), Op.union l r = .ok out →
      out.restrict (.expr b) = .ok restricted → l.restrict (.expr b) = .ok inner →
      r.restrict (.expr b) = .ok inner' → inner.union inner' = .ok pushed →
        ∀ row, Emits backend pushed row ↔ Emits backend restricted row) := by
  refine ⟨?_, ?_, ?_, ?_, ?_, ?_, ?_, ?_, ?_, ?_⟩
  · intro r attrs out hr hout
    exact pushesRows_project (hr.fits htyped) hout
  · intro r name expr out hr hout hfree
    exact pushesRows_extend (hr.fits htyped) hout hfree
  · intro r fromName toName out hr hout
    exact pushesRows_rename (hr.fits htyped) hout
  · intro l r kind joinOn out hl hr hout
    constructor
    · intro hinner hfree
      exact pushesRows_join_left (hl.fits htyped) (hr.fits htyped) hinner hout hfree
    · intro hinner hfree
      exact pushesRows_join_right (hl.fits htyped) (hr.fits htyped) hinner hout hfree
  · intro l r out hl hr hout
    constructor
    · intro hfree
      exact pushesRows_product_left (hl.fits htyped) (hr.fits htyped) hout hfree
    · intro hfree
      exact pushesRows_product_right (hl.fits htyped) (hr.fits htyped) hout hfree
  · intro r path target out hr hout hpath hfree
    exact pushesRows_unnest (hr.fits htyped) hout hpath hfree
  · intro r path sub target out hr hout hpath hfree
    exact pushesRows_modify (hr.fits htyped) hout hpath hfree
  · intro r keys aggs out hout hkeys hfree
    exact pushesRows_summarize hout hkeys hfree
  · intro l r out hl hout
    exact pushesRows_intersect (hl.fits htyped) hout
  · intro l r out restricted inner inner' pushed b hout hrestricted hinner hinner' hpushed row
    exact emits_union_restricted hout hrestricted hinner hinner' hpushed row

end Pushdown

namespace Catalogue

def payerIsSeven : Expression := .binOp .eq (.attr payer) (.lit (.int64 7))

example : payerIsSeven.substitute payer id = idIsSeven := rfl

end Catalogue

/-- The seventh payer is the seventh user renamed. -/
theorem restriction_pushdown_rows_payers :
    PushesRows Catalogue.backend (·.rename Catalogue.id Catalogue.payer) Catalogue.users
      Catalogue.payers Catalogue.payerIsSeven
      (Catalogue.payerIsSeven.substitute Catalogue.payer Catalogue.id) :=
  (restriction_pushdown_rows Catalogue.backend_typed Catalogue.payerIsSeven).2.2.1 _ _ _ _
    Catalogue.reachable_users rfl

end AxiomCore
