import Mathlib.Logic.Equiv.Basic
import AxiomCore.Outcome
import AxiomCore.Pushdown

/-!
Relabelling. A permutation of the names acts on headers, on expressions and on
the errors of inference, and inference commutes with it. A rename to a name
that the header does not have is the swap of the two names, so that it can be
undone, and an expression that does not mention the new name can follow it.
-/

namespace AxiomCore

open Checked Refined

/-- Replace every name in an aggregate. -/
def Agg.mapNames (f : AttributeName → AttributeName) : Agg → Agg
  | .count attr => .count (attr.map f)
  | .sum name => .sum (f name)
  | .min name => .min (f name)
  | .max name => .max (f name)
  | .avg name => .avg (f name)

/-- Replace the name of every attribute leaf and every aggregate operand. -/
def Expression.mapNames (f : AttributeName → AttributeName) : Expression → Expression
  | .attr name => .attr (f name)
  | .lit value => .lit value
  | .binOp op lhs rhs => .binOp op (lhs.mapNames f) (rhs.mapNames f)
  | .unOp op operand => .unOp op (operand.mapNames f)
  | .like operand pattern => .like (operand.mapNames f) pattern
  | .inList operand values => .inList (operand.mapNames f) values
  | .isNull operand => .isNull (operand.mapNames f)
  | .cast operand target => .cast (operand.mapNames f) target
  | .agg a => .agg (a.mapNames f)

def Attribute.relabel (σ : Equiv.Perm AttributeName) (a : Attribute) : Attribute :=
  ⟨σ a.name, a.ty⟩

namespace Schema

variable (σ τ : Equiv.Perm AttributeName) (s : Schema)

theorem headerRule_relabel : HeaderRule (s.attributes.map (Attribute.relabel σ)) where
  min_le := by simpa using s.headerRule.min_le
  le_max := by simpa using s.headerRule.le_max
  nodup := by
    have hnames : (s.attributes.map (Attribute.relabel σ)).map Attribute.name = s.names.map σ := by
      simp [names, Attribute.relabel]
    rw [hnames]
    exact s.nodup_names.map σ.injective

/-- The header with its names permuted, types and positions kept. Names in
nested headers stay. -/
def relabel : Schema := .ofAttributes _ (s.headerRule_relabel σ)

@[simp] theorem attributes_relabel :
    (s.relabel σ).attributes = s.attributes.map (Attribute.relabel σ) :=
  attributes_ofAttributes _ _

@[simp] theorem names_relabel : (s.relabel σ).names = s.names.map σ := by
  simp [names, Attribute.relabel]

theorem mem_names_relabel (name : AttributeName) :
    σ name ∈ (s.relabel σ).names ↔ name ∈ s.names := by
  rw [names_relabel, List.mem_map_of_injective σ.injective]

theorem relabel_relabel : (s.relabel σ).relabel τ = s.relabel (σ.trans τ) := by
  apply attributes_injective
  simp [Attribute.relabel]

@[simp] theorem relabel_refl : s.relabel (Equiv.refl AttributeName) = s := by
  apply attributes_injective
  have hid : Attribute.relabel (Equiv.refl AttributeName) = id := rfl
  rw [attributes_relabel, hid, List.map_id]

@[simp] theorem lookup_relabel (name : AttributeName) :
    (s.relabel σ).lookup (σ name) = s.lookup name := by
  have hinjective : Function.Injective (Attribute.relabel σ) := by
    rintro ⟨n, a⟩ ⟨m, b⟩ heq
    simpa [Attribute.relabel] using heq
  ext ty
  rw [lookup_eq_some_iff, lookup_eq_some_iff, attributes_relabel]
  exact List.mem_map_of_injective hinjective (a := ⟨name, ty⟩)

end Schema

/-- Under `f` the names of `s` become names of `t` with the same types, and names
that `s` does not have stay as they are and unknown. -/
def Follows (names : Finset AttributeName) (f : AttributeName → AttributeName) (s t : Schema) :
    Prop :=
  ∀ name ∈ names, t.lookup (f name) = s.lookup name ∧ (name ∉ s.names → f name = name)

theorem Follows.mono {names names' : Finset AttributeName} {f : AttributeName → AttributeName}
    {s t : Schema} (h : Follows names f s t) (hsub : names' ⊆ names) : Follows names' f s t :=
  fun name hname => h name (hsub hname)

/-- One lookup of a name that is followed, with the error that names it. -/
theorem lookup_follows {f : AttributeName → AttributeName} {s t : Schema} {name : AttributeName}
    (h : t.lookup (f name) = s.lookup name ∧ (name ∉ s.names → f name = name)) :
    lookup t (f name) = lookup s name := by
  obtain ⟨hlookup, hfixed⟩ := h
  rw [lookup, lookup, hlookup]
  cases hfound : s.lookup name with
  | some ty => rfl
  | none => rw [hfixed (Schema.lookup_eq_none_iff.mp hfound)]

theorem aggTy_follows {a : Agg} {f : AttributeName → AttributeName} {s t : Schema}
    (h : ∀ name ∈ aggregateAttributeNames a,
      t.lookup (f name) = s.lookup name ∧ (name ∉ s.names → f name = name)) :
    aggTy (a.mapNames f) t = aggTy a s := by
  cases a with
  | count attr => rfl
  | sum name | min name | max name | avg name =>
      have hname := lookup_follows (h name (by simp [aggregateAttributeNames]))
      simp only [Agg.mapNames, aggTy, hname]

/-- Inference over a header follows the names of the expression to another
header, errors included. -/
theorem infer_follows {e : Expression} {f : AttributeName → AttributeName} {s t : Schema}
    (h : Follows e.freeAttrs f s t) : infer (e.mapNames f) t = infer e s := by
  induction e with
  | attr name =>
      exact lookup_follows (h name (by simp [Expression.mem_freeAttrs_iff, Expression.postOrder]))
  | lit value => rfl
  | binOp op lhs rhs ihl ihr =>
      have hl := ihl (h.mono (Expression.freeAttrs_node (by simp [Expression.postOrder])))
      have hr := ihr (h.mono (Expression.freeAttrs_node (by simp [Expression.postOrder])))
      simp only [Expression.mapNames, infer, hl, hr]
  | unOp op operand ih | like operand pattern ih | inList operand values ih | isNull operand ih
  | cast operand target ih =>
      have ho := ih (h.mono (Expression.freeAttrs_node (by simp [Expression.postOrder])))
      simp only [Expression.mapNames, infer, ho]
  | agg a =>
      apply aggTy_follows
      intro name hname
      apply h name
      rw [Expression.mem_freeAttrs_iff]
      exact Or.inr ⟨a, by simp [Expression.postOrder], hname⟩

@[simp] theorem containsAggregate_mapNames (f : AttributeName → AttributeName) (e : Expression) :
    containsAggregate (e.mapNames f) = containsAggregate e := by
  induction e with
  | attr name | lit value | agg a => rfl
  | binOp op lhs rhs ihl ihr => simp only [Expression.mapNames, containsAggregate, ihl, ihr]
  | unOp op operand ih | like operand pattern ih | inList operand values ih | isNull operand ih
  | cast operand target ih => simp only [Expression.mapNames, containsAggregate, ih]

/-- The expression with one name replaced by another. -/
def Expression.substitute (e : Expression) (fromName toName : AttributeName) : Expression :=
  e.mapNames fun name => if name = fromName then toName else name

namespace Op

/-- A name can be taken by a rename: it is the old name or not a column. -/
abbrev Available (s : Schema) (fromName toName : AttributeName) : Prop :=
  fromName = toName ∨ toName ∉ s.names

/-- Renaming one column swaps the old and the new name. -/
theorem renamed_columns {s : Schema} {fromName toName : AttributeName}
    (h : Available s fromName toName) :
    (s.attributes.map fun a => if a.name = fromName then (⟨toName, a.ty⟩ : Attribute) else a) =
      (s.relabel (Equiv.swap fromName toName)).attributes := by
  rw [Schema.attributes_relabel]
  apply List.map_congr_left
  intro a ha
  have hmem := Schema.mem_names_of_mem ha
  by_cases hfrom : a.name = fromName
  · simp [Attribute.relabel, hfrom]
  · have hto : a.name ≠ toName := by
      rintro rfl
      rcases h with heq | habsent
      · exact hfrom heq.symm
      · exact habsent hmem
    simp [Attribute.relabel, hfrom, Equiv.swap_apply_of_ne_of_ne hfrom hto]

/-- A name that a swap leaves alone is a column before and after. -/
theorem mem_names_swap {s : Schema} {a b name : AttributeName} (ha : name ≠ a) (hb : name ≠ b) :
    name ∈ (s.relabel (Equiv.swap a b)).names ↔ name ∈ s.names := by
  have hswap := Schema.mem_names_relabel (Equiv.swap a b) s name
  rwa [Equiv.swap_apply_of_ne_of_ne ha hb] at hswap

theorem mem_names_swap_left {s : Schema} {a b : AttributeName} :
    b ∈ (s.relabel (Equiv.swap a b)).names ↔ a ∈ s.names := by
  have hswap := Schema.mem_names_relabel (Equiv.swap a b) s a
  rwa [Equiv.swap_apply_left] at hswap

theorem mem_names_swap_right {s : Schema} {a b : AttributeName} :
    a ∈ (s.relabel (Equiv.swap a b)).names ↔ b ∈ s.names := by
  rw [Equiv.swap_comm, mem_names_swap_left]

/-- Swapping two names of an extended header swaps them in the header that was
extended, when neither is the new column. -/
theorem relabel_append {s t : Schema} {a b name : AttributeName} {ty : Ty} (ha : name ≠ a)
    (hb : name ≠ b) (h : t.attributes = s.attributes ++ [⟨name, ty⟩]) :
    (t.relabel (Equiv.swap a b)).attributes =
      (s.relabel (Equiv.swap a b)).attributes ++ [⟨name, ty⟩] := by
  simp [h, Attribute.relabel, Equiv.swap_apply_of_ne_of_ne ha hb]

theorem mem_names_append {s t : Schema} {a name : AttributeName} {ty : Ty} (ha : name ≠ a)
    (h : t.attributes = s.attributes ++ [⟨name, ty⟩]) : a ∈ t.names ↔ a ∈ s.names := by
  simp [Schema.names, h, ha.symm]

section Constructors

variable [Whittle]

/-- A rename succeeds exactly when the old name is a column and the new one is
available, and swaps the two names. -/
theorem outcome_rename_eq_ok {input : Op} {fromName toName : AttributeName} {s : Schema} :
    outcome (input.rename fromName toName) = .ok s ↔
      fromName ∈ input.schema.names ∧ Available input.schema fromName toName ∧
        s = input.schema.relabel (Equiv.swap fromName toName) := by
  rw [outcome_eq_ok]
  constructor
  · rintro ⟨op, hrename, rfl⟩
    obtain ⟨hfrom, havailable, -, hcolumns⟩ := rename_eq_ok.mp hrename
    rw [renamed_columns havailable] at hcolumns
    exact ⟨hfrom, havailable, Schema.attributes_injective hcolumns⟩
  · rintro ⟨hfrom, havailable, rfl⟩
    refine ⟨⟨.rename input fromName toName, _⟩, rename_eq_ok.mpr ⟨hfrom, havailable, rfl, ?_⟩, rfl⟩
    exact (renamed_columns havailable).symm

/-- A rename that succeeds, seen through its header. -/
theorem schema_of_rename {input op : Op} {fromName toName : AttributeName}
    (hrename : input.rename fromName toName = .ok op) :
    fromName ∈ input.schema.names ∧ Available input.schema fromName toName ∧
      op.schema = input.schema.relabel (Equiv.swap fromName toName) :=
  outcome_rename_eq_ok.mp (outcome_eq_ok.mpr ⟨op, hrename, rfl⟩)

theorem rename_back {input op : Op} {fromName toName : AttributeName}
    (hrename : input.rename fromName toName = .ok op) :
    ∃ back, op.rename toName fromName = .ok back ∧ back.schema = input.schema := by
  obtain ⟨hfrom, havailable, hschema⟩ := schema_of_rename hrename
  have hto : toName ∈ op.schema.names := by
    rwa [hschema, mem_names_swap_left]
  have hback : Available op.schema toName fromName := by
    rw [Available, hschema, mem_names_swap_right]
    exact havailable.imp Eq.symm id
  rw [← outcome_eq_ok, outcome_rename_eq_ok]
  refine ⟨hto, hback, ?_⟩
  rw [hschema, Equiv.swap_comm toName, Schema.relabel_relabel, Equiv.swap_swap,
    Schema.relabel_refl]

/-- Two renames in a row. -/
theorem outcome_rename_rename_eq_ok {input : Op} {a b c d : AttributeName} {s : Schema}
    (hca : c ≠ a) (hcb : c ≠ b) (hda : d ≠ a) (hdb : d ≠ b) :
    outcome (input.rename a b >>= fun op => op.rename c d) = .ok s ↔
      (a ∈ input.schema.names ∧ Available input.schema a b) ∧
        (c ∈ input.schema.names ∧ Available input.schema c d) ∧
        s = (input.schema.relabel (Equiv.swap a b)).relabel (Equiv.swap c d) := by
  rw [outcome_bind, bind_eq_ok]
  constructor
  · rintro ⟨op, hrename, hs⟩
    obtain ⟨ha, hb, hschema⟩ := schema_of_rename hrename
    rw [outcome_rename_eq_ok, Available, hschema, mem_names_swap hca hcb,
      mem_names_swap hda hdb] at hs
    exact ⟨⟨ha, hb⟩, ⟨hs.1, hs.2.1⟩, hs.2.2⟩
  · rintro ⟨⟨ha, hb⟩, ⟨hc, hd⟩, rfl⟩
    obtain ⟨op, hrename, hschema⟩ := outcome_eq_ok.mp (outcome_rename_eq_ok.mpr ⟨ha, hb, rfl⟩)
    refine ⟨op, hrename, ?_⟩
    rw [outcome_rename_eq_ok, Available, hschema, mem_names_swap hca hcb, mem_names_swap hda hdb]
    exact ⟨hc, hd, rfl⟩

/-- Renames over four distinct names commute. -/
theorem rename_comm {input : Op} {a b c d : AttributeName} (hdistinct : [a, b, c, d].Nodup)
    (s : Schema) :
    outcome (input.rename a b >>= fun op => op.rename c d) = .ok s ↔
      outcome (input.rename c d >>= fun op => op.rename a b) = .ok s := by
  obtain ⟨⟨hab, hac, had⟩, ⟨hbc, hbd⟩, hcd⟩ :
      (a ≠ b ∧ a ≠ c ∧ a ≠ d) ∧ (b ≠ c ∧ b ≠ d) ∧ c ≠ d := by
    simpa using hdistinct
  have hswaps : (Equiv.swap a b).trans (Equiv.swap c d) =
      (Equiv.swap c d).trans (Equiv.swap a b) := by
    ext name
    simp only [Equiv.trans_apply]
    by_cases hin : name = a ∨ name = b
    · rcases hin with rfl | rfl
      · rw [Equiv.swap_apply_left, Equiv.swap_apply_of_ne_of_ne hac had,
          Equiv.swap_apply_of_ne_of_ne hbc hbd, Equiv.swap_apply_left]
      · rw [Equiv.swap_apply_right, Equiv.swap_apply_of_ne_of_ne hbc hbd,
          Equiv.swap_apply_of_ne_of_ne hac had, Equiv.swap_apply_right]
    · obtain ⟨hna, hnb⟩ := not_or.mp hin
      have hfixed : Equiv.swap c d name ≠ a ∧ Equiv.swap c d name ≠ b := by
        constructor
        · rw [Ne, Equiv.swap_apply_eq_iff, Equiv.swap_apply_of_ne_of_ne hac had]
          exact hna
        · rw [Ne, Equiv.swap_apply_eq_iff, Equiv.swap_apply_of_ne_of_ne hbc hbd]
          exact hnb
      rw [Equiv.swap_apply_of_ne_of_ne hna hnb, Equiv.swap_apply_of_ne_of_ne hfixed.1 hfixed.2]
  rw [outcome_rename_rename_eq_ok hac.symm hbc.symm had.symm hbd.symm,
    outcome_rename_rename_eq_ok hac had hbc hbd, Schema.relabel_relabel, Schema.relabel_relabel,
    hswaps]
  exact and_left_comm

/-- An expression that does not mention the new name follows a rename. -/
theorem infer_rename {input op : Op} {fromName toName : AttributeName} {e : Expression}
    (hrename : input.rename fromName toName = .ok op)
    (hfree : toName ∉ e.freeAttrs ∨ toName = fromName) :
    infer (e.substitute fromName toName) op.schema = infer e input.schema := by
  obtain ⟨hfrom, -, hschema⟩ := schema_of_rename hrename
  apply infer_follows
  intro name hname
  by_cases hold : name = fromName
  · subst hold
    have hlookup := Schema.lookup_relabel (Equiv.swap name toName) input.schema name
    rw [Equiv.swap_apply_left, ← hschema] at hlookup
    refine ⟨by simpa using hlookup, ?_⟩
    intro habsent
    exact absurd hfrom habsent
  · have hnew : name ≠ toName := by
      rintro rfl
      exact hfree.elim (absurd hname) hold
    have hlookup := Schema.lookup_relabel (Equiv.swap fromName toName) input.schema name
    rw [Equiv.swap_apply_of_ne_of_ne hold hnew, ← hschema] at hlookup
    refine ⟨by simpa [hold] using hlookup, ?_⟩
    intro _
    exact if_neg hold

theorem admits_rename {input op : Op} {fromName toName : AttributeName} {e : Expression}
    (hrename : input.rename fromName toName = .ok op)
    (hfree : toName ∉ e.freeAttrs ∨ toName = fromName) :
    op.Admits (e.substitute fromName toName) ↔ input.Admits e := by
  rw [admits_iff, admits_iff, infer_rename hrename hfree, Expression.substitute,
    containsAggregate_mapNames]

theorem outcome_extend_eq_ok {input : Op} {name : AttributeName} {e : Expression} {s : Schema} :
    outcome (input.extend name e) = .ok s ↔ ∃ ty, name ∉ input.schema.names ∧
      containsAggregate e = false ∧ infer e input.schema = .ok ty ∧
      s.attributes = input.schema.attributes ++ [⟨name, ty⟩] := by
  rw [outcome_eq_ok]
  constructor
  · rintro ⟨op, hextend, rfl⟩
    obtain ⟨ty, hname, hagg, hty, -, hcolumns⟩ := extend_eq_ok.mp hextend
    exact ⟨ty, hname, hagg, hty, hcolumns⟩
  · rintro ⟨ty, hname, hagg, hty, hcolumns⟩
    exact ⟨⟨.extend input name e, s⟩, extend_eq_ok.mpr ⟨ty, hname, hagg, hty, rfl, hcolumns⟩, rfl⟩

/-- A column computed after a rename can be computed before it. -/
theorem extend_rename {input : Op} {a b name : AttributeName} {e : Expression} (ha : name ≠ a)
    (hb : name ≠ b) (hfree : b ∉ e.freeAttrs ∨ b = a) (s : Schema) :
    outcome (input.rename a b >>= fun op => op.extend name (e.substitute a b)) = .ok s ↔
      outcome (input.extend name e >>= fun op => op.rename a b) = .ok s := by
  rw [outcome_bind, bind_eq_ok, outcome_bind, bind_eq_ok]
  constructor
  · rintro ⟨renamed, hrename, hs⟩
    obtain ⟨ty, hname, hagg, hty, hcolumns⟩ := outcome_extend_eq_ok.mp hs
    obtain ⟨hfrom, havailable, hschema⟩ := schema_of_rename hrename
    rw [infer_rename hrename hfree] at hty
    rw [hschema, mem_names_swap ha hb] at hname
    rw [hschema] at hcolumns
    rw [Expression.substitute, containsAggregate_mapNames] at hagg
    have hcolumns' := relabel_append ha hb hcolumns
    rw [Schema.relabel_relabel, Equiv.swap_swap, Schema.relabel_refl] at hcolumns'
    obtain ⟨extended, hextend, hextended⟩ :=
      outcome_eq_ok.mp (outcome_extend_eq_ok.mpr ⟨ty, hname, hagg, hty, hcolumns'⟩)
    refine ⟨extended, hextend, outcome_rename_eq_ok.mpr ?_⟩
    rw [Available, hextended, mem_names_append ha hcolumns', mem_names_append hb hcolumns',
      Schema.relabel_relabel, Equiv.swap_swap, Schema.relabel_refl]
    exact ⟨hfrom, havailable, rfl⟩
  · rintro ⟨extended, hextend, hs⟩
    obtain ⟨hfrom, havailable, rfl⟩ := outcome_rename_eq_ok.mp hs
    obtain ⟨ty, hname, hagg, hty, hcolumns⟩ :=
      outcome_extend_eq_ok.mp (outcome_eq_ok.mpr ⟨extended, hextend, rfl⟩)
    rw [mem_names_append ha hcolumns] at hfrom
    rw [Available, mem_names_append hb hcolumns] at havailable
    obtain ⟨renamed, hrename, hschema⟩ :=
      outcome_eq_ok.mp (outcome_rename_eq_ok.mpr ⟨hfrom, havailable, rfl⟩)
    refine ⟨renamed, hrename, outcome_extend_eq_ok.mpr ⟨ty, ?_, ?_, ?_, ?_⟩⟩
    · rwa [hschema, mem_names_swap ha hb]
    · rwa [Expression.substitute, containsAggregate_mapNames]
    · rwa [infer_rename hrename hfree]
    · rw [hschema]
      exact relabel_append ha hb hcolumns

end Constructors

end Op

section Kernel

variable [Whittle]

/-- A rename is an invertible relabelling. It needs the old name and a new name
that no other column has, keeps the types at their positions, can be undone,
and commutes with a rename over other names. Inference follows it, errors
included, on every expression that does not mention the new name, and so do
restrictions and computed columns. -/
theorem rename_relabels :
    (∀ (r : Op) (a b : AttributeName), (∃ op, r.rename a b = .ok op) ↔
      a ∈ r.schema.names ∧ (b = a ∨ b ∉ r.schema.names)) ∧
    (∀ (r op : Op) (a b : AttributeName), r.rename a b = .ok op →
      op.schema.attributes.map Attribute.ty = r.schema.attributes.map Attribute.ty ∧
        ∃ back, op.rename b a = .ok back ∧ back.schema = r.schema) ∧
    (∀ (r : Op) (a b c d : AttributeName), [a, b, c, d].Nodup → ∀ s,
      Op.outcome (do let op ← r.rename a b; op.rename c d) = .ok s ↔
        Op.outcome (do let op ← r.rename c d; op.rename a b) = .ok s) ∧
    (∀ (e : Expression) (r op : Op) (a b : AttributeName), b ∉ e.freeAttrs ∨ b = a →
      r.rename a b = .ok op →
      infer (e.substitute a b) op.schema = infer e r.schema ∧
        (op.Admits (e.substitute a b) ↔ r.Admits e)) ∧
    (∀ (e : Expression) (r : Op) (a b n : AttributeName), b ∉ e.freeAttrs ∨ b = a →
      n ≠ a → n ≠ b → ∀ s,
      Op.outcome (do let op ← r.rename a b; op.extend n (e.substitute a b)) = .ok s ↔
        Op.outcome (do let op ← r.extend n e; op.rename a b) = .ok s) := by
  refine ⟨?_, ?_, ?_, ?_, ?_⟩
  · intro r a b
    rw [← Op.exists_outcome_iff, @eq_comm _ b a]
    simp only [Op.outcome_rename_eq_ok, ← and_assoc, exists_and_left, exists_eq, and_true]
  · intro r op a b hrename
    refine ⟨?_, Op.rename_back hrename⟩
    rw [(Op.schema_of_rename hrename).2.2, Schema.attributes_relabel, List.map_map]
    rfl
  · intro r a b c d hdistinct s
    exact Op.rename_comm hdistinct s
  · intro e r op a b hfree hrename
    exact ⟨Op.infer_rename hrename hfree, Op.admits_rename hrename hfree⟩
  · intro e r a b n hfree ha hb s
    exact Op.extend_rename ha hb hfree s

end Kernel

/-- The users whose id is called total. -/
theorem rename_relabels_users :
    ∃ op back, Catalogue.users.rename Catalogue.id Catalogue.total = .ok op ∧
      op.rename Catalogue.total Catalogue.id = .ok back ∧
      back.schema = Catalogue.users.schema ∧
      infer (.binOp .eq (.attr Catalogue.total) (.lit (.int64 7))) op.schema = .ok .bool := by
  have hfree : Catalogue.total ∉ Catalogue.idIsSeven.freeAttrs := by decide
  obtain ⟨op, hrename⟩ : ∃ op, Catalogue.users.rename Catalogue.id Catalogue.total = .ok op :=
    (rename_relabels.1 _ _ _).mpr (by decide)
  obtain ⟨-, back, hback, hschema⟩ := rename_relabels.2.1 _ _ _ _ hrename
  obtain ⟨hinfer, -⟩ := rename_relabels.2.2.2.1 _ _ _ _ _ (Or.inl hfree) hrename
  exact ⟨op, back, hrename, hback, hschema, hinfer⟩

end AxiomCore
