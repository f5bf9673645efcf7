import AxiomCore.Nesting

/-!
Modify as a lens on headers. Putting a nested header into a relation column
leaves every other column alone, is read back by a lookup, changes nothing when
it is the header that was there, overwrites an earlier put and commutes with a
put into another column. An unnest of the column then splices the header that
was put.
-/

namespace AxiomCore

open Checked Refined

/-- The column with its nested header replaced, when it is the one named. -/
def Attribute.put (name : AttributeName) (nested : Schema) (a : Attribute) : Attribute :=
  if a.name = name then ⟨a.name, .relation nested⟩ else a

namespace Attribute

variable (name other : AttributeName) (nested nested' : Schema) (a : Attribute)

@[simp] theorem put_name : (a.put name nested).name = a.name := by
  unfold put
  split <;> rfl

theorem put_of_ne (h : a.name ≠ name) : a.put name nested = a := if_neg h

theorem put_self : (⟨name, .relation nested⟩ : Attribute).put name nested' =
    ⟨name, .relation nested'⟩ := if_pos rfl

theorem put_put : (a.put name nested).put name nested' = a.put name nested' := by
  by_cases h : a.name = name
  · simp [put, h]
  · simp [put, h]

theorem put_comm (hne : name ≠ other) :
    (a.put name nested).put other nested' = (a.put other nested').put name nested := by
  by_cases h : a.name = name
  · simp [put, h, hne]
  · by_cases h' : a.name = other
    · simp [put, h', hne.symm]
    · simp [put, h, h']

end Attribute

namespace Schema

/-- Putting a header into a column keeps the names, so the result is a
header. -/
theorem exists_put (s : Schema) (name : AttributeName) (nested : Schema) :
    ∃ t : Schema, t.attributes = s.attributes.map (Attribute.put name nested) := by
  have hnames : (s.attributes.map (Attribute.put name nested)).map Attribute.name = s.names := by
    simp [names, Function.comp_def]
  have hrule := s.headerRule
  refine exists_attributes_iff.mpr ⟨⟨?_, ?_⟩, ?_⟩
  · simpa using hrule.min_le
  · simpa using hrule.le_max
  · rw [hnames]
    exact s.nodup_names

/-- Putting a header where it already is changes nothing. -/
theorem map_put_self {s nested : Schema} {name : AttributeName}
    (hmem : ⟨name, .relation nested⟩ ∈ s.attributes) :
    s.attributes.map (Attribute.put name nested) = s.attributes := by
  have hid : s.attributes.map (Attribute.put name nested) = s.attributes.map id := by
    apply List.map_congr_left
    intro a ha
    by_cases hname : a.name = name
    · obtain rfl := eq_of_mem ha hmem hname
      exact Attribute.put_self name nested nested
    · exact Attribute.put_of_ne name nested a hname
  rw [hid, List.map_id]

theorem mem_put_self {s t nested nested' : Schema} {name : AttributeName}
    (ht : t.attributes = s.attributes.map (Attribute.put name nested'))
    (hmem : ⟨name, .relation nested⟩ ∈ s.attributes) :
    ⟨name, .relation nested'⟩ ∈ t.attributes := by
  rw [ht]
  exact List.mem_map.mpr ⟨_, hmem, Attribute.put_self name nested nested'⟩

theorem mem_put_other {s t nested nested' : Schema} {name other : AttributeName}
    (ht : t.attributes = s.attributes.map (Attribute.put name nested')) (hne : other ≠ name)
    (hmem : ⟨other, .relation nested⟩ ∈ s.attributes) :
    ⟨other, .relation nested⟩ ∈ t.attributes := by
  rw [ht]
  exact List.mem_map.mpr ⟨_, hmem, Attribute.put_of_ne name nested' _ hne⟩

end Schema

namespace Op

/-- Every other column stays as it is, and the modified one keeps its place. -/
def FramesColumn (name : AttributeName) (input out : Op) : Prop :=
  List.Forall₂ (fun a a' => a'.name = a.name ∧ (a.name ≠ name → a' = a))
    input.schema.attributes out.schema.attributes

theorem framesColumn_of_put {input out : Op} {name : AttributeName} {nested : Schema}
    (hput : out.schema.attributes = input.schema.attributes.map (Attribute.put name nested)) :
    FramesColumn name input out := by
  rw [FramesColumn, hput, List.forall₂_map_right_iff, List.forall₂_same]
  intro a _
  exact ⟨Attribute.put_name name nested a, Attribute.put_of_ne name nested a⟩

/-- A header can be spliced in for a column exactly when its names avoid the other
names and the columns fit. -/
theorem exists_spliced_iff {s block : Schema} {before after : List Attribute} {a : Attribute}
    (hsplit : Keyed.Split Attribute.name s.attributes before after a) :
    (∃ t : Schema, t.attributes = before ++ block.attributes ++ after) ↔
      (∀ n ∈ block.names, n ∈ s.names → n = a.name) ∧
        s.cardinality - 1 + block.cardinality ≤ maxSchemaAttributes := by
  have hlength : (before ++ block.attributes ++ after).length =
      s.cardinality - 1 + block.cardinality := by
    rw [← s.length_attributes, hsplit.eq, ← block.length_attributes]
    simp only [List.length_append, List.length_cons]
    omega
  have hpos : 1 ≤ (before ++ block.attributes ++ after).length := by
    have hblock := block.headerRule.min_le
    simp only [List.length_append]
    omega
  rw [Schema.exists_attributes_iff]
  constructor
  · intro hrule
    exact ⟨(hsplit.nodup_spliced_iff s.nodup_names block.nodup_names).mp hrule.nodup,
      hlength ▸ hrule.le_max⟩
  · rintro ⟨havoid, hfits⟩
    exact ⟨⟨hpos, hlength ▸ hfits⟩,
      (hsplit.nodup_spliced_iff s.nodup_names block.nodup_names).mpr havoid⟩

section Constructors

variable [Whittle]

/-- A modify of a relation column succeeds and puts the header of the
sub-operator. -/
theorem modify_puts {input : Op} {name : AttributeName} {nested : Schema}
    (hmem : ⟨name, .relation nested⟩ ∈ input.schema.attributes) (sub : Op) :
    ∃ out, input.modify (.column name) sub = .ok out ∧
      out.schema.attributes = input.schema.attributes.map (Attribute.put name sub.schema) := by
  obtain ⟨s, hs⟩ := input.schema.exists_put name sub.schema
  have houtcome : outcome (input.modify (.column name) sub) = .ok s := by
    rw [outcome_modify (AnyPath.target_column name) hmem]
    exact Schema.checked_eq_ok.mpr hs
  obtain ⟨out, hout, rfl⟩ := outcome_eq_ok.mp houtcome
  exact ⟨out, hout, hs⟩

/-- The later of two puts into one column wins. -/
theorem modify_modify {input out : Op} {name : AttributeName} {nested : Schema} {sub : Op}
    (hmem : ⟨name, .relation nested⟩ ∈ input.schema.attributes)
    (hout : out.schema.attributes = input.schema.attributes.map (Attribute.put name sub.schema))
    (sub' : Op) :
    ∃ twice once, out.modify (.column name) sub' = .ok twice ∧
      input.modify (.column name) sub' = .ok once ∧ twice.schema = once.schema := by
  obtain ⟨twice, htwice, hcolumns⟩ := modify_puts (Schema.mem_put_self hout hmem) sub'
  obtain ⟨once, honce, hcolumns'⟩ := modify_puts hmem sub'
  refine ⟨twice, once, htwice, honce, Schema.attributes_injective ?_⟩
  rw [hcolumns, hcolumns', hout, List.map_map]
  apply List.map_congr_left
  intro a _
  exact Attribute.put_put name sub.schema sub'.schema a

/-- Puts into two columns commute. -/
theorem modify_comm {input : Op} {name other : AttributeName} {nested nested' : Schema}
    (hmem : ⟨name, .relation nested⟩ ∈ input.schema.attributes)
    (hmem' : ⟨other, .relation nested'⟩ ∈ input.schema.attributes) (hne : name ≠ other)
    (sub sub' : Op) :
    ∃ s, outcome (input.modify (.column name) sub >>= fun op => op.modify (.column other) sub') =
        .ok s ∧
      outcome (input.modify (.column other) sub' >>= fun op => op.modify (.column name) sub) =
        .ok s := by
  obtain ⟨first, hfirst, hput⟩ := modify_puts hmem sub
  obtain ⟨first', hfirst', hput'⟩ := modify_puts hmem' sub'
  obtain ⟨both, hboth, hcolumns⟩ := modify_puts (Schema.mem_put_other hput hne.symm hmem') sub'
  obtain ⟨both', hboth', hcolumns'⟩ := modify_puts (Schema.mem_put_other hput' hne hmem) sub
  have hsame : both.schema = both'.schema := by
    apply Schema.attributes_injective
    rw [hcolumns, hcolumns', hput, hput', List.map_map, List.map_map]
    apply List.map_congr_left
    intro a _
    exact Attribute.put_comm name other sub.schema sub'.schema a hne
  refine ⟨both.schema, ?_, ?_⟩
  · rw [outcome_bind, hfirst]
    exact congrArg outcome hboth
  · rw [outcome_bind, hfirst', hsame]
    exact congrArg outcome hboth'

/-- The unnest of a put column splices the header that was put. -/
theorem outcome_unnest_put {input out sub : Op} {name : AttributeName} {nested : Schema}
    {before after : List Attribute}
    (hsplit : Keyed.Split Attribute.name input.schema.attributes before after
      ⟨name, .relation nested⟩)
    (hput : out.schema.attributes = input.schema.attributes.map (Attribute.put name sub.schema)) :
    outcome (out.unnest (.column name)) =
      Schema.checked (before ++ sub.schema.attributes ++ after) := by
  have hmem : ⟨name, .relation nested⟩ ∈ input.schema.attributes := by
    rw [hsplit.eq]
    simp
  have hcolumns : out.schema.attributes = before ++ ⟨name, .relation sub.schema⟩ :: after := by
    rw [hput, ← hsplit.map]
    apply List.map_congr_left
    intro a _
    unfold Attribute.put
    split
    · rename_i hname
      rw [hname]
    · rfl
  have hreplaced := hsplit.replace (b := ⟨name, .relation sub.schema⟩) rfl
  rw [← hcolumns] at hreplaced
  rw [outcome_unnest (AnyPath.target_column name) (Schema.mem_put_self hput hmem)]
  exact congrArg Schema.checked (hreplaced.flatMap sub.schema.attributes)

end Constructors

end Op

section Kernel

variable [Whittle]

/-- Modify acts on headers as a lawful lens, and the unnest of a modified column
splices the header it was given. -/
theorem modify_lawful {r : Op} {f : AttributeName} {N : Schema}
    (hf : ⟨f, .relation N⟩ ∈ r.schema.attributes) (s : Op) :
    ∃ out, r.modify (.column f) s = .ok out ∧
      Op.FramesColumn f r out ∧
      out.schema.find f = some ⟨f, .relation s.schema⟩ ∧
      (s.schema = N → out.schema = r.schema) ∧
      (∀ s' : Op, ∃ twice once, out.modify (.column f) s' = .ok twice ∧
        r.modify (.column f) s' = .ok once ∧ twice.schema = once.schema) ∧
      (∀ (g : AttributeName) (M : Schema) (s' : Op), ⟨g, .relation M⟩ ∈ r.schema.attributes →
        f ≠ g → ∃ both,
          Op.outcome (do let op ← r.modify (.column f) s; op.modify (.column g) s') = .ok both ∧
          Op.outcome (do let op ← r.modify (.column g) s'; op.modify (.column f) s) = .ok both) ∧
      ((∃ u, out.unnest (.column f) = .ok u) ↔
        (∀ n ∈ s.schema.names, n ∈ r.schema.names → n = f) ∧
          r.schema.cardinality - 1 + s.schema.cardinality ≤ maxSchemaAttributes) ∧
      ∃ before after, r.schema.attributes = before ++ ⟨f, .relation N⟩ :: after ∧
        ∀ u, out.unnest (.column f) = .ok u →
          u.schema.attributes = before ++ s.schema.attributes ++ after := by
  obtain ⟨out, hout, hput⟩ := Op.modify_puts hf s
  obtain ⟨before, after, hsplit⟩ := Keyed.exists_split r.schema.headerRule.nodup hf
  have hunnest := Op.outcome_unnest_put hsplit hput
  refine ⟨out, hout, Op.framesColumn_of_put hput, ?_, ?_, Op.modify_modify hf hput, ?_, ?_, before,
    after, hsplit.eq, ?_⟩
  · exact Schema.find_eq_some_iff.mpr ⟨Schema.mem_put_self hput hf, rfl⟩
  · rintro rfl
    exact Schema.attributes_injective (hput.trans (Schema.map_put_self hf))
  · intro g M s' hg hne
    exact Op.modify_comm hf hg hne s s'
  · rw [← Op.exists_outcome_iff, hunnest, ← Op.exists_spliced_iff hsplit]
    simp only [Schema.checked_eq_ok]
  · intro u hu
    have houtcome := Op.outcome_eq_ok.mpr ⟨u, hu, rfl⟩
    rwa [hunnest, Schema.checked_eq_ok] at houtcome

end Kernel

namespace Catalogue

def accounts : Op := .source <| .table
  (.ofAttributes [⟨id, .int64⟩, ⟨profile, .relation users.schema⟩] (by decide))
  ⟨"accounts", by decide⟩

end Catalogue

/-- The profiles of the accounts are replaced by orders. -/
theorem modify_lawful_accounts :
    ∃ out, Catalogue.accounts.modify (.column Catalogue.profile) Catalogue.orders = .ok out ∧
      out.schema.find Catalogue.profile =
        some ⟨Catalogue.profile, .relation Catalogue.orders.schema⟩ := by
  have hprofile : ⟨Catalogue.profile, .relation Catalogue.users.schema⟩ ∈
      Catalogue.accounts.schema.attributes := by decide
  obtain ⟨out, hout, -, hfind, -⟩ := modify_lawful hprofile Catalogue.orders
  exact ⟨out, hout, hfind⟩

end AxiomCore
