import AxiomCore.NaturalJoin
import AxiomCore.Relabelling

/-!
The textbook reading of the natural join. Rename the shared columns of the right
side to fresh names, equate the old and the fresh names in an equi-join, and
project the duplicates away. The chain of renames always succeeds, and the
equi-join makes the checks of the natural join in the same order, so that the
two agree on headers and on errors.
-/

namespace AxiomCore

open Checked Refined

namespace Schema

/-- The names of left that right has, in left order. -/
def shared (left right : Schema) : List AttributeName := left.names.filter right.contains

theorem mem_shared {left right : Schema} {name : AttributeName} :
    name ∈ left.shared right ↔ name ∈ left.names ∧ name ∈ right.names := by
  rw [shared, List.mem_filter, contains_iff]

theorem nodup_shared (left right : Schema) : (left.shared right).Nodup :=
  left.nodup_names.filter _

end Schema

/-- New names for the shared columns of two headers: in neither header, and a
different one for each. -/
structure FreshNames (left right : Schema) (fresh : AttributeName → AttributeName) : Prop where
  notLeft : ∀ name ∈ left.shared right, fresh name ∉ left.names
  notRight : ∀ name ∈ left.shared right, fresh name ∉ right.names
  injective : ∀ name ∈ left.shared right, ∀ other ∈ left.shared right,
    fresh name = fresh other → name = other

namespace Op

section Renames

variable [Whittle]

/-- A chain of renames. -/
def renameAll (input : Op) (renames : List (AttributeName × AttributeName)) : Except OpError Op :=
  renames.foldlM (fun op step => op.rename step.1 step.2) input

/-- The columns in `todo` can be renamed one by one: they are distinct, and their
fresh names are distinct and not columns. -/
structure Renamable (fresh : AttributeName → AttributeName) (s : Schema)
    (todo : List AttributeName) : Prop where
  nodup : todo.Nodup
  columns : ∀ name ∈ todo, name ∈ s.names
  notColumns : ∀ name ∈ todo, fresh name ∉ s.names
  injective : ∀ name ∈ todo, ∀ other ∈ todo, fresh name = fresh other → name = other

namespace Renamable

variable {fresh : AttributeName → AttributeName} {s : Schema} {name : AttributeName}
  {rest : List AttributeName}

omit [Whittle]

/-- The names still to be renamed are neither the old name of a step nor its new
name. -/
theorem untouched (h : Renamable fresh s (name :: rest)) {other : AttributeName}
    (hother : other ∈ rest) : other ≠ name ∧ other ≠ fresh name := by
  constructor
  · rintro rfl
    exact (List.nodup_cons.mp h.nodup).1 hother
  · rintro rfl
    exact h.notColumns name List.mem_cons_self (h.columns _ (List.mem_cons_of_mem name hother))

/-- After one rename the other columns can still be renamed. -/
theorem step (h : Renamable fresh s (name :: rest)) :
    Renamable fresh (s.relabel (Equiv.swap name (fresh name))) rest where
  nodup := h.nodup.of_cons
  columns other hother := by
    obtain ⟨hne, hne'⟩ := h.untouched hother
    rw [mem_names_swap hne hne']
    exact h.columns other (List.mem_cons_of_mem name hother)
  notColumns other hother := by
    have hcolumn := h.columns name List.mem_cons_self
    have hnew := h.notColumns other (List.mem_cons_of_mem name hother)
    have hne : fresh other ≠ name := by
      intro heq
      exact hnew (heq ▸ hcolumn)
    have hne' : fresh other ≠ fresh name := by
      intro heq
      have hsame := h.injective other (by simp [hother]) name (by simp) heq
      exact (h.untouched hother).1 hsame
    rwa [mem_names_swap hne hne']
  injective n hn m hm := h.injective n (by simp [hn]) m (by simp [hm])

end Renamable

/-- A chain that renames columns to distinct names that are not columns succeeds
and renames exactly these columns. -/
theorem renameAll_fresh {fresh : AttributeName → AttributeName} {todo : List AttributeName}
    {input : Op} (htodo : Renamable fresh input.schema todo) :
    ∃ out, input.renameAll (todo.map fun name => (name, fresh name)) = .ok out ∧
      out.schema.attributes = input.schema.attributes.map fun a =>
        if a.name ∈ todo then ⟨fresh a.name, a.ty⟩ else a := by
  induction todo generalizing input with
  | nil => exact ⟨input, rfl, by simp⟩
  | cons name rest ih =>
      have hcolumn := htodo.columns name List.mem_cons_self
      have hnew := htodo.notColumns name List.mem_cons_self
      obtain ⟨renamed, hrename, hschema⟩ := outcome_eq_ok.mp
        (outcome_rename_eq_ok.mpr ⟨hcolumn, Or.inr hnew, rfl⟩)
      have hrest := htodo.step
      rw [← hschema] at hrest
      obtain ⟨out, hout, hattributes⟩ := ih hrest
      have hchain : input.renameAll ((name :: rest).map fun n => (n, fresh n)) =
          renamed.renameAll (rest.map fun n => (n, fresh n)) := by
        rw [renameAll, List.map_cons, List.foldlM_cons, hrename]
        rfl
      refine ⟨out, hchain.trans hout, ?_⟩
      obtain ⟨-, -, -, hstep⟩ := rename_eq_ok.mp hrename
      rw [hattributes, hstep, List.map_map]
      apply List.map_congr_left
      intro a _
      -- a column that was renamed in this step is not renamed again
      have hlater : fresh name ∉ rest := fun hmem => (htodo.untouched hmem).2 rfl
      by_cases hfirst : a.name = name
      · simp [hfirst, hlater]
      · simp [hfirst]

end Renames

end Op

/-- The equations of the desugared join, in left order. -/
def freshPairs (left right : Schema) (fresh : AttributeName → AttributeName) : List EquiPair :=
  (left.shared right).map fun name => ⟨name, fresh name⟩

/-- The names of the natural join: those of left, then those only right has. -/
def joinedNames (left right : Schema) : List AttributeName :=
  left.names ++ right.names.filter (· ∉ left.names)

section Desugared

variable {left right renamed : Schema} {fresh : AttributeName → AttributeName}
  (hfresh : FreshNames left right fresh)
  (hrenamed : renamed.attributes = right.attributes.map fun a =>
    if a.name ∈ left.shared right then ⟨fresh a.name, a.ty⟩ else a)

include hrenamed in
/-- The shared columns of right stand in the renamed header under their fresh
names, the others as they are. -/
theorem mem_renamed {a : Attribute} (ha : a ∈ right.attributes) :
    (a.name ∈ left.names → ⟨fresh a.name, a.ty⟩ ∈ renamed.attributes) ∧
      (a.name ∉ left.names → a ∈ renamed.attributes) := by
  have hright := Schema.mem_names_of_mem ha
  rw [hrenamed]
  constructor
  · intro hleft
    have hshared := Schema.mem_shared.mpr ⟨hleft, hright⟩
    exact List.mem_map.mpr ⟨a, ha, if_pos hshared⟩
  · intro hleft
    have hshared : a.name ∉ left.shared right := fun h => hleft (Schema.mem_shared.mp h).1
    exact List.mem_map.mpr ⟨a, ha, if_neg hshared⟩

include hfresh hrenamed in
/-- The renamed header shares no name with left. -/
theorem disjoint_renamed : ∀ name ∈ left.names, name ∉ renamed.names := by
  intro name hleft hmem
  rw [Schema.names, hrenamed, List.map_map] at hmem
  obtain ⟨a, ha, rfl⟩ := List.mem_map.mp hmem
  simp only [Function.comp_apply] at hleft
  split at hleft
  · rename_i hshared
    exact hfresh.notLeft _ hshared hleft
  · rename_i hshared
    exact hshared (Schema.mem_shared.mpr ⟨hleft, Schema.mem_names_of_mem ha⟩)

end Desugared

namespace Op

/-- Over the renamed right side the check of a pair is the check that a natural
join makes of the shared column. -/
theorem checkPair_fresh {left right renamed : Op} {fresh : AttributeName → AttributeName}
    (hrenamed : renamed.schema.attributes = right.schema.attributes.map fun a =>
      if a.name ∈ left.schema.shared right.schema then ⟨fresh a.name, a.ty⟩ else a)
    {a : Attribute} (ha : a ∈ left.schema.attributes) :
    (if right.schema.contains a.name then checkPair left renamed ⟨a.name, fresh a.name⟩
      else .ok ()) = right.schema.agreesWith a := by
  unfold Schema.agreesWith
  cases hfind : right.schema.find a.name with
  | none => simp [Schema.contains, hfind]
  | some b =>
      obtain ⟨hb, hname⟩ := Schema.find_eq_some_iff.mp hfind
      have hcontains : right.schema.contains a.name = true := by simp [Schema.contains, hfind]
      have hleft : left.schema.find a.name = some a := Schema.find_eq_some_iff.mpr ⟨ha, rfl⟩
      have hshared : b.name ∈ left.schema.names := hname ▸ Schema.mem_names_of_mem ha
      have hright : renamed.schema.find (fresh a.name) = some ⟨fresh a.name, b.ty⟩ := by
        have hmem := (mem_renamed hrenamed hb).1 hshared
        rw [hname] at hmem
        exact Schema.find_eq_some_iff.mpr ⟨hmem, rfl⟩
      have hflip : ensure (a.ty = b.ty) (OpError.joinTypeMismatch a.name) =
          ensure (b.ty = a.ty) (.joinTypeMismatch a.name) := by
        unfold ensure
        simp only [eq_comm]
      rw [if_pos hcontains]
      simp only [checkPair, Schema.findOrUnknown, hleft, hright]
      exact hflip

/-- The checks of the desugared join are those of the natural join, in the same
order. -/
theorem checkPairs_fresh {left right renamed : Op} {fresh : AttributeName → AttributeName}
    (hrenamed : renamed.schema.attributes = right.schema.attributes.map fun a =>
      if a.name ∈ left.schema.shared right.schema then ⟨fresh a.name, a.ty⟩ else a) :
    forM (freshPairs left.schema right.schema fresh) (checkPair left renamed) =
      forM left.schema.attributes right.schema.agreesWith := by
  have hpairs : freshPairs left.schema right.schema fresh =
      (left.schema.attributes.filter fun a => right.schema.contains a.name).map fun a =>
        ⟨a.name, fresh a.name⟩ := by
    rw [freshPairs, Schema.shared, Schema.names, List.filter_map, List.map_map]
    rfl
  rw [hpairs, List.forM_map, forM_filter]
  apply forM_congr
  intro a ha
  exact checkPair_fresh hrenamed ha

section Projection

variable [Whittle]

/-- The projection of the desugared join drops the fresh columns, which leaves
the columns of the natural join. -/
theorem project_joined {left right renamed joined : Op} {fresh : AttributeName → AttributeName}
    {attrs : AttributeSet}
    (hrenamed : renamed.schema.attributes = right.schema.attributes.map fun a =>
      if a.name ∈ left.schema.shared right.schema then ⟨fresh a.name, a.ty⟩ else a)
    (hjoined : joined.schema.attributes = left.schema.attributes ++ renamed.schema.attributes)
    (hattrs : attrs.items = joinedNames left.schema right.schema) {s : Schema}
    (hs : s.attributes =
      Keyed.merge Attribute.name left.schema.attributes right.schema.attributes) :
    outcome (joined.project attrs) = .ok s := by
  have hselect : joined.schema.Selects (s.attributes.map Attribute.name) s.attributes := by
    apply Schema.Selects.of_subset
    intro a ha
    rw [hs, Keyed.merge, List.mem_append, List.mem_filter, decide_eq_true_iff] at ha
    rw [hjoined, List.mem_append]
    rcases ha with hleft | ⟨hright, hnew⟩
    · exact Or.inl hleft
    · exact Or.inr ((mem_renamed hrenamed hright).2 hnew)
  have hnames : s.attributes.map Attribute.name = attrs.items := by
    rw [hs, Keyed.map_key_merge, hattrs]
    rfl
  rw [hnames] at hselect
  rw [outcome_eq_ok]
  exact ⟨⟨.project joined attrs, s⟩, project_eq_ok.mpr ⟨rfl, hselect⟩, rfl⟩

/-- The pairs and the projected names of the desugared join are valid
operands. -/
theorem exists_operands {left right : Schema} (fresh : AttributeName → AttributeName)
    (hshare : left.shared right ≠ [])
    (hsize : left.cardinality + right.cardinality ≤ maxSchemaAttributes) :
    ∃ pairs attrs, EquiPairs.tryNew (freshPairs left right fresh) = .ok pairs ∧
      AttributeSet.tryNew (joinedNames left right) = .ok attrs := by
  have hlefts : (freshPairs left right fresh).map EquiPair.left = left.shared right := by
    rw [freshPairs, List.map_map]
    exact List.map_id _
  have hpairsLength : (freshPairs left right fresh).length = (left.shared right).length := by
    rw [← hlefts, List.length_map]
  have hsharedLength : (left.shared right).length ≤ left.cardinality := by
    rw [← Schema.length_attributes, ← List.length_map Attribute.name]
    exact List.length_filter_le _ _
  have hpairs : KeyedRule 1 maxSchemaAttributes EquiPair.left (freshPairs left right fresh) := by
    have hpos := List.length_pos_of_ne_nil hshare
    exact ⟨⟨by omega, by omega⟩, hlefts ▸ Schema.nodup_shared left right⟩
  have hjoined : joinedNames left right =
      (Keyed.merge Attribute.name left.attributes right.attributes).map Attribute.name :=
    Keyed.map_key_merge.symm
  have hattrs : KeyedRule 1 maxSchemaAttributes id (joinedNames left right) := by
    have hpos := Schema.one_le_merge left right
    have hle := List.length_filter_le (fun n => decide (n ∉ left.names)) right.names
    refine ⟨⟨?_, ?_⟩, ?_⟩
    · rwa [hjoined, List.length_map]
    · rw [joinedNames, List.length_append]
      simp only [Schema.names, List.length_map, Schema.length_attributes] at hle ⊢
      omega
    · rw [List.map_id, hjoined]
      exact Schema.nodup_merge left right
  exact ⟨⟨_, hpairs⟩, ⟨_, hattrs⟩, tryKeyed_eq_ok.mpr rfl, tryKeyed_eq_ok.mpr rfl⟩

/-- The desugared join has the outcome of the natural join. -/
theorem outcome_desugared {left right renamed : Op} {fresh : AttributeName → AttributeName}
    {pairs : EquiPairs} {attrs : AttributeSet} (kind : JoinKind)
    (hfresh : FreshNames left.schema right.schema fresh)
    (hrenamed : renamed.schema.attributes = right.schema.attributes.map fun a =>
      if a.name ∈ left.schema.shared right.schema then ⟨fresh a.name, a.ty⟩ else a)
    (hpairs : pairs.items = freshPairs left.schema right.schema fresh)
    (hattrs : attrs.items = joinedNames left.schema right.schema)
    (hsize : left.schema.cardinality + right.schema.cardinality ≤ maxSchemaAttributes) :
    outcome (left.join renamed kind (.equi pairs) >>= fun joined => joined.project attrs) =
      left.schema.naturalJoin right.schema := by
  have hdisjoint := disjoint_renamed hfresh hrenamed
  have hequi : outcome (left.join renamed kind (.equi pairs)) =
      forM left.schema.attributes right.schema.agreesWith >>= fun _ =>
        Schema.checked (left.schema.attributes ++ renamed.schema.attributes) := by
    rw [outcome_join_equi, hpairs, checkPairs_fresh hrenamed,
      concatDisjointSchemas_of_disjoint hdisjoint]
  unfold Schema.naturalJoin
  cases hcheck : forM left.schema.attributes right.schema.agreesWith with
  | error e =>
      rw [hcheck] at hequi
      have hjoin := outcome_eq_error.mp hequi
      rw [hjoin]
      rfl
  | ok u =>
      have hlength : renamed.schema.cardinality = right.schema.cardinality := by
        rw [← Schema.length_attributes, hrenamed, List.length_map, Schema.length_attributes]
      obtain ⟨concat, hconcat⟩ := Schema.exists_concat hdisjoint (hlength ▸ hsize)
      obtain ⟨merged, hmerged⟩ := Schema.exists_merge
        ((Schema.length_merge_le left.schema right.schema).trans hsize)
      have hok : outcome (left.join renamed kind (.equi pairs)) = .ok concat := by
        rw [hequi, hcheck]
        exact Schema.checked_eq_ok.mpr hconcat
      obtain ⟨joined, hjoin, rfl⟩ := outcome_eq_ok.mp hok
      have hproject := project_joined hrenamed hconcat hattrs hmerged
      have hmerge : Schema.checked
          (Keyed.merge Attribute.name left.schema.attributes right.schema.attributes) =
            .ok merged := Schema.checked_eq_ok.mpr hmerged
      rw [hjoin, hmerge]
      exact hproject

end Projection

section Kernel

variable [Whittle]

/-- A natural join is its textbook desugaring. For headers that share a name and
have at most 256 columns together, renaming the shared columns of right to fresh
names always succeeds, in any order, and the equi-join by the old and fresh names,
projected to the joined names, has the header of the natural join, or the
mismatch that it reports. -/
theorem natural_join_desugared {l r : Op} {fresh : AttributeName → AttributeName}
    (hshare : l.schema.shared r.schema ≠ [])
    (hsize : l.schema.cardinality + r.schema.cardinality ≤ maxSchemaAttributes)
    (hfresh : FreshNames l.schema r.schema fresh) (kind : JoinKind) {order : List AttributeName}
    (horder : order.Perm (l.schema.shared r.schema)) :
    ∃ renamed pairs attrs,
      r.renameAll (order.map fun name => (name, fresh name)) = .ok renamed ∧
      EquiPairs.tryNew (freshPairs l.schema r.schema fresh) = .ok pairs ∧
      AttributeSet.tryNew (joinedNames l.schema r.schema) = .ok attrs ∧
      outcome (do let joined ← l.join renamed kind (.equi pairs); joined.project attrs) =
        outcome (l.join r kind .natural) ∧
      ∀ e, l.join r kind .natural = .error e → ∃ attr, e = .joinTypeMismatch attr := by
  have hmem : ∀ name, name ∈ order ↔ name ∈ l.schema.shared r.schema := fun _ => horder.mem_iff
  have hrenamable : Renamable fresh r.schema order := by
    constructor
    · exact horder.nodup_iff.mpr (Schema.nodup_shared l.schema r.schema)
    · intro name hname
      exact (Schema.mem_shared.mp ((hmem name).mp hname)).2
    · intro name hname
      exact hfresh.notRight name ((hmem name).mp hname)
    · intro n hn m hm
      exact hfresh.injective n ((hmem n).mp hn) m ((hmem m).mp hm)
  obtain ⟨renamed, hrename, hrenamed⟩ := renameAll_fresh hrenamable
  simp only [hmem] at hrenamed
  obtain ⟨pairs, attrs, hpairs, hattrs⟩ := exists_operands fresh hshare hsize
  refine ⟨renamed, pairs, attrs, hrename, hpairs, hattrs, ?_, ?_⟩
  · rw [outcome_join_natural]
    exact outcome_desugared kind hfresh hrenamed (tryKeyed_eq_ok.mp hpairs)
      (tryKeyed_eq_ok.mp hattrs) hsize
  · intro e hjoin
    rw [← outcome_eq_error, outcome_join_natural, Schema.naturalJoin_eq_error] at hjoin
    rcases hjoin with hcheck | ⟨-, hlarge, -⟩
    · exact Schema.agreesWith_error hcheck
    · have hle := (Schema.length_merge_le l.schema r.schema).trans hsize
      exact absurd hle (Nat.not_le_of_lt hlarge)

end Kernel

end Op

namespace Catalogue

def contactId : AttributeName := ⟨"contact_id", by decide, by decide, by decide⟩

def contactName : AttributeName := ⟨"contact_name", by decide, by decide, by decide⟩

/-- Contacts with a total, under the columns of the users. -/
def contacts : Op := .source <| .table
  (.ofAttributes [⟨name, .string⟩, ⟨total, .int64⟩, ⟨id, .int64⟩] (by decide))
  ⟨"contacts", by decide⟩

/-- What the contacts can call the columns they share with the users. -/
def ofContact (shared : AttributeName) : AttributeName :=
  if shared = id then contactId else contactName

theorem ofContact_fresh : FreshNames users.schema contacts.schema ofContact where
  notLeft := by decide
  notRight := by decide
  injective := by decide

end Catalogue

/-- The users and the contacts share their ids and names. The contacts are renamed name
first. -/
theorem natural_join_desugared_contacts :
    ∃ renamed pairs attrs,
      Catalogue.contacts.renameAll [(Catalogue.name, Catalogue.contactName),
        (Catalogue.id, Catalogue.contactId)] = .ok renamed ∧
      EquiPairs.tryNew [⟨Catalogue.id, Catalogue.contactId⟩,
        ⟨Catalogue.name, Catalogue.contactName⟩] = .ok pairs ∧
      AttributeSet.tryNew [Catalogue.id, Catalogue.name, Catalogue.total] = .ok attrs ∧
      Op.outcome (do
        let joined ← Catalogue.users.join renamed .leftOuter (.equi pairs)
        joined.project attrs) =
          Op.outcome (Catalogue.users.join Catalogue.contacts .leftOuter .natural) := by
  have hshared : Catalogue.users.schema.shared Catalogue.contacts.schema =
      [Catalogue.id, Catalogue.name] := by decide
  have hpairs' : freshPairs Catalogue.users.schema Catalogue.contacts.schema
      Catalogue.ofContact = [⟨Catalogue.id, Catalogue.contactId⟩,
        ⟨Catalogue.name, Catalogue.contactName⟩] := by decide
  have hjoined : joinedNames Catalogue.users.schema Catalogue.contacts.schema =
      [Catalogue.id, Catalogue.name, Catalogue.total] := by decide
  have horder : [Catalogue.name, Catalogue.id].Perm
      (Catalogue.users.schema.shared Catalogue.contacts.schema) := by
    rw [hshared]
    exact .swap _ _ _
  obtain ⟨renamed, pairs, attrs, hrename, hpairs, hattrs, houtcome, -⟩ :=
    Op.natural_join_desugared (by rw [hshared]; decide) (by decide) Catalogue.ofContact_fresh
      .leftOuter horder
  rw [hpairs'] at hpairs
  rw [hjoined] at hattrs
  exact ⟨renamed, pairs, attrs, hrename, hpairs, hattrs, houtcome⟩

end AxiomCore
