import AxiomCore.Calls
import AxiomCore.Outcome

/-!
The laws of the natural join. Its outcome is that of the natural join of the
two headers, which is a union of finite maps: associative, idempotent and
commutative up to the order of the columns, whatever the kinds of the joins and
whichever of them are built as products. The product shortcut is canonical:
it is taken exactly for the inner join of headers that share no name.
-/

namespace AxiomCore

open Checked Refined

namespace Schema

theorem agreesWith_eq_ok {right : Schema} {l : Attribute} {u : Unit} :
    right.agreesWith l = .ok u ↔ ∀ r ∈ right.attributes, l.name = r.name → l = r := by
  unfold agreesWith
  cases hfind : right.find l.name with
  | none =>
      have habsent := find_eq_none_iff.mp hfind
      simp only [true_iff]
      intro r hr hname
      rw [hname] at habsent
      exact absurd (mem_names_of_mem hr) habsent
  | some r =>
      obtain ⟨hr, hname⟩ := find_eq_some_iff.mp hfind
      rw [ensure_eq_ok]
      constructor
      · intro hty r' hr' hname'
        obtain rfl := eq_of_mem hr' hr (hname'.symm.trans hname.symm)
        cases l
        cases r'
        simp_all
      · intro hagree
        rw [hagree r hr hname.symm]

/-- A failed check of a shared column is a type mismatch. -/
theorem agreesWith_error {right : Schema} {columns : List Attribute} {e : OpError}
    (h : forM columns right.agreesWith = .error e) : ∃ attr, e = .joinTypeMismatch attr := by
  obtain ⟨i, l, -, hfail, -⟩ := (forM_eq_error _ _ _).mp h
  refine ⟨l.name, ?_⟩
  unfold agreesWith at hfail
  split at hfail
  · exact ((ensure_eq_error _ _ _).mp hfail).2.symm
  · exact absurd hfail nofun

theorem forM_agreesWith_eq_ok {left right : Schema} {u : Unit} :
    forM left.attributes right.agreesWith = .ok u ↔
      Keyed.Agree Attribute.name left.attributes right.attributes := by
  simp only [forM_eq_ok, agreesWith_eq_ok, Keyed.Agree]

/-- The merged columns of two headers have distinct names, and there is at
least one. -/
theorem nodup_merge (left right : Schema) :
    ((Keyed.merge Attribute.name left.attributes right.attributes).map Attribute.name).Nodup :=
  Keyed.nodup_merge left.nodup_names right.nodup_names

theorem one_le_merge (left right : Schema) :
    1 ≤ (Keyed.merge Attribute.name left.attributes right.attributes).length :=
  left.headerRule.min_le.trans Keyed.length_le_merge_left

/-- The merged columns of two headers are a header when they are not too
many. -/
theorem exists_merge {left right : Schema}
    (hle : (Keyed.merge Attribute.name left.attributes right.attributes).length ≤
      maxSchemaAttributes) :
    ∃ s : Schema, s.attributes = Keyed.merge Attribute.name left.attributes right.attributes :=
  exists_attributes_iff.mpr ⟨⟨one_le_merge left right, hle⟩, nodup_merge left right⟩

theorem length_merge_le (left right : Schema) :
    (Keyed.merge Attribute.name left.attributes right.attributes).length ≤
      left.cardinality + right.cardinality := by
  rw [Keyed.merge, List.length_append, ← length_attributes, ← length_attributes]
  exact Nat.add_le_add_left (List.length_filter_le _ _) _

/-- Headers that share no name and fit together concatenate to a header. -/
theorem exists_concat {left right : Schema} (hdisjoint : ∀ name ∈ left.names, name ∉ right.names)
    (hsize : left.cardinality + right.cardinality ≤ maxSchemaAttributes) :
    ∃ s : Schema, s.attributes = left.attributes ++ right.attributes := by
  rw [← Keyed.merge_of_disjoint hdisjoint]
  exact exists_merge ((length_merge_le left right).trans hsize)

section NaturalJoin

variable [Whittle]

theorem naturalJoin_eq_ok {left right s : Schema} :
    left.naturalJoin right = .ok s ↔
      Keyed.Agree Attribute.name left.attributes right.attributes ∧
        s.attributes = Keyed.merge Attribute.name left.attributes right.attributes := by
  simp only [naturalJoin, bind_eq_ok, forM_agreesWith_eq_ok, checked_eq_ok, exists_const]

/-- A natural join fails on the first shared column with two types, and else
only when the union of the columns is too large. -/
theorem naturalJoin_eq_error {left right : Schema} {e : OpError} :
    left.naturalJoin right = .error e ↔
      forM left.attributes right.agreesWith = .error e ∨
        Keyed.Agree Attribute.name left.attributes right.attributes ∧
          maxSchemaAttributes <
            (Keyed.merge Attribute.name left.attributes right.attributes).length ∧
          e = .schema (.cardinality
            (Keyed.merge Attribute.name left.attributes right.attributes).length) := by
  simp only [naturalJoin, bind_eq_error, forM_agreesWith_eq_ok, exists_const,
    checked_eq_error_of_nodup (nodup_merge left right) (one_le_merge left right)]

/-- Headers that disagree on a shared column fail with a type mismatch, however
many columns they have together. -/
theorem naturalJoin_mismatch {left right : Schema}
    (h : ¬ Keyed.Agree Attribute.name left.attributes right.attributes) :
    ∃ attr, left.naturalJoin right = .error (.joinTypeMismatch attr) := by
  cases hcheck : forM left.attributes right.agreesWith with
  | ok u => exact absurd (forM_agreesWith_eq_ok.mp hcheck) h
  | error e =>
      obtain ⟨attr, rfl⟩ := agreesWith_error hcheck
      exact ⟨attr, naturalJoin_eq_error.mpr (Or.inl hcheck)⟩

/-- Joining to the left first: the three headers agree and all their columns
fit. -/
theorem naturalJoin_left_eq_ok {a b c s : Schema} :
    (a.naturalJoin b >>= fun ab => ab.naturalJoin c) = .ok s ↔
      (Keyed.Agree Attribute.name a.attributes b.attributes ∧
        Keyed.Agree Attribute.name
          (Keyed.merge Attribute.name a.attributes b.attributes) c.attributes) ∧
      s.attributes = Keyed.merge Attribute.name
        (Keyed.merge Attribute.name a.attributes b.attributes) c.attributes := by
  simp only [bind_eq_ok, naturalJoin_eq_ok]
  constructor
  · rintro ⟨ab, ⟨hab, hmerge⟩, habc, hs⟩
    rw [hmerge] at habc hs
    exact ⟨⟨hab, habc⟩, hs⟩
  · rintro ⟨⟨hab, habc⟩, hs⟩
    have hfits : (Keyed.merge Attribute.name a.attributes b.attributes).length ≤
        maxSchemaAttributes := by
      have hle := s.headerRule.le_max
      rw [hs] at hle
      exact Keyed.length_le_merge_left.trans hle
    obtain ⟨ab, hmerge⟩ := exists_merge hfits
    refine ⟨ab, ⟨hab, hmerge⟩, ?_⟩
    rw [hmerge]
    exact ⟨habc, hs⟩

/-- Joining to the right first. -/
theorem naturalJoin_right_eq_ok {a b c s : Schema} :
    (b.naturalJoin c >>= fun bc => a.naturalJoin bc) = .ok s ↔
      (Keyed.Agree Attribute.name b.attributes c.attributes ∧
        Keyed.Agree Attribute.name a.attributes
          (Keyed.merge Attribute.name b.attributes c.attributes)) ∧
      s.attributes = Keyed.merge Attribute.name a.attributes
        (Keyed.merge Attribute.name b.attributes c.attributes) := by
  simp only [bind_eq_ok, naturalJoin_eq_ok]
  constructor
  · rintro ⟨bc, ⟨hbc, hmerge⟩, habc, hs⟩
    rw [hmerge] at habc hs
    exact ⟨⟨hbc, habc⟩, hs⟩
  · rintro ⟨⟨hbc, habc⟩, hs⟩
    have hfits : (Keyed.merge Attribute.name b.attributes c.attributes).length ≤
        maxSchemaAttributes := by
      have hle := s.headerRule.le_max
      rw [hs] at hle
      exact (Keyed.length_le_merge_right (nodup_merge b c)).trans hle
    obtain ⟨bc, hmerge⟩ := exists_merge hfits
    refine ⟨bc, ⟨hbc, hmerge⟩, ?_⟩
    rw [hmerge]
    exact ⟨habc, hs⟩

theorem naturalJoin_assoc (a b c s : Schema) :
    (a.naturalJoin b >>= fun ab => ab.naturalJoin c) = .ok s ↔
      (b.naturalJoin c >>= fun bc => a.naturalJoin bc) = .ok s := by
  rw [naturalJoin_left_eq_ok, naturalJoin_right_eq_ok, Keyed.agree_assoc, Keyed.merge_assoc]

theorem naturalJoin_self (a : Schema) : a.naturalJoin a = .ok a := by
  rw [naturalJoin_eq_ok, Keyed.merge_self]
  exact ⟨fun _ hx _ hy hname => eq_of_mem hx hy hname, rfl⟩

theorem naturalJoin_perm {a b ab ba : Schema} (hab : a.naturalJoin b = .ok ab)
    (hba : b.naturalJoin a = .ok ba) : ab.attributes.Perm ba.attributes := by
  obtain ⟨hagree, hmerge⟩ := naturalJoin_eq_ok.mp hab
  obtain ⟨-, hmerge'⟩ := naturalJoin_eq_ok.mp hba
  rw [hmerge, hmerge']
  exact Keyed.merge_perm hagree a.nodup_names b.nodup_names

end NaturalJoin

end Schema

/-- Two failures of one kind: mismatches of shared columns, or headers that are
too large by the same count. -/
inductive SameFailure : OpError → OpError → Prop
  | mismatch (attr attr' : AttributeName) :
      SameFailure (.joinTypeMismatch attr) (.joinTypeMismatch attr')
  | cardinality (actual : Nat) :
      SameFailure (.schema (.cardinality actual)) (.schema (.cardinality actual))

namespace Schema

variable [Whittle]

/-- Swapping the sides keeps the outcome up to the order of the columns and the
shared column that a mismatch names. -/
theorem naturalJoin_comm (a b : Schema) :
    (∃ ab ba, a.naturalJoin b = .ok ab ∧ b.naturalJoin a = .ok ba ∧
        ab.attributes.Perm ba.attributes) ∨
      ∃ e e', a.naturalJoin b = .error e ∧ b.naturalJoin a = .error e' ∧ SameFailure e e' := by
  by_cases hagree : Keyed.Agree Attribute.name a.attributes b.attributes
  · have hperm := Keyed.merge_perm hagree a.nodup_names b.nodup_names
    by_cases hfits : (Keyed.merge Attribute.name a.attributes b.attributes).length ≤
        maxSchemaAttributes
    · obtain ⟨ab, hab⟩ := exists_merge hfits
      obtain ⟨ba, hba⟩ := exists_merge (hperm.length_eq ▸ hfits)
      have hleft := naturalJoin_eq_ok.mpr ⟨hagree, hab⟩
      have hright := naturalJoin_eq_ok.mpr ⟨hagree.symm, hba⟩
      exact Or.inl ⟨ab, ba, hleft, hright, naturalJoin_perm hleft hright⟩
    · have hlarge := Nat.lt_of_not_le hfits
      have hleft := naturalJoin_eq_error.mpr (Or.inr ⟨hagree, hlarge, rfl⟩)
      have hright := naturalJoin_eq_error.mpr
        (Or.inr ⟨hagree.symm, hperm.length_eq ▸ hlarge, rfl⟩)
      refine Or.inr ⟨_, _, hleft, hright, ?_⟩
      rw [hperm.length_eq]
      exact .cardinality _
  · obtain ⟨attr, hleft⟩ := naturalJoin_mismatch hagree
    obtain ⟨attr', hright⟩ := naturalJoin_mismatch fun h => hagree h.symm
    exact Or.inr ⟨_, _, hleft, hright, .mismatch attr attr'⟩

end Schema

namespace Op

section Laws

variable [Whittle]

theorem outcome_natural_left (a b c : Op) (k k' : JoinKind) :
    outcome (a.join b k .natural >>= fun ab => ab.join c k' .natural) =
      a.schema.naturalJoin b.schema >>= fun ab => ab.naturalJoin c.schema := by
  simp only [outcome_bind, outcome_join_natural]
  rw [bind_schema (a.join b k .natural) fun ab => ab.naturalJoin c.schema, outcome_join_natural]

theorem outcome_natural_right (a b c : Op) (k k' : JoinKind) :
    outcome (b.join c k .natural >>= fun bc => a.join bc k' .natural) =
      b.schema.naturalJoin c.schema >>= fun bc => a.schema.naturalJoin bc := by
  simp only [outcome_bind, outcome_join_natural]
  rw [bind_schema (b.join c k .natural) fun bc => a.schema.naturalJoin bc, outcome_join_natural]

theorem outcome_product_eq_ok {left right : Op} {s : Schema} :
    outcome (left.product right) = .ok s ↔
      s.attributes = left.schema.attributes ++ right.schema.attributes := by
  rw [outcome_product, concatDisjointSchemas_eq_ok]

theorem product_assoc (a b c : Op) (s : Schema) :
    outcome (a.product b >>= fun ab => ab.product c) = .ok s ↔
      outcome (b.product c >>= fun bc => a.product bc) = .ok s := by
  simp only [outcome_bind, bind_eq_ok, outcome_product_eq_ok]
  constructor
  · rintro ⟨ab, hab, hs⟩
    rw [(product_eq_ok.mp hab).2, List.append_assoc] at hs
    have hsub : (b.schema.attributes ++ c.schema.attributes).Sublist s.attributes :=
      hs ▸ List.sublist_append_right _ _
    have hpos : 1 ≤ (b.schema.attributes ++ c.schema.attributes).length := by
      have hb := b.schema.headerRule.min_le
      rw [List.length_append]
      omega
    obtain ⟨bc, hbc⟩ := Schema.exists_part hsub hpos
    refine ⟨⟨.product b c, bc⟩, product_eq_ok.mpr ⟨rfl, hbc⟩, ?_⟩
    rw [hs, hbc]
  · rintro ⟨bc, hbc, hs⟩
    rw [(product_eq_ok.mp hbc).2, ← List.append_assoc] at hs
    have hsub : (a.schema.attributes ++ b.schema.attributes).Sublist s.attributes :=
      hs ▸ List.sublist_append_left _ _
    have hpos : 1 ≤ (a.schema.attributes ++ b.schema.attributes).length := by
      have ha := a.schema.headerRule.min_le
      rw [List.length_append]
      omega
    obtain ⟨ab, hab⟩ := Schema.exists_part hsub hpos
    refine ⟨⟨.product a b, ab⟩, product_eq_ok.mpr ⟨rfl, hab⟩, ?_⟩
    rw [hs, hab]

theorem join_natural_comm (a b : Op) (k k' : JoinKind) :
    ((∃ ab, a.join b k .natural = .ok ab) ↔ ∃ ba, b.join a k' .natural = .ok ba) ∧
      (∀ ab ba, a.join b k .natural = .ok ab → b.join a k' .natural = .ok ba →
        ab.schema.attributes.Perm ba.schema.attributes) ∧
      ∀ e e', a.join b k .natural = .error e → b.join a k' .natural = .error e' →
        SameFailure e e' := by
  have hcases := Schema.naturalJoin_comm a.schema b.schema
  rw [← outcome_join_natural a b k, ← outcome_join_natural b a k'] at hcases
  rcases hcases with ⟨_, _, hleft, hright, hperm⟩ | ⟨f, f', hleft, hright, hsame⟩
  · obtain ⟨ab, hab, rfl⟩ := outcome_eq_ok.mp hleft
    obtain ⟨ba, hba, rfl⟩ := outcome_eq_ok.mp hright
    refine ⟨⟨fun _ => ⟨ba, hba⟩, fun _ => ⟨ab, hab⟩⟩, ?_, ?_⟩
    · intro ab' ba' hab' hba'
      obtain rfl := Except.ok.inj (hab.symm.trans hab')
      obtain rfl := Except.ok.inj (hba.symm.trans hba')
      exact hperm
    · intro e e' he
      exact absurd (hab.symm.trans he) nofun
  · rw [outcome_eq_error] at hleft hright
    refine ⟨⟨?_, ?_⟩, ?_, ?_⟩
    · rintro ⟨ab, hok⟩
      exact absurd (hleft.symm.trans hok) nofun
    · rintro ⟨ba, hok⟩
      exact absurd (hright.symm.trans hok) nofun
    · intro ab ba hok
      exact absurd (hleft.symm.trans hok) nofun
    · intro e e' he he'
      obtain rfl := Except.error.inj (hleft.symm.trans he)
      obtain rfl := Except.error.inj (hright.symm.trans he')
      exact hsame

/-- A natural join never reports a name that stands on both sides. -/
theorem join_natural_ne_duplicate (left right : Op) (kind : JoinKind) (attr : AttributeName) :
    left.join right kind .natural ≠ .error (.duplicateAcrossOperands attr) := by
  intro hjoin
  rw [← outcome_eq_error, outcome_join_natural, Schema.naturalJoin_eq_error] at hjoin
  rcases hjoin with hcheck | ⟨-, -, hcardinality⟩
  · obtain ⟨attr', hmismatch⟩ := Schema.agreesWith_error hcheck
    exact absurd hmismatch nofun
  · exact absurd hcardinality nofun

/-- Over headers that share no name a natural join has the outcome of the
product, whatever its kind. -/
theorem outcome_join_natural_of_disjoint {left right : Op} (kind : JoinKind)
    (hdisjoint : ∀ name ∈ left.schema.names, name ∉ right.schema.names) :
    outcome (left.join right kind .natural) = outcome (left.product right) := by
  have hagree : forM left.schema.attributes right.schema.agreesWith = .ok () := by
    rw [Schema.forM_agreesWith_eq_ok]
    intro l hl r hr hname
    have hleft := Schema.mem_names_of_mem hl
    have hright := Schema.mem_names_of_mem hr
    rw [hname] at hleft
    exact absurd hright (hdisjoint _ hleft)
  rw [outcome_join_natural, Schema.naturalJoin, hagree, outcome_product,
    concatDisjointSchemas_of_disjoint hdisjoint, Keyed.merge_of_disjoint hdisjoint]
  rfl

/-- A natural join is built as a product exactly when it is inner and its sides
share no name, and as itself otherwise. -/
theorem join_natural_kind {left right op : Op} {kind : JoinKind}
    (hjoin : left.join right kind .natural = .ok op) :
    (op.kind = .product left right ↔
        kind = .inner ∧ ∀ name ∈ left.schema.names, name ∉ right.schema.names) ∧
      (op.kind = .join left right kind .natural ↔
        ¬ (kind = .inner ∧ ∀ name ∈ left.schema.names, name ∉ right.schema.names)) := by
  obtain ⟨-, -, hkind⟩ := join_natural_eq_ok.mp hjoin
  by_cases hproduct : kind = .inner ∧ ∀ name ∈ left.schema.names, name ∉ right.schema.names
  · rw [if_pos hproduct] at hkind
    rw [hkind]
    exact ⟨iff_of_true rfl hproduct, iff_of_false nofun (not_not_intro hproduct)⟩
  · rw [if_neg hproduct] at hkind
    rw [hkind]
    exact ⟨iff_of_false nofun hproduct, iff_of_true rfl hproduct⟩

/-- A natural join node that a call made shares columns of one type, and could
not have been a product. -/
def CanonicalJoin (node : Op) : Prop :=
  ∀ left right kind, node.kind = .join left right kind .natural →
    ¬ (kind = .inner ∧ ∀ name ∈ left.schema.names, name ∉ right.schema.names) ∧
      TypesAgree left.schema right.schema

theorem canonicalJoin_of_run {call : Call} {op : Op} (hrun : call.run = .ok op) :
    op.CanonicalJoin := by
  intro left right kind hnode
  have hkind := Call.kind_of_run hrun
  rw [hnode] at hkind
  cases call with
  | join l r k joinOn =>
      have hjoin : l.join r k joinOn = .ok op := hrun
      rcases Call.kind_join l r k joinOn with hproduct | hjoined
      · rw [hproduct] at hkind
        exact absurd hkind nofun
      · rw [hjoined] at hkind
        cases hkind
        exact ⟨(join_natural_kind hjoin).2.mp hnode, (join_natural_eq_ok.mp hjoin).1⟩
  | _ => exact absurd hkind nofun

end Laws

end Op

section Kernel

variable [Whittle]

/-- Natural joins of any kinds can be regrouped, swapped up to the order of the
columns, and repeated. A swap fails as the join does, by a mismatch whenever
the headers disagree on a shared column. Products can be regrouped. -/
theorem natural_join_laws :
    (∀ (a b c : Op) (k₁ k₂ k₃ k₄ : JoinKind) (s : Schema),
      Op.outcome (do let ab ← a.join b k₁ .natural; ab.join c k₂ .natural) = .ok s ↔
        Op.outcome (do let bc ← b.join c k₃ .natural; a.join bc k₄ .natural) = .ok s) ∧
    (∀ (a b : Op) (k k' : JoinKind),
      ((∃ ab, a.join b k .natural = .ok ab) ↔ ∃ ba, b.join a k' .natural = .ok ba) ∧
        (∀ ab ba, a.join b k .natural = .ok ab → b.join a k' .natural = .ok ba →
          ab.schema.attributes.Perm ba.schema.attributes) ∧
        ∀ e e', a.join b k .natural = .error e → b.join a k' .natural = .error e' →
          SameFailure e e') ∧
    (∀ (a b : Op) (k : JoinKind), ¬ Op.TypesAgree a.schema b.schema →
      ∃ attr, a.join b k .natural = .error (.joinTypeMismatch attr)) ∧
    (∀ (a : Op) (k : JoinKind), ∃ aa, a.join a k .natural = .ok aa ∧ aa.schema = a.schema) ∧
    (∀ (a b c : Op) (s : Schema),
      Op.outcome (do let ab ← a.product b; ab.product c) = .ok s ↔
        Op.outcome (do let bc ← b.product c; a.product bc) = .ok s) := by
  refine ⟨?_, Op.join_natural_comm, ?_, ?_, Op.product_assoc⟩
  · intro a b c k₁ k₂ k₃ k₄ s
    rw [Op.outcome_natural_left, Op.outcome_natural_right]
    exact Schema.naturalJoin_assoc a.schema b.schema c.schema s
  · intro a b k hdisagree
    rw [Op.typesAgree_iff] at hdisagree
    obtain ⟨attr, hmismatch⟩ := Schema.naturalJoin_mismatch hdisagree
    rw [← Op.outcome_join_natural a b k, Op.outcome_eq_error] at hmismatch
    exact ⟨attr, hmismatch⟩
  · intro a k
    rw [← Op.outcome_eq_ok, Op.outcome_join_natural]
    exact Schema.naturalJoin_self a.schema

/-- The product shortcut of the natural join is canonical, and agrees with the
general path: on disjoint headers a natural join of any kind has the outcome of
the product. In a reachable tree no natural join could have been a product, and
the columns that its sides share have one type. -/
theorem natural_join_canonical :
    (∀ (l r op : Op) (kind : JoinKind), l.join r kind .natural = .ok op →
      (op.kind = .product l r ↔
          kind = .inner ∧ ∀ name ∈ l.schema.names, name ∉ r.schema.names) ∧
        (op.kind = .join l r kind .natural ↔
          ¬ (kind = .inner ∧ ∀ name ∈ l.schema.names, name ∉ r.schema.names))) ∧
    (∀ (l r : Op) (kind : JoinKind), (∀ name ∈ l.schema.names, name ∉ r.schema.names) →
      Op.outcome (l.join r kind .natural) = Op.outcome (l.product r)) ∧
    (∀ (l r : Op) (kind : JoinKind) (attr : AttributeName),
      l.join r kind .natural ≠ .error (.duplicateAcrossOperands attr)) ∧
    (∀ op node : Op, op.Reachable → op.Node node → node.CanonicalJoin) := by
  refine ⟨?_, ?_, Op.join_natural_ne_duplicate, ?_⟩
  · intro l r op kind hjoin
    exact Op.join_natural_kind hjoin
  · intro l r kind hdisjoint
    exact Op.outcome_join_natural_of_disjoint kind hdisjoint
  · intro op node hop hnode
    apply hop.forall_node _ hnode
    intro call made hrun
    exact Op.canonicalJoin_of_run hrun

end Kernel

/-- The users join with their orders and with themselves, in either grouping. -/
theorem natural_join_laws_users :
    ∃ s, Op.outcome (do
        let joined ← Catalogue.users.join Catalogue.orders .leftOuter .natural
        joined.join Catalogue.users .inner .natural) = .ok s ∧
      Op.outcome (do
        let joined ← Catalogue.orders.join Catalogue.users .fullOuter .natural
        Catalogue.users.join joined .rightOuter .natural) = .ok s := by
  obtain ⟨s, hs⟩ : ∃ s, Op.outcome (do
      let joined ← Catalogue.users.join Catalogue.orders .leftOuter .natural
      joined.join Catalogue.users .inner .natural) = .ok s := ⟨_, rfl⟩
  exact ⟨s, hs, (natural_join_laws.1 _ _ _ _ _ _ _ s).mp hs⟩

/-- The totals of the orders, which share no name with the users. -/
def Catalogue.totals : Op := .source <| .table
  (.ofAttributes [⟨total, .int64⟩] (by decide)) ⟨"totals", by decide⟩

/-- The users joined with the totals are a product, and by an outer join they are
not, with the same header. -/
theorem natural_join_canonical_users :
    (∃ op, Catalogue.users.join Catalogue.totals .inner .natural = .ok op ∧
        op.kind = .product Catalogue.users Catalogue.totals) ∧
      Op.outcome (Catalogue.users.join Catalogue.totals .leftOuter .natural) =
        Op.outcome (Catalogue.users.product Catalogue.totals) := by
  have hdisjoint : ∀ name ∈ Catalogue.users.schema.names,
      name ∉ Catalogue.totals.schema.names := by decide
  obtain ⟨hkind, hproduct, -⟩ := natural_join_canonical
  obtain ⟨op, hjoin⟩ :
      ∃ op, Catalogue.users.join Catalogue.totals .inner .natural = .ok op := ⟨_, rfl⟩
  exact ⟨⟨op, hjoin, (hkind _ _ _ _ hjoin).1.mpr ⟨rfl, hdisjoint⟩⟩, hproduct _ _ _ hdisjoint⟩

end AxiomCore
