import AxiomCore.Calls

/-!
Reading a tree back as constructor calls. A node names the constructor that
makes it and holds its inputs, so a tree can be rebuilt from its shape alone,
without its caches. The reachable trees are exactly those that come back
unchanged: the constructors, run again over the parts of each node, decide
whether a tree could have been built.
-/

namespace AxiomCore

open Checked Construction

/-- The call over other inputs, with the same parameters. -/
def Call.mapInputs (f : Op → Op) : Call → Call
  | .source src => .source src
  | .project input attrs => .project (f input) attrs
  | .restrict input predicate => .restrict (f input) predicate
  | .rename input fromName toName => .rename (f input) fromName toName
  | .order input keys => .order (f input) keys
  | .limit input offset count => .limit (f input) offset count
  | .extend input name expr => .extend (f input) name expr
  | .modify input path sub => .modify (f input) path (f sub)
  | .unnest input path => .unnest (f input) path
  | .nest input attrs into => .nest (f input) attrs into
  | .summarize input keys aggs => .summarize (f input) keys aggs
  | .union left right => .union (f left) (f right)
  | .intersect left right => .intersect (f left) (f right)
  | .difference left right => .difference (f left) (f right)
  | .join left right kind joinOn => .join (f left) (f right) kind joinOn
  | .product left right => .product (f left) (f right)

theorem Call.inputs_mapInputs (f : Op → Op) (call : Call) :
    (call.mapInputs f).inputs = call.inputs.map f := by
  cases call <;> rfl

theorem Call.mapInputs_eq_self {f : Op → Op} {call : Call}
    (hfixed : ∀ input ∈ call.inputs, f input = input) : call.mapInputs f = call := by
  cases call <;> simp_all [mapInputs, inputs]

/-- The call of the constructor that a node is named after, over its parts. -/
def OpKind.call : OpKind → Call
  | .source src => .source src
  | .project input attrs => .project input attrs
  | .restrict input predicate => .restrict input predicate
  | .rename input fromName toName => .rename input fromName toName
  | .extend input name expr => .extend input name expr
  | .join left right kind joinOn => .join left right kind joinOn
  | .product left right => .product left right
  | .union left right => .union left right
  | .intersect left right => .intersect left right
  | .difference left right => .difference left right
  | .summarize input keys aggs => .summarize input keys aggs
  | .order input keys => .order input keys
  | .limit input offset count => .limit input offset count
  | .modify input path sub => .modify input path sub
  | .unnest input path => .unnest input path
  | .nest input attrs into => .nest input attrs into

theorem OpKind.inputs_call (kind : OpKind) : kind.call.inputs = kind.parts := by
  cases kind <;> rfl

/-- Only a natural join built as a product is named after another constructor. -/
theorem Call.call_kind (call : Call) : call.kind.call = call ∨
    ∃ left right kind, call = .join left right kind .natural ∧
      call.kind = .product left right := by
  cases call with
  | join left right kind joinOn =>
      rcases kind_join left right kind joinOn with hkind | hkind
      · cases joinOn with
        | natural => exact Or.inr ⟨left, right, kind, rfl, hkind⟩
        | equi pairs | theta predicate => exact Or.inl rfl
      · exact Or.inl (by rw [hkind]; rfl)
  | _ => exact Or.inl rfl

mutual

/-- What holds of a node once it holds of its parts holds of every tree. -/
theorem OpKind.forall_parts {P : Op → Prop} (h : ∀ op, (∀ part ∈ op.kind.parts, P part) → P op) :
    ∀ (kind : OpKind), ∀ part ∈ kind.parts, P part
  | .source _ => by simp [OpKind.parts]
  | .project input _ | .restrict input _ | .rename input _ _ | .order input _ | .limit input _ _
  | .extend input _ _ | .unnest input _ | .nest input _ _ | .summarize input _ _ => by
    have hinput := Op.induction_parts h input
    simpa [OpKind.parts] using hinput
  | .modify input _ sub => by
    have hinput := Op.induction_parts h input
    have hsub := Op.induction_parts h sub
    simpa [OpKind.parts] using ⟨hinput, hsub⟩
  | .union left right | .intersect left right | .difference left right | .join left right _ _
  | .product left right => by
    have hleft := Op.induction_parts h left
    have hright := Op.induction_parts h right
    simpa [OpKind.parts] using ⟨hleft, hright⟩

theorem Op.induction_parts {P : Op → Prop}
    (h : ∀ op, (∀ part ∈ op.kind.parts, P part) → P op) : ∀ op, P op
  | ⟨kind, schema⟩ => h ⟨kind, schema⟩ (OpKind.forall_parts h kind)

end

section Kernel

variable [Whittle]

/-- A natural join built as a product is that product. -/
theorem Op.product_of_join {left right op : Op} {kind : JoinKind}
    (hjoin : left.join right kind .natural = .ok op) (hkind : op.kind = .product left right) :
    left.product right = .ok op :=
  product_eq_ok.mpr ⟨hkind, join_natural_product hjoin hkind⟩

/-- The call read off a node that a call made makes it again. -/
theorem Op.run_call {call : Call} {op : Op} (hrun : call.run = .ok op) :
    op.kind.call.run = .ok op := by
  rw [Call.kind_of_run hrun]
  rcases call.call_kind with hsame | ⟨left, right, kind, rfl, hkind⟩
  · rw [hsame]
    exact hrun
  · have hshape := Call.kind_of_run hrun
    rw [hkind] at hshape ⊢
    exact product_of_join hrun hshape

/-- Operators name the constructor that makes them. -/
def kernelReadBack : ReadBack kernel where
  call op := op.kind.call
  inputs_call op := op.kind.inputs_call
  run_call := Op.run_call

/-- A tree is reachable exactly when at every node the constructor it is named
after, run over the node's own parts, makes that node. -/
theorem Op.reachable_iff_nodes {op : Op} :
    op.Reachable ↔ ∀ node, op.Node node → node.kind.call.run = .ok node :=
  kernelReadBack.reachable_iff_nodes fun _ => Op.induction_parts

end Kernel

section Replay

variable [Whittle]

mutual

/-- Rebuild a tree from the leaves up. No cached header is read. -/
def OpKind.replay : OpKind → Except OpError Op
  | .source src => .ok (Op.source src)
  | .project input attrs => do (← input.replay).project attrs
  | .restrict input predicate => do (← input.replay).restrict predicate
  | .rename input fromName toName => do (← input.replay).rename fromName toName
  | .extend input name expr => do (← input.replay).extend name expr
  | .join left right kind joinOn => do (← left.replay).join (← right.replay) kind joinOn
  | .product left right => do (← left.replay).product (← right.replay)
  | .union left right => do (← left.replay).union (← right.replay)
  | .intersect left right => do (← left.replay).intersect (← right.replay)
  | .difference left right => do (← left.replay).difference (← right.replay)
  | .summarize input keys aggs => do (← input.replay).summarize keys aggs
  | .order input keys => do pure ((← input.replay).order keys)
  | .limit input offset count => do pure ((← input.replay).limit offset count)
  | .modify input path sub => do (← input.replay).modify path (← sub.replay)
  | .unnest input path => do (← input.replay).unnest path
  | .nest input attrs into => do (← input.replay).nest attrs into

def Op.replay : Op → Except OpError Op
  | ⟨kind, _⟩ => kind.replay

end

theorem Op.replay_eq (op : Op) : op.replay = op.kind.replay := by
  cases op
  rfl

/-- What an operator is rebuilt to, when that succeeds. -/
def Op.replayed (op : Op) : Op :=
  match op.replay with
  | .ok built => built
  | .error _ => op

theorem Op.replayed_eq {op built : Op} (h : op.replay = .ok built) : op.replayed = built := by
  simp [replayed, h]

/-- A step over a rebuilt part. -/
theorem Op.replay_bind {part op : Op} {next : Op → Except OpError Op} :
    (part.replay >>= next) = .ok op ↔
      (∃ built, part.replay = .ok built) ∧ next part.replayed = .ok op := by
  rw [bind_eq_ok]
  constructor
  · intro h
    obtain ⟨built, hpart, hnext⟩ := h
    refine ⟨⟨built, hpart⟩, ?_⟩
    rwa [replayed_eq hpart]
  · intro h
    obtain ⟨⟨built, hpart⟩, hnext⟩ := h
    rw [replayed_eq hpart] at hnext
    exact ⟨built, hpart, hnext⟩

/-- A node is rebuilt by its own constructor over its rebuilt parts. -/
theorem OpKind.replay_eq_ok {kind : OpKind} {op : Op} :
    kind.replay = .ok op ↔ (∀ part ∈ kind.parts, ∃ built, part.replay = .ok built) ∧
      (kind.call.mapInputs Op.replayed).run = .ok op := by
  cases kind with
  | source src => simp [replay, parts, call, Call.mapInputs, Call.run]
  | project input attrs | restrict input predicate | rename input fromName toName
  | extend input name expr | summarize input keys aggs | unnest input path
  | nest input attrs into =>
      simp only [replay, Op.replay_bind, parts, List.forall_mem_singleton, call, Call.mapInputs,
        Call.run]
  | order input keys | limit input offset count =>
      simp only [replay, Op.replay_bind, parts, List.forall_mem_singleton, call, Call.mapInputs,
        Call.run]
      rfl
  | join left right kind joinOn | product left right | union left right | intersect left right
  | difference left right | modify input path sub =>
      simp only [replay, Op.replay_bind, parts, List.forall_mem_cons, List.not_mem_nil,
        IsEmpty.forall_iff, implies_true, and_true, call, Call.mapInputs, Call.run, and_assoc]

/-- Whatever is rebuilt is reachable. -/
theorem Op.reachable_of_replay (op : Op) {built : Op} (hreplay : op.replay = .ok built) :
    built.Reachable := by
  induction op using Op.induction_parts generalizing built with
  | h op ih =>
      rw [replay_eq, OpKind.replay_eq_ok] at hreplay
      obtain ⟨hparts, hrun⟩ := hreplay
      apply reachable_of_run _ hrun
      intro input hinput
      rw [Call.inputs_mapInputs, OpKind.inputs_call] at hinput
      obtain ⟨part, hpart, rfl⟩ := List.mem_map.mp hinput
      obtain ⟨made, hmade⟩ := hparts part hpart
      rw [replayed_eq hmade]
      exact ih part hpart hmade

/-- A reachable tree is rebuilt as it is. -/
theorem Op.Reachable.replay {op : Op} (hop : op.Reachable) : op.replay = .ok op := by
  apply Construction.Reachable.induction _ hop
  intro call op hinputs hrun
  have hparts : ∀ part ∈ op.kind.parts, part.replay = .ok part := by
    rw [Call.kind_of_run hrun, Call.parts_kind]
    exact hinputs
  rw [replay_eq, OpKind.replay_eq_ok]
  refine ⟨fun part hpart => ⟨part, hparts part hpart⟩, ?_⟩
  rw [Call.mapInputs_eq_self]
  · exact run_call hrun
  · intro part hpart
    rw [OpKind.inputs_call] at hpart
    exact replayed_eq (hparts part hpart)

/-- Rebuilding decides reachability: exactly the reachable trees come back
unchanged, and whatever comes back is reachable and comes back again. -/
theorem replay_round_trip (op : Op) :
    (op.Reachable ↔ op.replay = .ok op) ∧
      ∀ built, op.replay = .ok built → built.Reachable ∧ built.replay = .ok built := by
  refine ⟨⟨Op.Reachable.replay, op.reachable_of_replay⟩, ?_⟩
  intro built hreplay
  have hbuilt := op.reachable_of_replay hreplay
  exact ⟨hbuilt, hbuilt.replay⟩

end Replay

end AxiomCore
