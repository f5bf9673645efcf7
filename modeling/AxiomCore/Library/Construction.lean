import Mathlib.Data.List.Basic

/-!
Values that can only be made by calls. A call consumes values made earlier and
either makes one new value or fails. A run is any finite sequence of such
calls, each over the values made so far, in any order and with any reuse. What
every call preserves holds of every value of every run, and of every part at
any depth of such a value, because a value's parts are inputs of its call.
-/

namespace Construction

/-- The calls that make values, and the parts a made value is put together
from. The only assumption is that a call puts a value together from its own
inputs. -/
structure Maker (Val Call ε : Type) where
  inputs : Call → List Val
  run : Call → Except ε Val
  parts : Val → List Val
  parts_of_run : ∀ {call v}, run call = .ok v → ∀ part ∈ parts v, part ∈ inputs call

variable {Val Call ε : Type} (M : Maker Val Call ε)

/-- A run with its calls and the values they made, the latest first. -/
inductive Run : List Call → List Val → Prop
  | start : Run [] []
  | step {calls vals call v} : Run calls vals → (∀ input ∈ M.inputs call, input ∈ vals) →
      M.run call = .ok v → Run (call :: calls) (v :: vals)

/-- `Node v part` holds when `part` is `v` or a part of it at any depth. -/
inductive Node : Val → Val → Prop
  | root (v) : Node v v
  | inside {v part node} : part ∈ M.parts v → Node part node → Node v node

/-- A value is reachable when some run makes it. -/
def Reachable (v : Val) : Prop :=
  ∃ calls vals, Run M calls vals ∧ v ∈ vals

variable {M}

/-- What every successful call establishes from its inputs holds of every
value of a run whose calls all satisfy `ok`. -/
theorem Run.forall_mem {ok : Call → Prop} {P : Val → Prop}
    (hcall : ∀ call v, ok call → (∀ input ∈ M.inputs call, P input) →
      M.run call = .ok v → P v)
    {calls : List Call} {vals : List Val} (hrun : Run M calls vals)
    (hok : ∀ call ∈ calls, ok call) : ∀ v ∈ vals, P v := by
  induction hrun with
  | start => simp
  | @step calls vals call v _ hinputs hmade ih =>
      have hprior := ih fun c hc => hok c (by simp [hc])
      intro w hw
      rcases List.mem_cons.mp hw with rfl | hw
      · have hparts : ∀ input ∈ M.inputs call, P input :=
          fun input hi => hprior input (hinputs input hi)
        exact hcall call w (hok call (by simp)) hparts hmade
      · exact hprior w hw

/-- Every value of a run was made by one of its calls from values of the run. -/
theorem Run.made {calls : List Call} {vals : List Val} (hrun : Run M calls vals) :
    ∀ v ∈ vals, ∃ call ∈ calls, M.run call = .ok v ∧ ∀ input ∈ M.inputs call, input ∈ vals := by
  induction hrun with
  | start => simp
  | @step calls vals call v _ hinputs hmade ih =>
      intro w hw
      rcases List.mem_cons.mp hw with rfl | hw
      · exact ⟨call, by simp, hmade, fun input hi => List.mem_cons_of_mem _ (hinputs input hi)⟩
      · obtain ⟨c, hc, hcw, hcin⟩ := ih w hw
        exact ⟨c, by simp [hc], hcw, fun input hi => List.mem_cons_of_mem _ (hcin input hi)⟩

/-- The value made by each call of a run is a value of the run. -/
theorem Run.mem_of_call {calls : List Call} {vals : List Val} (hrun : Run M calls vals) :
    ∀ call ∈ calls, ∃ v ∈ vals, M.run call = .ok v := by
  induction hrun with
  | start => simp
  | @step calls vals call v _ _ hmade ih =>
      intro c hc
      rcases List.mem_cons.mp hc with rfl | hc
      · exact ⟨v, by simp, hmade⟩
      · obtain ⟨w, hw, hcw⟩ := ih c hc
        exact ⟨w, by simp [hw], hcw⟩

/-- A run keeps every part of the values it made. -/
theorem Run.node_mem {calls : List Call} {vals : List Val} (hrun : Run M calls vals)
    {v node : Val} (hnode : Node M v node) (hv : v ∈ vals) : node ∈ vals := by
  induction hnode with
  | root v => exact hv
  | @inside v part node hpart _ ih =>
      obtain ⟨call, _, hmade, hinputs⟩ := hrun.made v hv
      exact ih (hinputs part (M.parts_of_run hmade part hpart))

/-- A node of a node is a node. -/
theorem Node.trans {v node inner : Val} (hnode : Node M v node) (hinner : Node M node inner) :
    Node M v inner := by
  induction hnode with
  | root v => exact hinner
  | inside hpart _ ih => exact .inside hpart (ih hinner)

theorem Reachable.node {v node : Val} (hv : Reachable M v) (hnode : Node M v node) :
    Reachable M node := by
  obtain ⟨calls, vals, hrun, hmem⟩ := hv
  exact ⟨calls, vals, hrun, hrun.node_mem hnode hmem⟩

/-- A reachable value was made by a call whose inputs are reachable. -/
theorem Reachable.made {v : Val} (hv : Reachable M v) :
    ∃ call, M.run call = .ok v ∧ ∀ input ∈ M.inputs call, Reachable M input := by
  obtain ⟨calls, vals, hrun, hmem⟩ := hv
  obtain ⟨call, _, hmade, hinputs⟩ := hrun.made v hmem
  exact ⟨call, hmade, fun input hi => ⟨calls, vals, hrun, hinputs input hi⟩⟩

/-- The induction over runs, read as an induction over reachable values. -/
theorem Reachable.induction {P : Val → Prop}
    (hcall : ∀ call v, (∀ input ∈ M.inputs call, P input) → M.run call = .ok v → P v)
    {v : Val} (hv : Reachable M v) : P v := by
  obtain ⟨calls, vals, hrun, hmem⟩ := hv
  have hok : ∀ call ∈ calls, (fun _ : Call => True) call := fun _ _ => trivial
  exact hrun.forall_mem (fun call w _ => hcall call w) hok v hmem

/-- Two runs make one: the calls of the second do not depend on the first. -/
theorem Run.append {calls calls' : List Call} {vals vals' : List Val} (hrun : Run M calls vals)
    (hrun' : Run M calls' vals') : Run M (calls' ++ calls) (vals' ++ vals) := by
  induction hrun' with
  | start => exact hrun
  | step _ hinputs hmade ih =>
      exact .step ih (fun input hi => List.mem_append_left _ (hinputs input hi)) hmade

/-- Any list of reachable values can be made in a single run. -/
theorem Reachable.common_run {inputs : List Val} (hinputs : ∀ v ∈ inputs, Reachable M v) :
    ∃ calls vals, Run M calls vals ∧ ∀ v ∈ inputs, v ∈ vals := by
  induction inputs with
  | nil => exact ⟨[], [], .start, by simp⟩
  | cons head tail ih =>
      obtain ⟨calls, vals, hrun, htail⟩ := ih fun v hv => hinputs v (by simp [hv])
      obtain ⟨calls', vals', hrun', hhead⟩ := hinputs head (by simp)
      refine ⟨_, _, hrun.append hrun', fun v hv => ?_⟩
      rcases List.mem_cons.mp hv with rfl | hv
      · exact List.mem_append_left _ hhead
      · exact List.mem_append_right _ (htail v hv)

/-- The reachable values are exactly those a call makes from reachable ones. -/
theorem reachable_iff {v : Val} :
    Reachable M v ↔ ∃ call, M.run call = .ok v ∧ ∀ input ∈ M.inputs call, Reachable M input := by
  constructor
  · exact Reachable.made
  · rintro ⟨call, hmade, hinputs⟩
    obtain ⟨calls, vals, hrun, hmem⟩ := Reachable.common_run hinputs
    exact ⟨call :: calls, v :: vals, .step hrun hmem hmade, by simp⟩

/-- A property of single values holds at every node of every value of a run
exactly when each call of the run meets the condition under which it makes a
value with that property. -/
theorem Run.forall_node_iff {ok : Call → Prop} {P : Val → Prop}
    (hcall : ∀ call v, M.run call = .ok v → (P v ↔ ok call))
    {calls : List Call} {vals : List Val} (hrun : Run M calls vals) :
    (∀ v ∈ vals, ∀ node, Node M v node → P node) ↔ ∀ call ∈ calls, ok call := by
  constructor
  · intro hall call hc
    obtain ⟨v, hv, hmade⟩ := hrun.mem_of_call call hc
    exact (hcall call v hmade).mp (hall v hv v (.root v))
  · intro hok v hv node hnode
    exact hrun.forall_mem (P := P) (fun call w h _ hmade => (hcall call w hmade).mpr h) hok node
      (hrun.node_mem hnode hv)

/-- A map of calls that follows a map of values takes runs to runs. -/
theorem Run.map {g : Call → Call} {f : Val → Val}
    (hinputs : ∀ call, M.inputs (g call) = (M.inputs call).map f)
    (hcall : ∀ call v, M.run call = .ok v → M.run (g call) = .ok (f v))
    {calls : List Call} {vals : List Val} (hrun : Run M calls vals) :
    Run M (calls.map g) (vals.map f) := by
  induction hrun with
  | start => exact .start
  | @step calls vals call v _ hprior hmade ih =>
      refine .step ih ?_ (hcall call v hmade)
      intro input hi
      rw [hinputs] at hi
      obtain ⟨before, hbefore, rfl⟩ := List.mem_map.mp hi
      exact List.mem_map_of_mem (hprior before hbefore)

section ReadBack

/-- Values that name the call that makes them: the call read off a value
consumes its parts, and makes the value whenever any call does. -/
structure ReadBack (M : Maker Val Call ε) where
  call : Val → Call
  inputs_call : ∀ v, M.inputs (call v) = M.parts v
  run_call : ∀ {made v}, M.run made = .ok v → M.run (call v) = .ok v

variable (R : ReadBack M)

/-- A reachable value is made from its own parts. -/
theorem ReadBack.reachable_iff {v : Val} :
    Reachable M v ↔ M.run (R.call v) = .ok v ∧ ∀ part ∈ M.parts v, Reachable M part := by
  constructor
  · intro hv
    obtain ⟨made, hmade, -⟩ := hv.made
    refine ⟨R.run_call hmade, ?_⟩
    intro part hpart
    exact hv.node (.inside hpart (.root part))
  · rintro ⟨hmade, hparts⟩
    apply Construction.reachable_iff.mpr ⟨R.call v, hmade, ?_⟩
    rwa [R.inputs_call]

/-- When parts are well founded, a value is reachable exactly when the call
read off each of its nodes makes that node. -/
theorem ReadBack.reachable_iff_nodes
    (hwf : ∀ P : Val → Prop, (∀ v, (∀ part ∈ M.parts v, P part) → P v) → ∀ v, P v) {v : Val} :
    Reachable M v ↔ ∀ node, Node M v node → M.run (R.call node) = .ok node := by
  constructor
  · intro hv node hnode
    exact (R.reachable_iff.mp (hv.node hnode)).1
  · apply hwf fun v => (∀ node, Node M v node → M.run (R.call node) = .ok node) → Reachable M v
    intro v ih hnodes
    refine R.reachable_iff.mpr ⟨hnodes v (.root v), ?_⟩
    intro part hpart
    apply ih part hpart
    intro node hnode
    exact hnodes node (.inside hpart hnode)

end ReadBack

end Construction
