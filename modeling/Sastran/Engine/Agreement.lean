/-
Agreement of index and LSM state under concurrent vector writes.

The mutex is released between a call's LSM step and its index step, so two calls on one key can take
them in different orders. `writes_agree`: when no call is in progress, the index mirrors the stored
vectors exactly if for each key the last call in the one order leaves the same vector as the last call
in the other.
-/

import Sastran.Engine.Mirror

namespace Sastran

open Device VectorIndex

variable {D : Type} [LinearOrder D] {env : Env D}

/-! ### The last call on a key -/

/-- The call of an LSM step that writes the key. -/
def Act.logs (key : Key) : Act → Option Call
  | .log _ call => if call.key = some key then some call else none
  | _ => none

/-- The call of an index step on the key. -/
def Act.indexes (key : Key) : Act → Option Call
  | .index _ call => if call.indexKey = some key then some call else none
  | _ => none

/-- The last call whose LSM step wrote the key. -/
def lastLogged (acts : List Act) (key : Key) : Option Call := acts.reverse.findSome? (Act.logs key)

/-- The last call whose index step was on the key. -/
def lastIndexed (acts : List Act) (key : Key) : Option Call := acts.reverse.findSome? (Act.indexes key)

theorem lastLogged_append (acts : List Act) (act : Act) (key : Key) :
    lastLogged (acts ++ [act]) key = (act.logs key).or (lastLogged acts key) := by
  rw [lastLogged, List.reverse_append, List.reverse_singleton, List.singleton_append,
    List.findSome?_cons]
  cases act.logs key <;> rfl

theorem lastIndexed_append (acts : List Act) (act : Act) (key : Key) :
    lastIndexed (acts ++ [act]) key = (act.indexes key).or (lastIndexed acts key) := by
  rw [lastIndexed, List.reverse_append, List.reverse_singleton, List.singleton_append,
    List.findSome?_cons]
  cases act.indexes key <;> rfl

omit [LinearOrder D] in
/-- **The newest entry registers the vector of the last call** that wrote the key. -/
theorem registers_logged (acts : List Act) (key : Key) :
    (logged acts key).bind env.registers = (lastLogged acts key).bind (Call.vector env) := by
  induction acts using List.reverseRecOn with
  | nil => rfl
  | append_singleton acts act ih =>
    rw [logged_append, lastLogged_append]
    cases act with
    | log client call =>
      show (call.writes (logged acts) key).bind env.registers = _
      rw [call.registers_writes, ih, Act.logs]
      split <;> rfl
    | _ => exact ih

/-! ### Vector writes and deletions -/

/-- Calls write vectors the metric accepts, or delete, and none of them returns an error. -/
def Act.Returns (env : Env D) : Act → Prop
  | .start _ call => (∃ key embedding, call = .putIndexed key embedding ∧
      env.ops.preprocessVector env.options.hnswParams.metric embedding ≠ none) ∨
      ∃ key, call = .delete key
  | .refuse _ _ => False
  | .reject _ _ => False
  | _ => True

variable {acts : List Act} {server : Server}

/-- The metric accepts what is stored. -/
theorem Serves.accepted (serves : Serves env (fun _ _ act => act.Returns env) acts server) :
    ∀ key bytes, logged acts key = some (.vector bytes) → env.registers (.vector bytes) ≠ none := by
  induction serves with
  | opened => exact nofun
  | @step acts before _ act serves _ step ih =>
    intro key bytes found
    rw [logged_append] at found
    cases step with
    | @log client call marker inner world phase run =>
      obtain ⟨_, _, returns⟩ := serves.allowed (serves.started (by rw [phase]; rfl))
      rcases returns with ⟨target, embedding, rfl, accepted⟩ | ⟨target, rfl⟩
      · simp only [Act.writes, Call.writes] at found
        split at found
        · cases found
          rw [Env.registers_encodeVector]
          exact accepted
        · exact ih key bytes found
      · simp only [Act.writes, Call.writes] at found
        split at found
        · cases found
        · exact ih key bytes found
    | _ => exact ih key bytes found

/-- **The index after an interleaving**: each key has the vector of the last call whose index step was
on it. -/
theorem Serves.indexed (serves : Serves env (fun _ _ act => act.Returns env) acts server)
    (room : server.engine.vectorIndex.hnsw.nodes.length < nodeIdBound) :
    server.engine.vectorIndex.Sound env.options.hnswParams ∧
      ∀ key, server.engine.vectorIndex.view key = (lastIndexed acts key).bind (Call.vector env) := by
  induction serves with
  | opened run =>
    obtain ⟨same, _⟩ := open_empty run
    rw [same]
    exact ⟨new_sound _, fun key => rfl⟩
  | @step acts before after act serves allowed step ih =>
    by_cases touches : act.Indexes
    · cases step with
      | @index client call marker index phase run =>
        have valid := serves.valid phase
        have grown := call.indexStep_grows valid (Or.inl ⟨(), run⟩)
        have room' := lt_of_le_of_lt grown room
        obtain ⟨sound, view⟩ := ih room'
        obtain ⟨sound', view'⟩ := call.indexStep_ensures valid sound room' () index run
        refine ⟨sound', fun key => (view' key).trans ?_⟩
        rw [lastIndexed_append, Act.indexes, view]
        split <;> rfl
      | reject => exact allowed.elim
      | _ => exact touches.elim
    · have same := step.vectorIndex touches
      rw [same] at room ⊢
      obtain ⟨sound, view⟩ := ih room
      refine ⟨sound, fun key => ?_⟩
      have none : act.indexes key = none := by
        cases act with
        | index client call => exact absurd trivial touches
        | _ => rfl
      rw [view, lastIndexed_append, none, Option.none_or]

/-- **Concurrent vector writes.** With fewer than 2^32 nodes in the graph, the index mirrors the newest
entries exactly if for each key the last call in the order of LSM steps and the last call in the order of
index steps leave the same vector. -/
theorem writes_agree (serves : Serves env (fun _ _ act => act.Returns env) acts server)
    (room : server.engine.vectorIndex.hnsw.nodes.length < nodeIdBound) :
    ∃ newest, server.engine.inner.Newest env.hashes newest ∧
      (server.engine.vectorIndex.Mirrors env newest ↔ ∀ key,
        (lastLogged acts key).bind (Call.vector env) = (lastIndexed acts key).bind (Call.vector env)) := by
  obtain ⟨lsm, records, snapshots, running, value⟩ := serves.running
  obtain ⟨sound, view⟩ := serves.indexed room
  refine ⟨lsm.newest, running.holds.newest, ?_⟩
  have registers : ∀ key, (lsm.newest key).bind env.registers =
      (lastLogged acts key).bind (Call.vector env) := by
    intro key
    rw [← registers_logged, ← value, Lsm.registers_value]
  rw [sound.matched.mirrors_iff fun key bytes found =>
    serves.accepted key bytes (value ▸ Lsm.value_eq_vector.mpr found)]
  refine forall_congr' fun key => ?_
  rw [registers, view, eq_comm]

/-! ### Two clients, one key -/

/-- Whether an act starts nothing but a vector write or a deletion, and returns. -/
def Act.returns (env : Env D) : Act → Bool
  | .start _ (.putIndexed _ embedding) =>
      (env.ops.preprocessVector env.options.hnswParams.metric embedding).isSome
  | .start _ (.delete _) => true
  | .start _ _ => false
  | .refuse _ _ => false
  | .reject _ _ => false
  | _ => true

omit [LinearOrder D] in
theorem Act.returns_of {act : Act} (returns : act.returns env = true) : act.Returns env := by
  cases act with
  | start client call =>
    cases call with
    | putIndexed key embedding =>
      exact Or.inl ⟨key, embedding, rfl, Option.isSome_iff_ne_none.mp returns⟩
    | delete key => exact Or.inr ⟨key, rfl⟩
    | put key value => cases returns
    | flush => cases returns
  | refuse => cases returns
  | reject => cases returns
  | _ => exact trivial

/-- A vector write and a deletion of one key, in the same order twice. -/
theorem writes_agree_ordered :
    let env : Env Nat := Env.zeroOne ⟨1000, 2, 0, ⟨.euclideanSquared, 1, 2, 1, 1, 0, 0⟩⟩
    ∃ (acts : List Act) (server : Server) (newest : Key → Option Entry), acts.length = 6 ∧
      server.engine.inner.Newest env.hashes newest ∧
      (server.engine.vectorIndex.Mirrors env newest ↔ ∀ key,
        (lastLogged acts key).bind (Call.vector env) =
          (lastIndexed acts key).bind (Call.vector env)) := by
  intro env
  have run : (takeTurns env (fun _ _ => Act.returns env) [(0, some (.putIndexed [7] [0])),
      (1, some (.delete [7])), (0, none), (1, none), (0, none), (1, none)]).map
      (fun state => (state.1.length, state.2.engine.vectorIndex.hnsw.nodes.length)) =
      some (6, 1) := by decide +kernel
  obtain ⟨⟨acts, server⟩, taken, facts⟩ := Option.map_eq_some_iff.mp run
  obtain ⟨length, nodes⟩ := Prod.mk.inj facts
  have serves : Serves env (fun _ _ act => act.Returns env) acts server :=
    .of_takeTurns taken fun _ _ _ _ returns => Act.returns_of returns
  obtain ⟨newest, found, agrees⟩ := writes_agree serves (by rw [nodes]; decide)
  exact ⟨acts, server, newest, length, found, agrees⟩

/-- A vector write and a deletion of one key: the write takes its LSM step first and its index step
last. The key is deleted, and registered. -/
theorem writes_agree_fails :
    let env : Env Nat := Env.zeroOne ⟨1000, 2, 0, ⟨.euclideanSquared, 1, 2, 1, 1, 0, 0⟩⟩
    ¬ ∀ acts server, Serves env (fun _ _ act => act.Returns env) acts server →
      server.engine.vectorIndex.hnsw.nodes.length < nodeIdBound →
      (∀ client, server.clients client = .idle) → ∃ newest,
        server.engine.inner.Newest env.hashes newest ∧
        server.engine.vectorIndex.Mirrors env newest := by
  intro env claimed
  have run : (takeTurns env (fun _ _ => Act.returns env) [(0, some (.putIndexed [7] [0])),
      (1, some (.delete [7])), (0, none), (1, none), (1, none), (0, none)]).map
      (fun state => ((state.1.filterMap Act.starter).all fun client => (state.2.clients client).isIdle,
        [(state.2.engine.inner.levels.l0 ++ state.2.engine.inner.levels.l1).length,
          state.2.engine.vectorIndex.hnsw.nodes.length],
        state.2.engine.inner.memtable.map.find? [7], state.2.engine.vectorIndex.keyToNode.find? [7])) =
      some (true, [0, 1], some .tombstone, some 0) := by decide +kernel
  obtain ⟨⟨acts, server⟩, taken, facts⟩ := Option.map_eq_some_iff.mp run
  simp only [Prod.mk.injEq, List.cons.injEq, and_true] at facts
  obtain ⟨idle, ⟨tables, nodes⟩, deleted, registered⟩ := facts
  have serves : Serves env (fun _ _ act => act.Returns env) acts server :=
    .of_takeTurns taken fun _ _ _ _ returns => Act.returns_of returns
  obtain ⟨newest, found, mirrors⟩ := claimed acts server serves (by rw [nodes]; decide)
    (serves.all_idle (List.all_eq_true.mp idle))
  have here := mirrors [7]
  rw [found.memtable tables, deleted] at here
  exact nomatch here.symm.trans registered

end Sastran
