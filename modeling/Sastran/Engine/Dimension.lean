/-
One vector dimension for a store, with concurrent vector writes.

The dimension is checked before the LSM step and established in the index step. Between the two steps
of one call another call can pass the check with another dimension, and its vector is in the log when
the index step rejects it. `one_dimension` is about the interleavings in which no call does.
-/

import Sastran.Engine.Recovered
import Sastran.Engine.Serving

namespace Sastran

open Device VectorIndex

variable {D : Type} [LinearOrder D] {env : Env D}

/-! ### The established dimension -/

namespace IndexM

variable (ops : FloatOps D) {index : VectorIndex}

def SameDim (before after : VectorIndex) : Prop := after.expectedDim = before.expectedDim

theorem SameDim.composes : Composes SameDim :=
  ⟨fun _ => rfl, fun _ _ _ one two => Eq.trans two one⟩

omit [LinearOrder D] in
theorem onHnsw_sameDim {α : Type} (program : Prog Error HnswIndex α) :
    Respects SameDim (onHnsw program) := by
  intro index
  unfold Leads
  rw [onHnsw_eq]
  cases program index.hnsw with
  | ok value hnsw => exact ⟨fun _ _ run => by cases run; rfl, nofun⟩
  | err error hnsw => exact ⟨nofun, fun _ _ run => by cases run; rfl⟩
  | stuck => exact ⟨nofun, nofun⟩

theorem dropKey_sameDim (key : Key) : Respects SameDim (dropKey ops key) := by
  intro index
  unfold Leads
  rw [dropKey_eq]
  cases index.keyToNode.find? key with
  | none => exact ⟨fun _ _ run => by cases run; rfl, nofun⟩
  | some id =>
    have kept := onHnsw_sameDim (HnswIndex.delete ops id) { index with
      keyToNode := index.keyToNode.erase key, nodeToKey := index.nodeToKey.erase id }
    exact ⟨kept.1, kept.2⟩

theorem addKey_sameDim (key : Key) (embedding : List F32) :
    Respects SameDim (addKey ops key embedding) :=
  Respects.bind SameDim.composes (onHnsw_sameDim _) fun _ _ =>
    ⟨fun _ _ run => by cases run; rfl, nofun⟩

/-- **An index step establishes its vector's dimension**, also when the graph rejects the vector. -/
theorem putIndexedIndex_leads (key : Key) {embedding : List F32}
    (fits : ∀ dim, index.expectedDim = some dim → embedding.length = dim) :
    Leads (fun _ after => after.expectedDim = some embedding.length)
      (Engine.putIndexedIndex env key embedding) index := by
  have established := establish_ok (Engine.dimensionError embedding.length) fits
  have rest := (Respects.bind SameDim.composes (dropKey_sameDim env.ops key)
    fun _ => addKey_sameDim env.ops key embedding) { index with expectedDim := some embedding.length }
  refine ⟨fun value after run => ?_, fun error after run => ?_⟩
  · exact rest.1 value after ((bind_ok established _).symm.trans run)
  · exact rest.2 error after ((bind_ok established _).symm.trans run)

end IndexM

/-- A vector that passes the check has components, and the established dimension. -/
theorem Engine.checkEmbedding_passed {embedding : List F32} {index after : VectorIndex}
    (run : Engine.checkEmbedding embedding index = .ok () after) :
    embedding ≠ [] ∧ ∀ dim, index.expectedDim = some dim → embedding.length = dim := by
  rw [Engine.checkEmbedding, bind_ok (get_eq _)] at run
  simp only [ite_run] at run
  split at run
  · cases run
  · rename_i nonempty
    split at run
    · cases run
    · refine ⟨fun empty => nonempty (by rw [empty]; rfl), fun dim found => ?_⟩
      rw [found] at run
      simp only [ite_run] at run
      split at run
      · cases run
      · rename_i same
        exact not_not.mp same

/-! ### Vector writes -/

/-- Only vectors that the metric accepts are written. -/
def Act.PutsVectors (env : Env D) : Act → Prop
  | .start _ call => ∃ key embedding, call = .putIndexed key embedding ∧
      env.ops.preprocessVector env.options.hnswParams.metric embedding ≠ none
  | _ => True

/-- A vector that passes the check before there is a dimension has the one of the vectors that other
calls are writing. -/
def Server.Agrees (server : Server) : Act → Prop
  | .start _ (.putIndexed _ embedding) => server.engine.vectorIndex.expectedDim = none →
      ∀ client key other, (server.clients client).call = some (.putIndexed key other) →
        other.length = embedding.length
  | _ => True

/-- Everything written and being written has one dimension, which the index expects as soon as a
vector is written and its call is finished. -/
structure OneDimension (env : Env D) (server : Server) (map : Key → Option Entry) (dim : Nat) : Prop where
  positive : 0 < dim
  pending : ∀ client call, (server.clients client).call = some call → ∃ key embedding,
    call = .putIndexed key embedding ∧ embedding.length = dim ∧
      env.ops.preprocessVector env.options.hnswParams.metric embedding ≠ none
  stored : ∀ key entry, map key = some entry → env.Takes dim entry
  expected : ∀ expected, server.engine.vectorIndex.expectedDim = some expected → expected = dim
  unset : server.engine.vectorIndex.expectedDim = none → (∀ key, map key = none) ∨
    ∃ client call marker, server.clients client = .indexing call marker

namespace OneDimension

variable {server server' : Server} {map : Key → Option Entry} {dim : Nat} {client : Nat} {call : Call}

omit [LinearOrder D] in
/-- The step of a client that leaves no call behind. -/
theorem finished (holds : OneDimension env server map dim) {server' : Server} {phase : Phase}
    (none : phase.call = none) (clients : server'.clients = Function.update server.clients client phase)
    (index : server'.engine.vectorIndex = server.engine.vectorIndex)
    (outside : ∀ call marker, server.clients client ≠ .indexing call marker) :
    OneDimension env server' map dim where
  positive := holds.positive
  pending := by
    intro other call found
    rw [clients] at found
    by_cases same : other = client
    · rw [same, Function.update_self, none] at found
      cases found
    · rw [Function.update_of_ne same] at found
      exact holds.pending other call found
  stored := holds.stored
  expected := by
    rw [index]
    exact holds.expected
  unset := by
    rw [index, clients]
    intro unset
    refine (holds.unset unset).imp_right fun indexing => ?_
    obtain ⟨other, call, marker, phase⟩ := indexing
    have different : other ≠ client := fun same => outside call marker (same ▸ phase)
    exact ⟨other, call, marker, by rw [Function.update_of_ne different]; exact phase⟩

omit [LinearOrder D] in
/-- The index step of a client. -/
theorem indexed (holds : OneDimension env server map dim) {server' : Server} {phase : Phase}
    (none : phase.call = none) (clients : server'.clients = Function.update server.clients client phase)
    (established : server'.engine.vectorIndex.expectedDim = some dim) :
    OneDimension env server' map dim where
  positive := holds.positive
  pending := by
    intro other call found
    rw [clients] at found
    by_cases same : other = client
    · rw [same, Function.update_self, none] at found
      cases found
    · rw [Function.update_of_ne same] at found
      exact holds.pending other call found
  stored := holds.stored
  expected := by
    intro expected found
    exact Option.some.inj (found.symm.trans established)
  unset := fun unset => nomatch unset.symm.trans established

omit [LinearOrder D] in
/-- The check lets a call through. -/
theorem start (holds : OneDimension env server map dim) (idle : server.clients client = .idle)
    (checked : call.check server.engine.vectorIndex = .ok () server.engine.vectorIndex)
    (puts : Act.PutsVectors env (.start client call)) (agrees : server.Agrees (.start client call)) :
    ∃ dim', OneDimension env (server.become client (.logging call)) map dim' := by
  obtain ⟨key, embedding, rfl, accepted⟩ := puts
  obtain ⟨nonempty, fits⟩ := Engine.checkEmbedding_passed checked
  have joins : ∀ dim', embedding.length = dim' → (∀ client call, (server.clients client).call = some call →
      ∃ key embedding, call = .putIndexed key embedding ∧ embedding.length = dim' ∧
        env.ops.preprocessVector env.options.hnswParams.metric embedding ≠ none) →
      ∀ other call, ((server.become client (.logging (.putIndexed key embedding))).clients other).call =
        some call → ∃ key embedding, call = .putIndexed key embedding ∧ embedding.length = dim' ∧
        env.ops.preprocessVector env.options.hnswParams.metric embedding ≠ none := by
    intro dim' same pending other call found
    rcases Server.become_call found with before | ⟨_, here⟩
    · exact pending other call before
    · cases here
      exact ⟨key, embedding, rfl, same, accepted⟩
  have stays : (∃ other call marker, server.clients other = .indexing call marker) →
      ∃ other call marker, (server.become client (.logging (.putIndexed key embedding))).clients other =
        .indexing call marker := by
    rintro ⟨other, call, marker, phase⟩
    have different : other ≠ client := by
      rintro rfl
      rw [idle] at phase
      cases phase
    exact ⟨other, call, marker, (Function.update_of_ne different _ _).trans phase⟩
  by_cases same : embedding.length = dim
  · exact ⟨dim, holds.positive, joins dim same holds.pending, holds.stored, holds.expected,
      fun unset => (holds.unset unset).imp_right stays⟩
  · -- a new dimension: there is none yet, and no call of the old one is in progress
    have unset : server.engine.vectorIndex.expectedDim = none := by
      cases found : server.engine.vectorIndex.expectedDim with
      | none => rfl
      | some expected => exact absurd ((fits expected found).trans (holds.expected expected found)) same
    have alone : ∀ client call, (server.clients client).call ≠ some call := by
      intro other call found
      obtain ⟨key', embedding', rfl, sized, _⟩ := holds.pending other call found
      exact same ((agrees unset other key' embedding' found).symm.trans sized)
    have blank : ∀ key, map key = none := by
      refine (holds.unset unset).resolve_right ?_
      rintro ⟨other, call, marker, phase⟩
      exact alone other call (by rw [phase]; rfl)
    refine ⟨embedding.length, List.length_pos_of_ne_nil nonempty,
      joins _ rfl fun other call found => absurd found (alone other call), ?_, ?_, fun _ => Or.inl blank⟩
    · intro key entry found
      rw [blank key] at found
      cases found
    · intro expected found
      exact nomatch unset.symm.trans found

omit [LinearOrder D] in
/-- The LSM step of a client writes a vector of the dimension. -/
theorem log (holds : OneDimension env server map dim) {server' : Server} {marker : Option Nat}
    (phase : server.clients client = .logging call)
    (clients : server'.clients = Function.update server.clients client (.indexing call marker))
    (index : server'.engine.vectorIndex = server.engine.vectorIndex) :
    OneDimension env server' (call.writes map) dim := by
  obtain ⟨key, embedding, rfl, sized, accepted⟩ := holds.pending client call (by rw [phase]; rfl)
  refine ⟨holds.positive, ?_, ?_, by rw [index]; exact holds.expected, fun _ => Or.inr ?_⟩
  · intro other call found
    rw [clients] at found
    by_cases same : other = client
    · rw [same, Function.update_self] at found
      cases found
      exact ⟨key, embedding, rfl, sized, accepted⟩
    · rw [Function.update_of_ne same] at found
      exact holds.pending other call found
  · intro other entry found
    simp only [Call.writes] at found
    split at found
    · cases found
      exact ⟨by rw [encodeVector_length, sized], by rw [Env.registers_encodeVector]; exact accepted⟩
    · exact holds.stored other entry found
  · exact ⟨client, _, marker, by rw [clients, Function.update_self]⟩

/-- **Every step keeps it.** -/
theorem step (holds : OneDimension env server map dim) {act : Act} (step : server.Step env act server')
    (puts : act.PutsVectors env) (agrees : server.Agrees act) :
    ∃ dim', OneDimension env server' (act.writes map) dim' := by
  cases step with
  | start idle checked => exact holds.start idle checked puts agrees
  | refuse phase => exact ⟨dim, holds.finished rfl rfl rfl fun _ _ other => nomatch phase.symm.trans other⟩
  | log phase => exact ⟨dim, holds.log phase rfl rfl⟩
  | @index client call marker index phase run =>
    obtain ⟨key, embedding, rfl, rfl, _⟩ := holds.pending client call (by rw [phase]; rfl)
    have fits := fun expected found => (holds.expected expected found).symm
    exact ⟨_, holds.indexed (Phase.marking_call marker) rfl
      ((IndexM.putIndexedIndex_leads key fits).1 () index run)⟩
  | @reject client call marker index error phase run =>
    obtain ⟨key, embedding, rfl, rfl, _⟩ := holds.pending client call (by rw [phase]; rfl)
    have fits := fun expected found => (holds.expected expected found).symm
    exact ⟨_, holds.indexed (rfl : Phase.idle.call = none) rfl
      ((IndexM.putIndexedIndex_leads key fits).2 error index run)⟩
  | encode phase => exact ⟨dim, holds.finished rfl rfl rfl fun _ _ other => nomatch phase.symm.trans other⟩
  | install phase => exact ⟨dim, holds.finished rfl rfl rfl fun _ _ other => nomatch phase.symm.trans other⟩
  | clean phase =>
    exact ⟨dim, holds.finished (rfl : Phase.idle.call = none) rfl rfl
      fun _ _ other => nomatch phase.symm.trans other⟩

/-- **In every state of every such interleaving** there is one dimension. -/
theorem of_serves {acts : List Act}
    (serves : Serves env (fun _ server act => act.PutsVectors env ∧ server.Agrees act) acts server) :
    ∃ dim, OneDimension env server (logged acts) dim := by
  induction serves with
  | opened run =>
    obtain ⟨index, _⟩ := open_empty run
    refine ⟨1, Nat.one_pos, nofun, nofun, ?_, fun _ => Or.inl fun _ => rfl⟩
    intro expected found
    rw [index] at found
    cases found
  | step _ allowed step ih =>
    obtain ⟨dim, holds⟩ := ih
    obtain ⟨dim', holds'⟩ := holds.step step allowed.1 allowed.2
    exact ⟨dim', by rw [logged_append]; exact holds'⟩

end OneDimension

/-! ### One dimension -/

/-- **One vector dimension per store.** Where a vector that passes the check before a dimension is
established has the dimension of the vectors being written at that moment, all vectors that are newest
for their key have one dimension, and opening the directory returns no error. -/
theorem one_dimension {acts : List Act} {server : Server}
    (serves : Serves env (fun _ server act => act.PutsVectors env ∧ server.Agrees act) acts server) :
    ∃ newest dim, server.engine.inner.Newest env.hashes newest ∧
      (∀ key bytes, newest key = some (.vector bytes) → bytes.length = 4 * dim) ∧
      (env.options.hnswParams.dim = 0 ∨ env.options.hnswParams.dim = dim →
        (∀ keys : List Key, keys.Nodup → (∀ key ∈ keys, ∃ bytes, newest key = some (.vector bytes)) →
          keys.length < 2 ^ 32) →
        ∀ error after, Engine.open env (World.fresh server.disk) ≠ .err error after) := by
  obtain ⟨dim, holds⟩ := OneDimension.of_serves serves
  obtain ⟨lsm, records, snapshots, running, value⟩ := serves.running
  refine ⟨lsm.newest, dim, running.holds.newest, fun key bytes found => ?_, fun preset few => ?_⟩
  · have takes : env.Takes dim (.vector bytes) :=
      holds.stored key _ (value ▸ Lsm.value_eq_vector.mpr found)
    exact takes.1
  · have calm := World.fresh_calm server.disk
    have recovered : ∀ next, (lsm.stored (logBytes env.hashes records) snapshots).recovered records next =
        { lsm with nextId := next } := fun next =>
      running.recovered next
    have rebuildable : ∀ next, ((lsm.stored (logBytes env.hashes records) snapshots).recovered records
        next).Rebuildable env dim := by
      intro next
      rw [recovered]
      refine ⟨holds.positive, preset, fun key entry found => ?_⟩
      cases entry with
      | tombstone => exact trivial
      | put bytes => exact trivial
      | vector bytes => exact holds.stored key _ (value ▸ Lsm.value_eq_vector.mpr found)
    refine open_never_fails calm running.holds.described (.whole running.valid) rebuildable ?_
    · intro next
      rw [recovered]
      refine few _ (Lsm.vectorKeys_nodup _) fun key member => ?_
      obtain ⟨entry, found, isVector⟩ := Lsm.mem_vectorKeys.mp member
      cases entry with
      | tombstone => cases isVector
      | put bytes => cases isVector
      | vector bytes => exact ⟨bytes, found⟩

/-! ### Two clients -/

/-- Whether an act starts nothing but a vector write, of so many components. -/
def Act.startsVectors (env : Env D) (sizes : List Nat) : Act → Bool
  | .start _ (.putIndexed _ embedding) => decide (embedding.length ∈ sizes) &&
      (env.ops.preprocessVector env.options.hnswParams.metric embedding).isSome
  | .start _ _ => false
  | _ => true

omit [LinearOrder D] in
theorem Act.startsVectors_puts {sizes : List Nat} {act : Act}
    (starts : act.startsVectors env sizes = true) : act.PutsVectors env := by
  cases act with
  | start client call =>
    cases call with
    | putIndexed key embedding =>
      have accepted := (Bool.and_eq_true _ _ ▸ starts).2
      exact ⟨key, embedding, rfl, Option.isSome_iff_ne_none.mp accepted⟩
    | put key value => cases starts
    | delete key => cases starts
    | flush => cases starts
  | _ => exact trivial

/-- Vectors of one size agree. -/
theorem Serves.agrees {size : Nat} {acts : List Act} {server : Server} {act : Act}
    (serves : Serves env (fun _ _ act => act.startsVectors env [size] = true) acts server)
    (starts : act.startsVectors env [size] = true) : server.Agrees act := by
  cases act with
  | start client call =>
    cases call with
    | putIndexed key embedding =>
      intro _ other key' embedding' found
      obtain ⟨_, _, starts'⟩ := serves.allowed (serves.started found)
      have sized := List.mem_singleton.mp (of_decide_eq_true (Bool.and_eq_true _ _ ▸ starts).1)
      have sized' := List.mem_singleton.mp (of_decide_eq_true (Bool.and_eq_true _ _ ▸ starts').1)
      rw [sized, sized']
    | put key value => cases starts
    | delete key => cases starts
    | flush => cases starts
  | _ => exact trivial

/-- Two calls with vectors of one component, their steps interleaved. -/
theorem one_dimension_interleaved :
    let env : Env Nat := Env.zeroOne ⟨1000, 2, 0, ⟨.euclideanSquared, 1, 2, 1, 1, 0, 0⟩⟩
    ∃ acts server newest dim, acts.length = 6 ∧
      Serves env (fun _ server act => act.PutsVectors env ∧ server.Agrees act) acts server ∧
      server.engine.inner.Newest env.hashes newest ∧
      ∀ key bytes, newest key = some (.vector bytes) → bytes.length = 4 * dim := by
  intro env
  have run : (takeTurns env (fun _ _ => Act.startsVectors env [1]) [(0, some (.putIndexed [7] [0])),
      (1, some (.putIndexed [8] [F32.one])), (1, none), (0, none), (0, none), (1, none)]).map
      (fun state => state.1.length) = some 6 := by decide +kernel
  obtain ⟨⟨acts, server⟩, taken, length⟩ := Option.map_eq_some_iff.mp run
  have sized : Serves env (fun _ _ act => act.startsVectors env [1] = true) acts server :=
    .of_takeTurns taken fun _ _ _ _ starts => starts
  have serves : Serves env (fun _ server act => act.PutsVectors env ∧ server.Agrees act) acts server :=
    sized.strengthen fun _ _ _ before starts =>
      ⟨Act.startsVectors_puts starts, before.agrees starts⟩
  obtain ⟨newest, dim, found, same, _⟩ := one_dimension serves
  exact ⟨acts, server, newest, dim, length, serves, found, same⟩

/-- Two calls with vectors of one and of two components that both pass the check before either reaches
its index step: both vectors are stored. -/
theorem one_dimension_fails :
    let env : Env Nat := Env.zeroOne ⟨1000, 2, 0, ⟨.euclideanSquared, 1, 2, 1, 1, 0, 0⟩⟩
    ¬ ∀ acts server, Serves env (fun _ _ act => act.PutsVectors env) acts server →
      (∀ client, server.clients client = .idle) → ∃ newest dim,
        server.engine.inner.Newest env.hashes newest ∧
        ∀ key bytes, newest key = some (.vector bytes) → bytes.length = 4 * dim := by
  intro env claimed
  have run : (takeTurns env (fun _ _ => Act.startsVectors env [1, 2]) [(0, some (.putIndexed [7] [0])),
      (1, some (.putIndexed [8] [0, 0])), (0, none), (1, none), (0, none), (1, none)]).map
      (fun state => ((state.1.filterMap Act.starter).all fun client => (state.2.clients client).isIdle,
        (state.2.engine.inner.levels.l0 ++ state.2.engine.inner.levels.l1).length,
        state.2.engine.inner.memtable.map.entries)) =
      some (true, 0, [([7], .vector [0, 0, 0, 0]),
        ([8], .vector [0, 0, 0, 0, 0, 0, 0, 0])]) := by decide +kernel
  obtain ⟨⟨acts, server⟩, taken, facts⟩ := Option.map_eq_some_iff.mp run
  simp only [Prod.mk.injEq] at facts
  obtain ⟨idle, tables, memtable⟩ := facts
  have serves : Serves env (fun _ _ act => act.PutsVectors env) acts server :=
    .of_takeTurns taken fun _ _ _ _ starts => Act.startsVectors_puts starts
  obtain ⟨newest, dim, found, same⟩ := claimed acts server serves
    (serves.all_idle (List.all_eq_true.mp idle))
  have stored : ∀ key, newest key = SortedMap.lookupIn key server.engine.inner.memtable.map.entries :=
    fun key => congrFun (found.memtable tables) key
  have one := same [7] [0, 0, 0, 0] (by rw [stored, memtable]; rfl)
  have two := same [8] [0, 0, 0, 0, 0, 0, 0, 0] (by rw [stored, memtable]; rfl)
  simp only [List.length_cons, List.length_nil] at one two
  omega

end Sastran
