import Lox.Proofs.Machine.Governed

/-!
# Scope chains over whole sessions

Every scope that is named anywhere exists, and its chain ends in the global scope.  The chain never
changes, and no scope loses a name, so that a name which means something somewhere goes on to do so,
in the same scope or in a nearer one.

The scopes that exist are a discipline.  What it says of enclosing scopes, that each was there
before the scope it encloses, keeps the chains from running in circles.
-/

namespace Lox

namespace Scopes

/-- Every scope that is named exists, and every chain is finite, without a scope twice, and ends in
the global scope. -/
structure WellFormed (scopes : Scopes) : Prop where
  enclosing_exists : ∀ (id : ScopeId) (scope : Scope) (outer : ScopeId),
    scopes.cells[id]? = some scope → scope.enclosing = some outer → outer < scopes.nextId
  closure_exists : ∀ (id : ScopeId) (scope : Scope) (name : String) (closure : Closure),
    scopes.cells[id]? = some scope →
    scope.bindings.get? name = some (.callable (.function closure)) → closure.scope < scopes.nextId
  chain : ∀ id, id < scopes.nextId → ∃ path, scopes.Chain id path ∧ path.Nodup ∧
    path.getLast? = some globalId

end Scopes

/-- A run is only in scopes that exist. -/
def existingScopes : Discipline where
  place count id := id < count
  code _ := True
  base := 0
  place_mono le lt := Nat.lt_of_lt_of_le lt le
  place_of_lt lt _ _ := lt
  place_new _ := Nat.lt_succ_self _
  code_parts _ _ := trivial

theorem existingScopes_holds_initial (source : Source) (sink : Sink) (clock : Clock) :
    existingScopes.Holds (.initial source sink clock) := by
  refine ⟨⟨Nat.zero_le _, ?_, ?_⟩, Nat.zero_lt_one⟩
  · intro id scope outer _ found link
    rw [(Scopes.of_getElem?_initial found).2.1] at link
    cases link
  · intro id scope name value _ found bound
    rcases (Scopes.of_getElem?_initial found).2.2 name value bound with ⟨primitive, rfl⟩
    trivial

namespace Scopes

variable {scopes : Scopes}

theorem acyclic_of_sound (sound : existingScopes.Sound scopes) : scopes.Acyclic :=
  fun id scope outer found => sound.enclosing id scope outer (lt_nextId_of_some found) found

theorem exists_chain (sound : existingScopes.Sound scopes) (extend : initial.Extends scopes)
    {id : ScopeId} (existing : id < scopes.nextId) :
    ∃ path, scopes.Chain id path ∧ path.Nodup ∧ path.getLast? = some globalId ∧
      ∀ inner ∈ path, inner ≤ id := by
  induction id using Nat.strongRecOn with
  | ind id ih =>
    rcases exists_of_lt_nextId existing with ⟨scope, found⟩
    cases link : scope.enclosing with
    | none =>
      -- only the global scope lies in no other
      have first : id < initial.nextId := by
        apply Nat.lt_of_not_le
        intro new
        exact extend.new id scope new found link
      have same : id = globalId := Nat.lt_one_iff.1 first
      subst same
      exact ⟨[globalId], .outermost found link, List.pairwise_singleton _ _, rfl, by simp⟩
    | some outer =>
      have earlier : outer < id := acyclic_of_sound sound id scope outer found link
      rcases ih outer earlier (Nat.lt_trans earlier existing) with ⟨path, chain, nodup, last, below⟩
      refine ⟨id :: path, .inner found link chain, List.nodup_cons.2 ⟨?_, nodup⟩, ?_, ?_⟩
      · intro mem
        exact Nat.lt_irrefl id (Nat.lt_of_le_of_lt (below id mem) earlier)
      · rw [List.getLast?_cons, last]
        rfl
      · intro inner mem
        rcases List.mem_cons.1 mem with rfl | mem
        · exact Nat.le_refl _
        · exact Nat.le_of_lt (Nat.lt_of_le_of_lt (below inner mem) earlier)

theorem wellFormed_of_sound (sound : existingScopes.Sound scopes)
    (extend : initial.Extends scopes) : scopes.WellFormed where
  enclosing_exists id scope outer found link :=
    sound.outwards id scope outer (lt_nextId_of_some found) found link
  closure_exists id scope name closure found bound :=
    (sound.bound id scope name _ (lt_nextId_of_some found) found bound).2
  chain id existing := by
    rcases exists_chain sound extend existing with ⟨path, chain, nodup, last, -⟩
    exact ⟨path, chain, nodup, last⟩

end Scopes

theorem Discipline.Holds.acyclic {machine : Machine} (holds : existingScopes.Holds machine) :
    machine.scopes.Acyclic :=
  Scopes.acyclic_of_sound holds.sound

/-- All machines that a session passes through have well-formed scopes.  From each to each later one
enclosing scopes and bound names stay, and a name that is resolved stays resolved, on the same chain
and not further out. -/
theorem session_scopes_wellFormed_and_grow (steps : List (Nat × Session.Step)) (source : Source)
    (sink : Sink) (clock : Clock) :
    (∀ machine ∈ Session.trace steps (.initial source sink clock), machine.scopes.WellFormed) ∧
    (Session.trace steps (.initial source sink clock)).Pairwise fun machine later =>
      machine.scopes.Extends later.scopes ∧
      ∀ id name target, machine.scopes.resolve? id name = some target →
        ∃ near far now, machine.scopes.Chain id (near ++ target :: far) ∧
          later.scopes.resolve? id name = some now ∧ now ∈ near ++ [target] := by
  rcases Session.trace_governed (fun _ => trivial) steps (.initial source sink clock)
    (existingScopes_holds_initial source sink clock) with ⟨holds, grows⟩
  have wellFormed : ∀ machine ∈ Session.trace steps (.initial source sink clock),
      machine.scopes.WellFormed := by
    intro machine mem
    exact Scopes.wellFormed_of_sound (holds machine mem).sound
      (Session.grows_of_mem_trace grows mem).extend
  refine ⟨wellFormed, List.Pairwise.imp_of_mem ?_ grows⟩
  intro machine later mem _ grow
  refine ⟨grow.extend, ?_⟩
  intro id name target resolved
  rcases (wellFormed machine mem).chain id (Scopes.lt_nextId_of_resolve? resolved) with
    ⟨path, chain, -, -⟩
  rcases chain.resolveWithin_mono grow.extend resolved with
    ⟨near, far, now, rfl, resolvedNow, nearer⟩
  exact ⟨near, far, now, chain, resolvedNow, nearer⟩

end Lox
