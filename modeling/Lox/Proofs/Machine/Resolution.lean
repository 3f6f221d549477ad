import Lox.Proofs.Machine.Console
import Lox.Proofs.Machine.Names
import Lox.Proofs.Machine.RuledActs

/-!
# Looking up and assigning a name

Looking a name up and assigning to it agree on the scope that the name means something in, the first
on the chain that binds it.  An assignment gives the name another value there and changes nothing
else.  So the name has that value wherever it means that scope, in inner scopes that do not bind it
as well, and everything else means what it meant before: the name in scopes that bind it themselves
or lie elsewhere, and all other names.

* `Scopes.Nearest`: the first scope of a chain that binds a name.
* `Scopes.Binds.get?_rebind`: what every name means in every scope after a name is given another
  value in one of them.
* `lookup_agrees_with_assign`: when the two succeed, and what is different after an assignment.
-/

namespace Lox

namespace Scopes

variable {scopes before after : Scopes} {name : String} {id target : ScopeId}

/-- The scope binds the name. -/
def Binds (scopes : Scopes) (id : ScopeId) (name : String) : Prop :=
  ∃ scope, scopes.cells[id]? = some scope ∧ scope.bindings.binds name

/-- The first scope of the chain from a scope outwards that binds the name. -/
def Nearest (scopes : Scopes) (name : String) (id target : ScopeId) : Prop :=
  ∃ near far, scopes.Chain id (near ++ target :: far) ∧ scopes.Binds target name ∧
    ∀ other ∈ near, ¬ scopes.Binds other name

/-! ## The first scope that binds a name -/

theorem Acyclic.exists_chain (acyclic : scopes.Acyclic) (existing : id < scopes.nextId) :
    ∃ path, scopes.Chain id path := by
  induction id using Nat.strongRecOn with
  | ind id ih =>
    rcases exists_of_lt_nextId existing with ⟨scope, found⟩
    cases link : scope.enclosing with
    | none => exact ⟨[id], .outermost found link⟩
    | some outer =>
      have earlier := acyclic id scope outer found link
      rcases ih outer earlier (Nat.lt_trans earlier existing) with ⟨path, chain⟩
      exact ⟨id :: path, .inner found link chain⟩

theorem Chain.exists_cons {path : List ScopeId} (chain : scopes.Chain id path) :
    ∃ rest, path = id :: rest := by
  cases chain with
  | outermost _ _ => exact ⟨[], rfl⟩
  | inner _ _ _ => exact ⟨_, rfl⟩

theorem Finds.nearest (acyclic : scopes.Acyclic) (finds : scopes.Finds name id target) :
    scopes.Nearest name id target := by
  induction finds with
  | @here id scope found binds =>
    rcases acyclic.exists_chain (lt_nextId_of_some found) with ⟨path, chain⟩
    rcases chain.exists_cons with ⟨far, rfl⟩
    exact ⟨[], far, chain, ⟨scope, found, binds⟩, by simp⟩
  | @outwards id outer target scope found free link _ ih =>
    rcases ih with ⟨near, far, chain, binds, none⟩
    have freeHere : ¬ scopes.Binds id name := by
      intro bound
      rcases bound with ⟨other, foundOther, binds⟩
      rw [found] at foundOther
      cases foundOther
      exact free binds
    exact ⟨id :: near, far, .inner found link chain, binds, List.forall_mem_cons.2 ⟨freeHere, none⟩⟩

theorem Nearest.finds (nearest : scopes.Nearest name id target) : scopes.Finds name id target := by
  rcases nearest with ⟨near, far, chain, ⟨scope, found, binds⟩, none⟩
  induction near generalizing id with
  | nil =>
    rcases chain.exists_cons with ⟨rest, same⟩
    cases same
    exact .here found binds
  | cons first near ih =>
    rcases List.forall_mem_cons.1 none with ⟨free, others⟩
    generalize whole : first :: near ++ target :: far = path at chain
    cases chain with
    | outermost _ _ =>
      have length := congrArg List.length whole
      simp at length
    | @inner _ here outer path foundHere link chain =>
      rw [List.cons_append, List.cons.injEq] at whole
      rcases whole with ⟨rfl, rfl⟩
      exact .outwards foundHere (fun binds => free ⟨here, foundHere, binds⟩) link (ih chain others)

theorem Chain.exists_finds {path : List ScopeId} (chain : scopes.Chain id path) {bound : ScopeId}
    (mem : bound ∈ path) (binds : scopes.Binds bound name) :
    ∃ target, scopes.Finds name id target := by
  induction chain with
  | @outermost id scope found last =>
    rcases binds with ⟨other, foundOther, binds⟩
    rw [List.mem_singleton.1 mem] at foundOther
    exact ⟨id, .here foundOther binds⟩
  | @inner id scope outer path found link chain ih =>
    by_cases here : scope.bindings.binds name
    · exact ⟨id, .here found here⟩
    · rcases List.mem_cons.1 mem with rfl | further
      · rcases binds with ⟨other, foundOther, binds⟩
        rw [found] at foundOther
        cases foundOther
        exact absurd binds here
      · rcases ih further with ⟨target, finds⟩
        exact ⟨target, .outwards found here link finds⟩

/-- Some scope of the chain binds the name exactly if there is a nearest one that does. -/
theorem exists_binds_iff_exists_finds (acyclic : scopes.Acyclic) (id : ScopeId) (name : String) :
    (∃ path, scopes.Chain id path ∧ ∃ bound ∈ path, scopes.Binds bound name) ↔
      ∃ target, scopes.Finds name id target := by
  constructor
  · rintro ⟨path, chain, bound, mem, binds⟩
    exact chain.exists_finds mem binds
  · rintro ⟨target, finds⟩
    rcases finds.nearest acyclic with ⟨near, far, chain, binds, -⟩
    exact ⟨_, chain, target, by simp, binds⟩

/-! ## A name with another value -/

/-- Where the same scopes bind the same names, all names are resolved alike. -/
theorem KeepsNames.resolveWithin_eq (keeps : KeepsNames (fun _ => False) before after)
    (count : after.nextId = before.nextId) (name : String) (steps : Nat) (id : ScopeId) :
    after.resolveWithin name steps id = before.resolveWithin name steps id := by
  induction steps generalizing id with
  | zero => rfl
  | succ steps ih =>
    cases found : before.cells[id]? with
    | none =>
      have missing : after.cells[id]? = none := by
        have size : after.cells.size = before.cells.size := count
        rw [Array.getElem?_eq_none_iff] at found ⊢
        rw [size]
        exact found
      simp only [resolveWithin, found, missing]
    | some scope =>
      rcases keeps id scope found with ⟨now, foundNow, link, names⟩
      simp only [resolveWithin, found, foundNow, link, names not_false, ih]

variable {value : Value}

theorem Binds.keepsNames (binds : scopes.Binds target name) :
    KeepsNames (fun _ => False) scopes (scopes.define target name value) := by
  rcases binds with ⟨scope, found, bound⟩
  exact .rebind value found bound

/-- The scopes bind the same names as before. -/
theorem Binds.binds_rebind_iff (binds : scopes.Binds target name) {other : String} :
    (scopes.define target name value).Binds id other ↔ scopes.Binds id other := by
  have keeps : KeepsNames (fun _ => False) scopes (scopes.define target name value) :=
    binds.keepsNames
  constructor
  · rintro ⟨now, foundNow, bound⟩
    have existing := lt_nextId_of_some foundNow
    rw [nextId_define] at existing
    rcases exists_of_lt_nextId existing with ⟨scope, found⟩
    rcases keeps id scope found with ⟨same, foundSame, -, names⟩
    rw [foundNow] at foundSame
    cases foundSame
    rw [names not_false] at bound
    exact ⟨scope, found, bound⟩
  · rintro ⟨scope, found, bound⟩
    rcases keeps id scope found with ⟨now, foundNow, -, names⟩
    rw [← names not_false] at bound
    exact ⟨now, foundNow, bound⟩

theorem Binds.resolve?_rebind (binds : scopes.Binds target name) (other : String) :
    (scopes.define target name value).resolve? id other = scopes.resolve? id other :=
  binds.keepsNames.resolveWithin_eq (nextId_define ..) other (id + 1) id

/-- What the scope of a rebound name binds. -/
theorem exists_rebound {scope : Scope} (found : scopes.cells[target]? = some scope) (name : String)
    (value : Value) :
    ∃ now, (scopes.define target name value).cells[target]? = some now ∧
      now.enclosing = scope.enclosing ∧
      ∀ other, now.bindings.get? other = if other = name then some value
        else scope.bindings.get? other := by
  refine ⟨{ scope with bindings := scope.bindings.insert name value }, ?_, rfl,
    Bindings.get?_insert _ _ _⟩
  rw [define, Array.getElem?_modify, if_pos rfl, found]
  rfl

/-- A name has the new value where it means the scope that it was rebound in, and all else means
what it did. -/
theorem Binds.get?_rebind (binds : scopes.Binds target name) (value : Value) (id : ScopeId)
    (other : String) :
    (scopes.define target name value).get? id other =
      if other = name ∧ scopes.resolve? id name = some target then some value
        else scopes.get? id other := by
  rcases binds with ⟨scope, found, bound⟩
  have resolved : (scopes.define target name value).resolve? id other = scopes.resolve? id other :=
    Binds.resolve?_rebind ⟨scope, found, bound⟩ other
  rw [get?_eq_bind_resolve?, get?_eq_bind_resolve?, resolved]
  by_cases there : scopes.resolve? id other = some target
  · rcases exists_rebound found name value with ⟨now, foundNow, -, rebound⟩
    simp only [there, Option.bind_some, foundNow, found, rebound]
    by_cases same : other = name
    · subst same
      simp only [there, and_self, ↓reduceIte]
    · simp only [same, false_and, ↓reduceIte]
  · have apart : ¬ (other = name ∧ scopes.resolve? id name = some target) := by
      rintro ⟨rfl, there'⟩
      exact there there'
    rw [if_neg apart]
    cases elsewhere : scopes.resolve? id other with
    | none => rfl
    | some place =>
      have ne : place ≠ target := by
        rintro rfl
        exact there elsewhere
      simp only [Option.bind_some, getElem?_define_ne name value ne]

end Scopes

/-! ## Lookups and assignments -/

section Agreement

variable {machine : Machine} {scopes : Scopes}

theorem Scopes.Finds.binds {name : String} {id target : ScopeId}
    (finds : scopes.Finds name id target) : scopes.Binds target name := by
  induction finds with
  | here found binds => exact ⟨_, found, binds⟩
  | outwards _ _ _ _ ih => exact ih

theorem lookup_of_get? {name : Lexeme} {value : Value}
    (meaning : machine.scopes.get? machine.current name.text = some value) :
    Eval.lookup name machine = .ok value machine := by
  simp only [Eval.lookup, meaning]

/-- A lookup in a store where the name means the same gives the same. -/
theorem lookup_of_get?_eq {name : Lexeme} {current : ScopeId}
    (same : scopes.get? current name.text = machine.scopes.get? current name.text) :
    Eval.lookup name { machine with scopes, current } =
      leaving ({ · with scopes }) (Eval.lookup name { machine with current }) := by
  simp only [Eval.lookup, same]
  cases machine.scopes.get? current name.text with
  | none => rfl
  | some value => rfl

/-- A lookup succeeds exactly if the name is bound on the chain of the current scope. -/
theorem exists_lookup_iff (acyclic : machine.scopes.Acyclic) (name : Lexeme) :
    (∃ found after, Eval.lookup name machine = .ok found after) ↔
      ∃ target, machine.scopes.Finds name.text machine.current target := by
  constructor
  · rintro ⟨found, after, succeeds⟩
    apply Classical.byContradiction
    intro never
    rw [lookup_of_unbound acyclic (not_exists.1 never)] at succeeds
    cases succeeds
  · rintro ⟨target, finds⟩
    rcases finds.exists_get? with ⟨scope, value, found, bound⟩
    exact ⟨value, machine, lookup_of_finds acyclic finds found bound⟩

/-- So does an assignment. -/
theorem exists_assign_iff (acyclic : machine.scopes.Acyclic) (name : Lexeme) (value : Value) :
    (∃ after, Eval.assign name value machine = .ok () after) ↔
      ∃ target, machine.scopes.Finds name.text machine.current target := by
  constructor
  · rintro ⟨after, succeeds⟩
    apply Classical.byContradiction
    intro never
    rw [assign_of_unbound acyclic (not_exists.1 never)] at succeeds
    cases succeeds
  · rintro ⟨target, finds⟩
    exact ⟨_, assign_of_finds acyclic finds value⟩

end Agreement

/-- What an assignment to a name does to the scopes, if the name means something in the target: the
name has the new value there, and nothing else is different. -/
structure Scopes.Rebinds (before : Scopes) (target : ScopeId) (name : String) (value : Value)
    (after : Scopes) : Prop where
  elsewhere : ∀ id, id ≠ target → after.cells[id]? = before.cells[id]?
  there : ∃ scope now : Scope, before.cells[target]? = some scope ∧
    after.cells[target]? = some now ∧ now.enclosing = scope.enclosing ∧
      ∀ other, now.bindings.get? other = if other = name then some value
        else scope.bindings.get? other
  names : ∀ id other, after.Binds id other ↔ before.Binds id other

theorem Scopes.Binds.rebinds {scopes : Scopes} {target : ScopeId} {name : String}
    (binds : scopes.Binds target name) (value : Value) :
    scopes.Rebinds target name value (scopes.define target name value) where
  elsewhere _ ne := getElem?_define_ne name value ne
  there := by
    rcases binds with ⟨scope, found, -⟩
    rcases exists_rebound found name value with ⟨now, rebound⟩
    exact ⟨scope, now, found, rebound⟩
  names _ _ := binds.binds_rebind_iff

/-- Looking a name up and assigning to it succeed in the same scopes, those on whose chain a scope
binds the name.

An assignment that succeeds rebinds the name in the first such scope.  From any scope, the name then
has the new value if that scope is the first from there, too, and otherwise each name has what it
had before, a value or a failure.  An assignment that fails leaves the machine as it was, with the
failure of the lookup. -/
theorem lookup_agrees_with_assign {machine : Machine} (acyclic : machine.scopes.Acyclic)
    (name : Lexeme) (value : Value) :
    ((∃ found after, Eval.lookup name machine = .ok found after) ↔
      ∃ path, machine.scopes.Chain machine.current path ∧
        ∃ id ∈ path, machine.scopes.Binds id name.text) ∧
    ((∃ after, Eval.assign name value machine = .ok () after) ↔
      ∃ path, machine.scopes.Chain machine.current path ∧
        ∃ id ∈ path, machine.scopes.Binds id name.text) ∧
    (∀ after, Eval.assign name value machine = .ok () after →
      ∃ target scopes, after = { machine with scopes } ∧
        machine.scopes.Nearest name.text machine.current target ∧
        machine.scopes.Rebinds target name.text value scopes ∧
        ∀ current other,
          (other.text = name.text ∧ machine.scopes.Nearest name.text current target →
            Eval.lookup other { machine with scopes, current } =
              .ok value { machine with scopes, current }) ∧
          (¬ (other.text = name.text ∧ machine.scopes.Nearest name.text current target) →
            Eval.lookup other { machine with scopes, current } =
              leaving ({ · with scopes }) (Eval.lookup other { machine with current }))) ∧
    (∀ halt after, Eval.assign name value machine = .error halt after →
      after = machine ∧ halt = .failure (.runtime name.line (.undefinedVariable name.text)) ∧
        Eval.lookup name machine = .error halt machine) := by
  have bound := Scopes.exists_binds_iff_exists_finds acyclic machine.current name.text
  refine ⟨(exists_lookup_iff acyclic name).trans bound.symm,
    (exists_assign_iff acyclic name value).trans bound.symm, ?_, ?_⟩
  · intro after assigned
    rcases (exists_assign_iff acyclic name value).1 ⟨after, assigned⟩ with ⟨target, finds⟩
    have binds := Scopes.Finds.binds finds
    rw [assign_of_finds acyclic finds] at assigned
    cases assigned
    refine ⟨target, machine.scopes.define target name.text value, rfl,
      Scopes.Finds.nearest acyclic finds, binds.rebinds value, ?_⟩
    intro current other
    have meaning := binds.get?_rebind value current other.text
    have resolved : machine.scopes.resolve? current name.text = some target ↔
        machine.scopes.Nearest name.text current target :=
      (Scopes.resolve?_eq_some_iff acyclic).trans
        ⟨Scopes.Finds.nearest acyclic, Scopes.Nearest.finds⟩
    rw [← resolved]
    constructor
    · intro means
      rw [if_pos means] at meaning
      exact lookup_of_get? meaning
    · intro apart
      rw [if_neg apart] at meaning
      exact lookup_of_get?_eq meaning
  · intro halt after failed
    have never : ∀ target, ¬ machine.scopes.Finds name.text machine.current target := by
      intro target finds
      rw [assign_of_finds acyclic finds] at failed
      cases failed
    rw [assign_of_unbound acyclic never] at failed
    cases failed
    exact ⟨rfl, rfl, lookup_of_unbound acyclic never⟩

/-- The store of every machine that a session passes through is acyclic. -/
theorem Session.Passes.acyclic {machine : Machine} (passes : Session.Passes machine) :
    machine.scopes.Acyclic := by
  rcases passes with ⟨steps, source, sink, clock, mem⟩
  have holds := Session.trace_governed (fun _ => trivial) steps (.initial source sink clock)
    (existingScopes_holds_initial source sink clock)
  exact (holds.1 machine mem).acyclic

/-- A block that declares a variable, with an empty block in it: `{ var a; { } }` -/
def nestedBlocks : List Token :=
  [Kind.leftBrace, .var, .identifier, .semicolon, .leftBrace, .rightBrace, .rightBrace].map
    fun kind => ⟨⟨"a", 1⟩, kind⟩

/-- The session after the blocks. -/
def afterNestedBlocks : Session :=
  (Session.forceTokens 9 nestedBlocks (.initial {} {} { time := fun _ => 0 })).value

theorem afterNestedBlocks_passes : Session.Passes afterNestedBlocks.machine := by
  refine ⟨[(9, .forceTokens nestedBlocks)], {}, {}, { time := fun _ => 0 }, ?_⟩
  exact List.mem_append_right _ (List.mem_singleton.2 rfl)

/-- An assignment in the inner block changes the variable of the outer one.  The global scope still
does not know the name. -/
theorem lookup_agrees_with_assign_nestedBlocks :
    afterNestedBlocks.machine.scopes.Acyclic ∧
    ∃ scopes,
      Eval.assign ⟨"a", 1⟩ (.bool true) { afterNestedBlocks.machine with current := 2 } =
        .ok () { afterNestedBlocks.machine with scopes, current := 2 } ∧
      afterNestedBlocks.machine.scopes.Rebinds 1 "a" (.bool true) scopes ∧
      Eval.lookup ⟨"a", 2⟩ { afterNestedBlocks.machine with scopes, current := 2 } =
        .ok (.bool true) { afterNestedBlocks.machine with scopes, current := 2 } ∧
      Eval.lookup ⟨"a", 2⟩ { afterNestedBlocks.machine with scopes, current := 0 } =
        .error (.failure (.runtime 2 (.undefinedVariable "a")))
          { afterNestedBlocks.machine with scopes, current := 0 } := by
  have acyclic := afterNestedBlocks_passes.acyclic
  have chain : afterNestedBlocks.machine.scopes.Chain 2 [2, 1, 0] :=
    .inner rfl rfl (.inner rfl rfl (.outermost rfl rfl))
  have binds : afterNestedBlocks.machine.scopes.Binds 1 "a" := ⟨_, rfl, rfl⟩
  have resolved : ∀ target, afterNestedBlocks.machine.scopes.Nearest "a" 2 target → target = 1 := by
    intro target nearest
    have found := (Scopes.resolve?_eq_some_iff acyclic).2 nearest.finds
    have one : afterNestedBlocks.machine.scopes.resolve? 2 "a" = some 1 := rfl
    rw [one] at found
    exact (Option.some.inj found).symm
  have unresolved : ¬ afterNestedBlocks.machine.scopes.Nearest "a" 0 1 := by
    intro nearest
    have found := (Scopes.resolve?_eq_some_iff acyclic).2 nearest.finds
    cases found
  have acyclicInside : { afterNestedBlocks.machine with current := 2 }.scopes.Acyclic := acyclic
  obtain ⟨-, succeeds, changes, -⟩ := lookup_agrees_with_assign acyclicInside ⟨"a", 1⟩ (.bool true)
  obtain ⟨after, assigned⟩ := succeeds.2 ⟨[2, 1, 0], chain, 1, by simp, binds⟩
  obtain ⟨target, scopes, rfl, nearest, rebinds, lookups⟩ := changes after assigned
  obtain rfl : target = 1 := resolved target nearest
  refine ⟨acyclic, scopes, assigned, rebinds, (lookups 2 ⟨"a", 2⟩).1 ⟨rfl, nearest⟩, ?_⟩
  rw [(lookups 0 ⟨"a", 2⟩).2 fun both => unresolved both.2]
  rfl

end Lox
