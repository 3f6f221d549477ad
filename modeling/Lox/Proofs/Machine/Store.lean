import Lox.Machine.Scope

/-!
# The store of scopes

What one change of the store does to each of its scopes, and what no change ever undoes.

* `Scopes.Extends`: a store goes on from another one if old scopes keep their place in the chain and
  the names that they bind, and new scopes lie in another one.
* `Scopes.Chain`: the scopes from a scope outwards.  In an acyclic store there is one from every
  scope.
* `Scopes.Finds`: the nearest scope that binds a name.  It is looked for in only so many scopes,
  which are enough where each scope lies in an earlier one.
* `Scopes.Chain.resolveWithin_mono`: a name that means something in a scope goes on to do so, in the
  same scope of the chain or in a nearer one.
-/

namespace Lox

namespace Bindings

theorem get?_insert (bindings : Bindings) (name : String) (value : Value) (other : String) :
    (bindings.insert name value).get? other = if other = name then some value
      else bindings.get? other := by
  induction bindings with
  | nil =>
    by_cases same : other = name
    · simp [insert, get?, same]
    · simp [insert, get?, same]
  | cons binding rest ih =>
    rcases binding with ⟨first, old⟩
    unfold get? at ih ⊢
    by_cases replaced : first = name
    · subst replaced
      rw [insert, if_pos rfl, List.lookup_cons, List.lookup_cons]
      by_cases same : other = first
      · simp [same]
      · have skipped : (other == first) = false := by simpa using same
        rw [skipped, if_neg same]
    · rw [insert, if_neg replaced, List.lookup_cons, List.lookup_cons, ih]
      by_cases found : other = first
      · simp [found, replaced]
      · have skipped : (other == first) = false := by simpa using found
        rw [skipped]

theorem binds_insert {bindings : Bindings} {name : String} (value : Value) {other : String}
    (bound : bindings.binds other) : (bindings.insert name value).binds other := by
  unfold binds at bound ⊢
  rw [get?_insert]
  split
  · rfl
  · exact bound

/-- What `insert` binds is the new value, or was bound before. -/
theorem of_get?_insert {bindings : Bindings} {name other : String} {value found : Value}
    (bound : (bindings.insert name value).get? other = some found) :
    found = value ∨ bindings.get? other = some found := by
  rw [get?_insert] at bound
  split at bound
  · exact .inl (Option.some.inj bound).symm
  · exact .inr bound

theorem mem_of_get?_ofArguments {params : List Lexeme} {arguments : List Value} {name : String}
    {value : Value} (bound : (ofArguments params arguments).get? name = some value) :
    value ∈ arguments := by
  have step : ∀ (pairs : List (Lexeme × Value)) (bindings : Bindings),
      (pairs.foldl (fun bindings pair => bindings.insert pair.1.text pair.2) bindings).get? name =
        some value →
      (∃ pair ∈ pairs, pair.2 = value) ∨ bindings.get? name = some value := by
    intro pairs
    induction pairs with
    | nil => intro bindings found; exact .inr found
    | cons pair rest ih =>
      intro bindings found
      rcases ih _ found with ⟨later, mem, same⟩ | earlier
      · exact .inl ⟨later, List.mem_cons_of_mem _ mem, same⟩
      · rcases of_get?_insert earlier with same | old
        · exact .inl ⟨pair, List.mem_cons_self, same.symm⟩
        · exact .inr old
  rcases step _ _ bound with ⟨pair, mem, same⟩ | none
  · rw [← same]
    exact (List.of_mem_zip mem).2
  · simp [get?] at none

end Bindings

namespace Scopes

variable {scopes before after : Scopes}

@[simp] theorem nextId_define (scopes : Scopes) (id : ScopeId) (name : String) (value : Value) :
    (scopes.define id name value).nextId = scopes.nextId := by
  simp [nextId, define]

@[simp] theorem nextId_push (scopes : Scopes) (enclosing : ScopeId) (bindings : Bindings) :
    (scopes.push enclosing bindings).nextId = scopes.nextId + 1 := by
  simp [nextId, push]

theorem lt_nextId_of_some {id : ScopeId} {scope : Scope} (found : scopes.cells[id]? = some scope) :
    id < scopes.nextId :=
  (Array.getElem?_eq_some_iff.1 found).1

theorem exists_of_lt_nextId {id : ScopeId} (existing : id < scopes.nextId) :
    ∃ scope, scopes.cells[id]? = some scope :=
  ⟨_, Array.getElem?_eq_getElem existing⟩

theorem getElem?_define_ne {id other : ScopeId} (name : String) (value : Value) (ne : other ≠ id) :
    (scopes.define id name value).cells[other]? = scopes.cells[other]? := by
  simp [define, Array.getElem?_modify, ne.symm]

/-- A scope after a name is bound in one of the scopes: the same, or the scope with that name
bound. -/
theorem of_getElem?_define {id other : ScopeId} {name : String} {value : Value} {scope : Scope}
    (found : (scopes.define id name value).cells[other]? = some scope) :
    scopes.cells[other]? = some scope ∨
      other = id ∧ ∃ old, scopes.cells[other]? = some old ∧
        scope = { old with bindings := old.bindings.insert name value } := by
  by_cases same : other = id
  · subst same
    rw [define, Array.getElem?_modify, if_pos rfl] at found
    rcases Option.map_eq_some_iff.1 found with ⟨old, foundOld, rfl⟩
    exact .inr ⟨rfl, old, foundOld, rfl⟩
  · rw [getElem?_define_ne name value same] at found
    exact .inl found

theorem getElem?_define_of_some {id other : ScopeId} (name : String) (value : Value) {scope : Scope}
    (found : scopes.cells[other]? = some scope) :
    ∃ now, (scopes.define id name value).cells[other]? = some now ∧
      now.enclosing = scope.enclosing ∧
      ∀ bound, scope.bindings.binds bound → now.bindings.binds bound := by
  by_cases same : other = id
  · subst same
    refine ⟨{ scope with bindings := scope.bindings.insert name value }, ?_, rfl, ?_⟩
    · rw [define, Array.getElem?_modify, if_pos rfl, found]
      rfl
    · intro bound binds
      exact Bindings.binds_insert value binds
  · rw [getElem?_define_ne name value same]
    exact ⟨scope, found, rfl, fun _ binds => binds⟩

theorem getElem?_push_of_lt {id : ScopeId} (enclosing : ScopeId) (bindings : Bindings)
    (old : id < scopes.nextId) :
    (scopes.push enclosing bindings).cells[id]? = scopes.cells[id]? := by
  unfold nextId at old
  rw [push, Array.getElem?_push, if_neg (Nat.ne_of_lt old)]

theorem of_getElem?_push {id enclosing : ScopeId} {bindings : Bindings} {scope : Scope}
    (found : (scopes.push enclosing bindings).cells[id]? = some scope) :
    scopes.cells[id]? = some scope ∨ id = scopes.nextId ∧ scope = ⟨some enclosing, bindings⟩ := by
  rw [push, Array.getElem?_push] at found
  split at found
  · exact .inr ⟨‹_›, (Option.some.inj found).symm⟩
  · exact .inl found

/-- The first scope is the global one, and it binds native functions only. -/
theorem of_getElem?_initial {id : ScopeId} {scope : Scope}
    (found : initial.cells[id]? = some scope) :
    id = globalId ∧ scope.enclosing = none ∧
      ∀ name value, scope.bindings.get? name = some value →
        ∃ primitive, value = .callable (.native primitive) := by
  have first : id = globalId := Nat.lt_one_iff.1 (lt_nextId_of_some found)
  subst first
  cases found
  refine ⟨rfl, rfl, ?_⟩
  intro name value bound
  rcases List.lookup_eq_some_iff.1 bound with ⟨front, back, split, -⟩
  have mem : (name, value) ∈ front ++ (name, value) :: back := by simp
  rw [← split] at mem
  rcases List.mem_map.1 mem with ⟨primitive, -, same⟩
  exact ⟨primitive, (congrArg Prod.snd same).symm⟩

/-! ## Growth -/

/-- A store goes on from an earlier one. -/
structure Extends (before after : Scopes) : Prop where
  /-- Old scopes keep their place in the chain and the names that they bind. -/
  old : ∀ (id : ScopeId) (scope : Scope), before.cells[id]? = some scope →
    ∃ now : Scope, after.cells[id]? = some now ∧ now.enclosing = scope.enclosing ∧
      ∀ name, scope.bindings.binds name → now.bindings.binds name
  /-- New scopes lie in another one. -/
  new : ∀ (id : ScopeId) (scope : Scope), before.nextId ≤ id → after.cells[id]? = some scope →
    scope.enclosing ≠ none

namespace Extends

theorem refl (scopes : Scopes) : Extends scopes scopes where
  old _ scope found := ⟨scope, found, rfl, fun _ binds => binds⟩
  new _ _ fresh found := absurd (lt_nextId_of_some found) (Nat.not_lt.2 fresh)

theorem nextId_le (extend : Extends before after) : before.nextId ≤ after.nextId := by
  apply Nat.le_of_not_lt
  intro shrunk
  rcases exists_of_lt_nextId shrunk with ⟨scope, found⟩
  rcases extend.old _ _ found with ⟨now, foundNow, -, -⟩
  exact Nat.lt_irrefl _ (lt_nextId_of_some foundNow)

theorem trans {last : Scopes} (first : Extends before after) (second : Extends after last) :
    Extends before last where
  old id scope found := by
    rcases first.old id scope found with ⟨middle, foundMiddle, linkMiddle, bindsMiddle⟩
    rcases second.old id middle foundMiddle with ⟨now, foundNow, linkNow, bindsNow⟩
    exact ⟨now, foundNow, linkNow.trans linkMiddle, fun name binds =>
      bindsNow name (bindsMiddle name binds)⟩
  new id scope fresh found := by
    by_cases middle : id < after.nextId
    · rcases exists_of_lt_nextId middle with ⟨earlier, foundEarlier⟩
      rcases second.old id earlier foundEarlier with ⟨now, foundNow, link, -⟩
      rw [found] at foundNow
      cases foundNow
      rw [link]
      exact first.new id earlier fresh foundEarlier
    · exact second.new id scope (Nat.le_of_not_lt middle) found

theorem define (scopes : Scopes) (id : ScopeId) (name : String) (value : Value) :
    Extends scopes (scopes.define id name value) where
  old _ _ found := getElem?_define_of_some name value found
  new other scope fresh found := by
    have old := lt_nextId_of_some found
    rw [nextId_define] at old
    exact absurd old (Nat.not_lt.2 fresh)

theorem push (scopes : Scopes) (enclosing : ScopeId) (bindings : Bindings) :
    Extends scopes (scopes.push enclosing bindings) where
  old id scope found := by
    refine ⟨scope, ?_, rfl, fun _ binds => binds⟩
    rw [getElem?_push_of_lt enclosing bindings (lt_nextId_of_some found)]
    exact found
  new id scope fresh found := by
    rcases of_getElem?_push found with old | ⟨-, rfl⟩
    · exact absurd (lt_nextId_of_some old) (Nat.not_lt.2 fresh)
    · exact Option.some_ne_none enclosing

end Extends

/-! ## Chains -/

/-- The scopes from a scope outwards, up to one that lies in no other. -/
inductive Chain (scopes : Scopes) : ScopeId → List ScopeId → Prop
  | outermost {id scope} : scopes.cells[id]? = some scope → scope.enclosing = none →
    Chain scopes id [id]
  | inner {id scope outer path} : scopes.cells[id]? = some scope → scope.enclosing = some outer →
      Chain scopes outer path → Chain scopes id (id :: path)

/-- Each scope lies in one that was there before it, so no chain runs in a circle. -/
def Acyclic (scopes : Scopes) : Prop :=
  ∀ (id : ScopeId) (scope : Scope) (outer : ScopeId), scopes.cells[id]? = some scope →
    scope.enclosing = some outer → outer < id

/-- The scope that a name is resolved to binds it, and whatever is kept outwards along the chain is
true of it. -/
theorem of_resolveWithin {P : ScopeId → Prop} {name : String}
    (outwards : ∀ id scope outer, P id → scopes.cells[id]? = some scope →
      scope.enclosing = some outer → P outer)
    {steps : Nat} {id target : ScopeId} (start : P id)
    (resolved : scopes.resolveWithin name steps id = some target) :
    P target ∧ ∃ scope, scopes.cells[target]? = some scope ∧ scope.bindings.binds name := by
  induction steps generalizing id with
  | zero => cases resolved
  | succ steps ih =>
    unfold resolveWithin at resolved
    cases found : scopes.cells[id]? with
    | none => simp only [found, reduceCtorEq] at resolved
    | some scope =>
      simp only [found] at resolved
      by_cases binds : scope.bindings.binds name
      · simp only [binds, ↓reduceIte, Option.some.injEq] at resolved
        subst resolved
        exact ⟨start, scope, found, binds⟩
      · cases link : scope.enclosing with
        | none => simp only [binds, link, Bool.false_eq_true, ↓reduceIte, reduceCtorEq] at resolved
        | some outer =>
          simp only [binds, link, Bool.false_eq_true, ↓reduceIte] at resolved
          exact ih (outwards id scope outer start found link) resolved

theorem lt_nextId_of_resolve? {id target : ScopeId} {name : String}
    (resolved : scopes.resolve? id name = some target) : id < scopes.nextId := by
  unfold resolve? resolveWithin at resolved
  cases found : scopes.cells[id]? with
  | none => simp only [found, reduceCtorEq] at resolved
  | some scope => exact lt_nextId_of_some found

/-- A name means, in a scope, what the nearest scope that binds it binds it to. -/
theorem getWithin_eq_bind_resolveWithin (scopes : Scopes) (name : String) (steps : Nat)
    (id : ScopeId) :
    scopes.getWithin name steps id =
      (scopes.resolveWithin name steps id).bind fun target =>
        scopes.cells[target]?.bind fun scope => scope.bindings.get? name := by
  induction steps generalizing id with
  | zero => rfl
  | succ steps ih =>
    unfold getWithin resolveWithin
    cases found : scopes.cells[id]? with
    | none => rfl
    | some scope =>
      cases bound : scope.bindings.get? name with
      | some value => simp [Bindings.binds, bound, found]
      | none =>
        cases link : scope.enclosing with
        | none => simp [Bindings.binds, bound, link]
        | some outer => simp [Bindings.binds, bound, link, ih outer]

theorem get?_eq_bind_resolve? (scopes : Scopes) (id : ScopeId) (name : String) :
    scopes.get? id name =
      (scopes.resolve? id name).bind fun target =>
        scopes.cells[target]?.bind fun scope => scope.bindings.get? name :=
  scopes.getWithin_eq_bind_resolveWithin name (id + 1) id

/-- Looking a name up gives a value that a scope of the chain binds it to. -/
theorem of_get? {P : ScopeId → Prop} {name : String} {value : Value}
    (outwards : ∀ id scope outer, P id → scopes.cells[id]? = some scope →
      scope.enclosing = some outer → P outer)
    {id : ScopeId} (start : P id) (found : scopes.get? id name = some value) :
    ∃ target scope, P target ∧ scopes.cells[target]? = some scope ∧
      scope.bindings.get? name = some value := by
  rw [get?_eq_bind_resolve?] at found
  rcases Option.bind_eq_some_iff.1 found with ⟨target, resolved, inTarget⟩
  rcases Option.bind_eq_some_iff.1 inTarget with ⟨scope, foundScope, bound⟩
  exact ⟨target, scope, (of_resolveWithin outwards start resolved).1, foundScope, bound⟩

/-- In a store that goes on from another one, a name is resolved in the same scope of the chain or
in a nearer one. -/
theorem Chain.resolveWithin_mono (extend : Extends before after) {name : String} {steps : Nat}
    {id target : ScopeId} {path : List ScopeId} (chain : before.Chain id path)
    (resolved : before.resolveWithin name steps id = some target) :
    ∃ near far now, path = near ++ target :: far ∧ after.resolveWithin name steps id = some now ∧
      now ∈ near ++ [target] := by
  induction steps generalizing id path with
  | zero => cases resolved
  | succ steps ih =>
    have head : ∃ scope rest, before.cells[id]? = some scope ∧ path = id :: rest ∧
        ∀ outer, scope.enclosing = some outer → before.Chain outer rest := by
      cases chain with
      | outermost found last =>
        refine ⟨_, [], found, rfl, ?_⟩
        intro outer link
        rw [last] at link
        cases link
      | inner found link chain =>
        refine ⟨_, _, found, rfl, ?_⟩
        intro outer link'
        rw [link] at link'
        cases link'
        exact chain
    rcases head with ⟨scope, rest, found, rfl, further⟩
    rcases extend.old id scope found with ⟨now, foundNow, link, kept⟩
    unfold resolveWithin at resolved ⊢
    simp only [found, foundNow, link] at resolved ⊢
    by_cases binds : scope.bindings.binds name
    · simp only [binds, ↓reduceIte, Option.some.injEq] at resolved
      subst resolved
      simp only [kept name binds, ↓reduceIte]
      exact ⟨[], rest, id, rfl, rfl, List.mem_singleton_self id⟩
    · cases outwards : scope.enclosing with
      | none =>
        simp only [binds, outwards, Bool.false_eq_true, ↓reduceIte, reduceCtorEq] at resolved
      | some outer =>
        simp only [binds, outwards, Bool.false_eq_true, ↓reduceIte] at resolved ⊢
        rcases ih (further outer outwards) resolved with ⟨near, far, nearer, rfl, resolvedNow, mem⟩
        by_cases bindsNow : now.bindings.binds name
        · simp only [bindsNow, ↓reduceIte]
          exact ⟨id :: near, far, id, rfl, rfl, List.mem_cons_self⟩
        · simp only [bindsNow, Bool.false_eq_true, ↓reduceIte]
          exact ⟨id :: near, far, nearer, rfl, resolvedNow, List.mem_cons_of_mem id mem⟩

/-! ## The nearest scope that binds a name -/

section Finds

variable {name : String}

/-- The nearest scope outwards that binds a name. -/
inductive Finds (scopes : Scopes) (name : String) : ScopeId → ScopeId → Prop where
  | here {id : ScopeId} {scope : Scope} : scopes.cells[id]? = some scope →
    scope.bindings.binds name → Finds scopes name id id
  | outwards {id outer target : ScopeId} {scope : Scope} : scopes.cells[id]? = some scope →
    ¬ scope.bindings.binds name → scope.enclosing = some outer → Finds scopes name outer target →
    Finds scopes name id target

theorem Finds.resolveWithin_eq (acyclic : scopes.Acyclic) {id target : ScopeId}
    (finds : scopes.Finds name id target) {steps : Nat} (enough : id < steps) :
    scopes.resolveWithin name steps id = some target := by
  induction finds generalizing steps with
  | here found binds =>
    obtain ⟨steps, rfl⟩ := Nat.exists_eq_add_one.2 (Nat.zero_lt_of_lt enough)
    simp only [resolveWithin, found, binds, ↓reduceIte]
  | outwards found free link _ ih =>
    obtain ⟨steps, rfl⟩ := Nat.exists_eq_add_one.2 (Nat.zero_lt_of_lt enough)
    have earlier := acyclic _ _ _ found link
    have outside := ih (Nat.lt_of_lt_of_le earlier (Nat.lt_succ_iff.1 enough))
    simp only [resolveWithin, found, free, link, outside, Bool.false_eq_true, ↓reduceIte]

theorem finds_of_resolveWithin {id target : ScopeId} {steps : Nat}
    (resolved : scopes.resolveWithin name steps id = some target) :
    scopes.Finds name id target := by
  induction steps generalizing id with
  | zero => cases resolved
  | succ steps ih =>
    unfold resolveWithin at resolved
    cases found : scopes.cells[id]? with
    | none => simp only [found, reduceCtorEq] at resolved
    | some scope =>
      simp only [found] at resolved
      by_cases binds : scope.bindings.binds name
      · simp only [binds, ↓reduceIte, Option.some.injEq] at resolved
        subst resolved
        exact .here found binds
      · cases link : scope.enclosing with
        | none => simp only [binds, link, Bool.false_eq_true, ↓reduceIte, reduceCtorEq] at resolved
        | some outer =>
          simp only [binds, link, Bool.false_eq_true, ↓reduceIte] at resolved
          exact .outwards found binds link (ih resolved)

/-- A name is resolved to the nearest scope that binds it. -/
theorem resolve?_eq_some_iff (acyclic : scopes.Acyclic) {id target : ScopeId} :
    scopes.resolve? id name = some target ↔ scopes.Finds name id target :=
  ⟨finds_of_resolveWithin, fun finds => finds.resolveWithin_eq acyclic (Nat.lt_succ_self id)⟩

theorem resolve?_eq_none (acyclic : scopes.Acyclic) {id : ScopeId}
    (never : ∀ target, ¬ scopes.Finds name id target) : scopes.resolve? id name = none := by
  rw [Option.eq_none_iff_forall_ne_some]
  intro target resolved
  exact never target ((resolve?_eq_some_iff acyclic).1 resolved)

theorem Finds.exists_get? {id target : ScopeId} (finds : scopes.Finds name id target) :
    ∃ scope value, scopes.cells[target]? = some scope ∧ scope.bindings.get? name = some value := by
  induction finds with
  | here found binds =>
    obtain ⟨value, bound⟩ := Option.isSome_iff_exists.1 binds
    exact ⟨_, value, found, bound⟩
  | outwards _ _ _ _ ih => exact ih

end Finds

end Scopes

end Lox
