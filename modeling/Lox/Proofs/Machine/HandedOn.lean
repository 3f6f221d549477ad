import Mathlib.Logic.Relation
import Lox.Proofs.Machine.Resolution

/-!
# Values that are handed on

A value gets from one place to another by an assignment or the declaration of a variable, as an
argument of a call, under a name that the scope of a declaration captures, and by a `return` through
the statements around it to the call.

* `HandedOn`: the ways in which a value gets from one place to the next.
* `HandedOn.eq`: it is the very same value there.
-/

namespace Lox

open Eval

/-! ## What a name means -/

section Names

variable {machine after : Machine} {name : Lexeme} {value : Value}

theorem get?_of_lookup (found : Eval.lookup name machine = .ok value after) :
    machine.scopes.get? machine.current name.text = some value := by
  unfold Eval.lookup at found
  cases meaning : machine.scopes.get? machine.current name.text with
  | none =>
    simp only [meaning] at found
    cases found
  | some other =>
    simp only [meaning] at found
    cases found
    rfl

theorem get?_of_assign (assigned : Eval.assign name value machine = .ok () after) :
    after.scopes.get? after.current name.text = some value := by
  unfold Eval.assign Scopes.assign? at assigned
  cases resolved : machine.scopes.resolve? machine.current name.text with
  | none =>
    simp only [resolved] at assigned
    cases assigned
  | some target =>
    simp only [resolved] at assigned
    cases assigned
    have binds : machine.scopes.Binds target name.text :=
      (Scopes.finds_of_resolveWithin resolved).binds
    exact (binds.get?_rebind value machine.current name.text).trans (if_pos ⟨rfl, resolved⟩)

end Names

namespace Scopes

variable {scopes : Scopes} {name : String} {id target : ScopeId} {scope : Scope} {value : Value}

theorem get?_of_bound (found : scopes.cells[id]? = some scope)
    (bound : scope.bindings.get? name = some value) : scopes.get? id name = some value := by
  simp only [get?, getWithin, found, bound]

/-- A name that was just defined in a scope has its new value, if it has any. -/
theorem eq_of_get?_define {handed : Value}
    (meaning : (scopes.define id name value).get? id name = some handed) : handed = value := by
  cases found : scopes.cells[id]? with
  | none =>
    have missing : (scopes.define id name value).cells[id]? = none := by
      rw [define, Array.getElem?_modify, if_pos rfl, found]
      rfl
    simp only [get?, getWithin, missing, reduceCtorEq] at meaning
  | some scope =>
    rcases exists_rebound found name value with ⟨now, foundNow, -, rebound⟩
    have bound : now.bindings.get? name = some value := (rebound name).trans (if_pos rfl)
    rw [get?_of_bound foundNow bound] at meaning
    exact (Option.some.inj meaning).symm

theorem Finds.unique {other : ScopeId} (finds : scopes.Finds name id target)
    (also : scopes.Finds name id other) : target = other := by
  induction finds with
  | here found binds =>
    cases also with
    | here _ _ => rfl
    | outwards foundHere free _ _ =>
      rw [found] at foundHere
      cases foundHere
      exact absurd binds free
  | outwards found free link _ ih =>
    cases also with
    | here foundHere binds =>
      rw [found] at foundHere
      cases foundHere
      exact absurd binds free
    | outwards foundHere _ linkHere further =>
      rw [found] at foundHere
      cases foundHere
      rw [link] at linkHere
      cases linkHere
      exact ih further

theorem Finds.push (finds : scopes.Finds name id target) (enclosing : ScopeId)
    (bindings : Bindings) : (scopes.push enclosing bindings).Finds name id target := by
  have kept : ∀ {id : ScopeId} {scope : Scope}, scopes.cells[id]? = some scope →
      (scopes.push enclosing bindings).cells[id]? = some scope := by
    intro id scope found
    rw [getElem?_push_of_lt enclosing bindings (lt_nextId_of_some found)]
    exact found
  induction finds with
  | here found binds => exact .here (kept found) binds
  | outwards found free link _ ih => exact .outwards (kept found) free link ih

theorem finds_of_get? (meaning : scopes.get? id name = some value) :
    ∃ target scope, scopes.Finds name id target ∧ scopes.cells[target]? = some scope ∧
      scope.bindings.get? name = some value := by
  rw [get?_eq_bind_resolve?] at meaning
  rcases Option.bind_eq_some_iff.1 meaning with ⟨target, resolved, inTarget⟩
  rcases Option.bind_eq_some_iff.1 inTarget with ⟨scope, found, bound⟩
  exact ⟨target, scope, finds_of_resolveWithin resolved, found, bound⟩

theorem getElem?_push_nextId (scopes : Scopes) (enclosing : ScopeId) (bindings : Bindings) :
    (scopes.push enclosing bindings).cells[scopes.nextId]? = some ⟨some enclosing, bindings⟩ :=
  Array.getElem?_push_size

/-- A name that a new scope does not bind means there what it means in the scope around, if it means
something in both. -/
theorem eq_of_get?_push {enclosing : ScopeId} {bindings : Bindings} {handed : Value}
    (free : bindings.get? name = none) (outside : scopes.get? enclosing name = some value)
    (inside : (scopes.push enclosing bindings).get? scopes.nextId name = some handed) :
    handed = value := by
  rcases finds_of_get? outside with ⟨target, scope, finds, found, bound⟩
  rcases finds_of_get? inside with ⟨other, scopeThere, findsThere, foundThere, boundThere⟩
  have here := getElem?_push_nextId scopes enclosing bindings
  -- The search goes on from the new scope to the one around, and from there it is the search in the
  -- store before.
  cases findsThere with
  | here foundHere binds =>
    rw [here] at foundHere
    cases foundHere
    simp only [Bindings.binds, free, Option.isSome_none, Bool.false_eq_true] at binds
  | outwards foundHere _ link further =>
    rw [here] at foundHere
    cases foundHere
    cases link
    cases further.unique (finds.push _ bindings)
    rw [getElem?_push_of_lt _ bindings (lt_nextId_of_some found), found] at foundThere
    cases foundThere
    rw [bound] at boundThere
    exact (Option.some.inj boundThere).symm

end Scopes

/-! ## Arguments -/

namespace Bindings

variable {name : String}

theorem get?_foldl_insert_of_ne {pairs : List (Lexeme × Value)}
    (apart : ∀ pair ∈ pairs, pair.1.text ≠ name) (bindings : Bindings) :
    (pairs.foldl (fun bindings pair => bindings.insert pair.1.text pair.2) bindings).get? name =
      bindings.get? name := by
  induction pairs generalizing bindings with
  | nil => rfl
  | cons pair rest ih =>
    rcases List.forall_mem_cons.1 apart with ⟨ne, others⟩
    rw [List.foldl_cons, ih others, get?_insert, if_neg ne.symm]

/-- A name that is no parameter is not bound. -/
theorem get?_ofArguments_of_ne {params : List Lexeme} (apart : ∀ param ∈ params, param.text ≠ name)
    (arguments : List Value) : (ofArguments params arguments).get? name = none :=
  get?_foldl_insert_of_ne (fun _ mem => apart _ (List.of_mem_zip mem).1) []

/-- A parameter is bound to its argument, if no later parameter has its name. -/
theorem get?_ofArguments {params : List Lexeme} {arguments : List Value} {place : Nat}
    {param : Lexeme} {value : Value} (isParam : params[place]? = some param)
    (isArgument : arguments[place]? = some value)
    (apart : ∀ later ∈ params.drop (place + 1), later.text ≠ param.text) :
    (ofArguments params arguments).get? param.text = some value := by
  suffices general : ∀ bindings : Bindings,
      Bindings.get?
        ((params.zip arguments).foldl
          (fun bindings pair => bindings.insert pair.1.text pair.2) bindings)
        param.text = some value from general []
  intro bindings
  induction place generalizing params arguments bindings with
  | zero =>
    rcases params with _ | ⟨first, params⟩
    · cases isParam
    · rcases arguments with _ | ⟨given, arguments⟩
      · cases isArgument
      · cases isParam
        cases isArgument
        have others : ∀ pair ∈ params.zip arguments, pair.1.text ≠ param.text :=
          fun pair mem => apart pair.1 (List.of_mem_zip mem).1
        rw [List.zip_cons_cons, List.foldl_cons, get?_foldl_insert_of_ne others,
          get?_insert, if_pos rfl]
  | succ place ih =>
    rcases params with _ | ⟨first, params⟩
    · cases isParam
    · rcases arguments with _ | ⟨given, arguments⟩
      · cases isArgument
      · exact ih isParam isArgument apart (Bindings.insert first.text given bindings)

end Bindings

/-! ## From one place to the next -/

/-- A signal is passed on by the statement around. -/
inductive Carried : Signal → Signal → Prop
  | first {fuel statement rest machine middle after signal carried} :
      execute fuel statement machine = .ok signal middle → signal ≠ .completed →
      executeAll (fuel + 1) (statement :: rest) machine = .ok carried after → Carried signal carried
  | rest {fuel statement rest machine middle last after signal carried} :
      execute fuel statement machine = .ok .completed middle →
      executeAll fuel rest middle = .ok signal last →
      executeAll (fuel + 1) (statement :: rest) machine = .ok carried after → Carried signal carried
  | block {fuel statements machine last after signal carried} :
      executeAll fuel statements (machine.inScope machine.current []) = .ok signal last →
      execute (fuel + 1) (.block statements) machine = .ok carried after → Carried signal carried
  | branch
    {fuel condition thenBranch elseBranch branch machine test middle last after signal carried} :
      evaluate fuel condition machine = .ok test middle →
      (if test.isTruthy then some thenBranch else elseBranch) = some branch →
      execute fuel branch middle = .ok signal last →
      execute (fuel + 1) (.if condition thenBranch elseBranch) machine = .ok carried after →
      Carried signal carried
  | «while» {fuel condition body machine last after signal carried} :
      loop fuel condition body machine = .ok signal last →
      execute (fuel + 1) (.while condition body) machine = .ok carried after →
      Carried signal carried
  | body {fuel condition body machine test middle last after keyword value carried} :
      evaluate fuel condition machine = .ok test middle → test.isTruthy →
      execute fuel body middle = .ok (.returned keyword value) last →
      loop (fuel + 1) condition body machine = .ok carried after →
      Carried (.returned keyword value) carried
  | again {fuel condition body machine test middle last final after signal carried} :
      evaluate fuel condition machine = .ok test middle → test.isTruthy →
      execute fuel body middle = .ok .completed last →
      loop fuel condition body last = .ok signal final →
      loop (fuel + 1) condition body machine = .ok carried after → Carried signal carried

/-- A value gets from one place to the next, where it is handed on. -/
inductive HandedOn : Value → Value → Prop
  /-- The value of an assignment. -/
  | assigned {fuel name expression machine middle after value handed} :
      evaluate fuel expression machine = .ok value middle →
      evaluate (fuel + 1) (.assign name expression) machine = .ok handed after →
      HandedOn value handed
  /-- What a name means after an assignment to it. -/
  | stored {fuel} {name other : Lexeme} {expression machine after last value handed} :
      evaluate (fuel + 1) (.assign name expression) machine = .ok value after →
      other.text = name.text → Eval.lookup other after = .ok handed last → HandedOn value handed
  /-- What a variable means after its declaration. -/
  | initialized {fuel} {name other : Lexeme}
    {initializer machine middle signal after last value handed} :
      evaluateOption fuel initializer machine = .ok value middle →
      execute (fuel + 1) (.var name initializer) machine = .ok signal after →
      other.text = name.text → Eval.lookup other after = .ok handed last → HandedOn value handed
  /-- What a parameter means in the body of the function.  Of two parameters with one name the later
  counts. -/
  | passed {closure : Closure} {place : Nat} {param name : Lexeme} {arguments : List Value}
    {machine : Machine}
      {last value handed} :
      closure.params[place]? = some param →
      (∀ later ∈ closure.params.drop (place + 1), later.text ≠ param.text) →
      arguments[place]? = some value → name.text = param.text →
      Eval.lookup name (machine.inScope closure.scope (.ofArguments closure.params arguments)) =
        .ok handed last →
      HandedOn value handed
  /-- What another name means there, that means something in the scope of the declaration. -/
  | captured {closure : Closure} {name : Lexeme} {arguments : List Value} {machine : Machine}
      {middle last value handed} :
      (∀ param ∈ closure.params, param.text ≠ name.text) →
      Eval.lookup name { machine with current := closure.scope } = .ok value middle →
      Eval.lookup name (machine.inScope closure.scope (.ofArguments closure.params arguments)) =
        .ok handed last →
      HandedOn value handed
  /-- The value that a `return` statement ends with. -/
  | returned {fuel keyword expression machine middle after value signal} :
      evaluateOption fuel expression machine = .ok value middle →
      execute (fuel + 1) (.return keyword expression) machine = .ok signal after →
      HandedOn value signal.result
  /-- The value that the statement around it ends with. -/
  | carried {signal carried : Signal} : Carried signal carried →
    HandedOn signal.result carried.result
  /-- The value of the call. -/
  | called {fuel} {closure : Closure} {line arguments machine middle after signal handed} :
      executeAll fuel closure.body
        (machine.inScope closure.scope (.ofArguments closure.params arguments)) =
        .ok signal middle →
      invoke (fuel + 1) (.function closure) line arguments machine = .ok handed after →
      HandedOn signal.result handed

theorem Carried.eq {signal carried : Signal} (passes : Carried signal carried) :
    carried = signal := by
  cases passes with
  | first ran other whole =>
    simp only [executeAll, bind_of_ok ran] at whole
    cases signal with
    | completed => exact absurd rfl other
    | broke keyword =>
      cases whole
      rfl
    | returned keyword value =>
      cases whole
      rfl
  | rest ran further whole =>
    simp only [executeAll, bind_of_ok ran, further] at whole
    cases whole
    rfl
  | @block fuel statements machine _ _ _ _ ran whole =>
    have around : execute (fuel + 1) (.block statements) machine =
        Entry.block.around (executeAll fuel statements) machine := by
          rw [execute, Entry.around_block]
    rw [around, Entry.around_of_ok rfl ran] at whole
    cases whole
    rfl
  | @branch _ _ _ elseBranch _ _ test _ _ _ _ _ tested chosen ran whole =>
    simp only [execute, bind_of_ok tested] at whole
    cases truthy : test.isTruthy with
    | true =>
      simp only [truthy, ↓reduceIte, Option.some.injEq] at chosen
      simp only [truthy, ↓reduceIte, chosen, ran] at whole
      cases whole
      rfl
    | false =>
      simp only [truthy, Bool.false_eq_true, ↓reduceIte] at chosen
      simp only [truthy, Bool.false_eq_true, ↓reduceIte, chosen, ran] at whole
      cases whole
      rfl
  | «while» ran whole =>
    simp only [execute, ran] at whole
    cases whole
    rfl
  | body tested truthy ran whole =>
    simp only [loop, bind_of_ok tested, truthy, ↓reduceIte, bind_of_ok ran] at whole
    cases whole
    rfl
  | again tested truthy ran further whole =>
    simp only [loop, bind_of_ok tested, truthy, ↓reduceIte, bind_of_ok ran, further] at whole
    cases whole
    rfl

/-- An assignment that succeeds has assigned the value of its expression. -/
theorem exists_assign_of_evaluate {fuel : Nat} {name : Lexeme} {expression : Expr}
    {machine after : Machine} {value : Value}
    (ran : evaluate (fuel + 1) (.assign name expression) machine = .ok value after) :
    ∃ middle, evaluate fuel expression machine = .ok value middle ∧
      Eval.assign name value middle = .ok () after := by
  cases first : evaluate fuel expression machine with
  | error halt middle =>
    simp only [evaluate, bind_of_error first] at ran
    cases ran
  | ok other middle =>
    simp only [evaluate, bind_of_ok first] at ran
    cases second : Eval.assign name other middle with
    | error halt last =>
      simp only [bind_of_error second] at ran
      cases ran
    | ok _ last =>
      simp only [bind_of_ok second] at ran
      cases ran
      exact ⟨middle, rfl, second⟩

/-- What is handed on is the same in the next place. -/
theorem HandedOn.eq {value handed : Value} (passes : HandedOn value handed) : handed = value := by
  cases passes with
  | assigned first ran =>
    rcases exists_assign_of_evaluate ran with ⟨middle, also, -⟩
    rw [first] at also
    cases also
    rfl
  | stored ran same found =>
    rcases exists_assign_of_evaluate ran with ⟨middle, -, assigned⟩
    have meaning := get?_of_lookup found
    rw [same, get?_of_assign assigned] at meaning
    exact (Option.some.inj meaning).symm
  | initialized first ran same found =>
    have meaning := get?_of_lookup found
    simp only [execute, bind_of_ok first] at ran
    cases ran
    rw [same] at meaning
    exact Scopes.eq_of_get?_define meaning
  | @passed closure _ _ _ arguments machine _ _ _ isParam apart isArgument same found =>
    have meaning := get?_of_lookup found
    rw [same] at meaning
    have bound := Scopes.get?_of_bound
      (Scopes.getElem?_push_nextId machine.scopes closure.scope
        (.ofArguments closure.params arguments))
      (Bindings.get?_ofArguments isParam isArgument apart)
    exact Option.some.inj (meaning.symm.trans bound)
  | captured apart outside inside =>
    exact Scopes.eq_of_get?_push (Bindings.get?_ofArguments_of_ne apart _) (get?_of_lookup outside)
      (get?_of_lookup inside)
  | returned first ran =>
    simp only [execute, bind_of_ok first] at ran
    cases ran
    rfl
  | carried passes => rw [passes.eq]
  | @called fuel closure line arguments machine _ _ signal _ ran whole =>
    have around : invoke (fuel + 1) (.function closure) line arguments machine =
        ((Entry.frame closure.scope (.ofArguments closure.params arguments)).around
          (executeAll fuel closure.body) >>=
          fun signal => pure signal.result) machine := by rw [invoke, Entry.around_frame]
    rw [around, bind_of_ok (Entry.around_of_ok rfl ran)] at whole
    cases whole
    rfl

/-- What is handed on any number of times is the same at the end. -/
theorem HandedOn.eq_of_chain {value handed : Value}
    (passes : Relation.ReflTransGen HandedOn value handed) : handed = value := by
  induction passes with
  | refl => rfl
  | tail _ last ih => rw [last.eq, ih]

end Lox
