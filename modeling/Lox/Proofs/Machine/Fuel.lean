import Lox.Proofs.Machine.Plan

/-!
# Fuel

A run that is not suspended is the same with any more fuel.  So one can speak of how a run ends
without saying what fuel that takes.

* `EndsAs`: wherever a run ends, another one ends in the same way.  `Task.lasting`: more fuel keeps
  how a task ends.
* `Settles`: how runs end that are given more and more fuel, with a rule for each way to combine
  them.
* `SameEnds`: two families of runs end in the same ways.
-/

namespace Lox

open Plan

variable {α β : Type}

/-- The run was not suspended. -/
def Ended (result : EStateM.Result Halt Machine α) : Prop :=
  ∀ after, result ≠ .error .suspended after

theorem ended_ok (value : α) (machine : Machine) : Ended (.ok value machine) := by
  intro after same
  cases same

theorem ended_error_iff {halt : Halt} {machine : Machine} :
    Ended (.error halt machine : EStateM.Result Halt Machine α) ↔ halt ≠ .suspended := by
  constructor
  · intro ended same
    rw [same] at ended
    exact ended machine rfl
  · intro other after same
    cases same
    exact other rfl

/-- A halt that ends one run ends any other. -/
theorem Ended.halt {halt : Halt} {machine after : Machine}
    (ended : Ended (.error halt machine : EStateM.Result Halt Machine α)) :
    Ended (.error halt after : EStateM.Result Halt Machine β) :=
  ended_error_iff.2 (ended_error_iff.1 ended)

open Eval

/-! ## More fuel -/

/-- Wherever a run ends, the other one ends in the same way. -/
def EndsAs (run other : Eval α) : Prop :=
  ∀ machine, Ended (run machine) → other machine = run machine

namespace EndsAs

theorem refl (run : Eval α) : EndsAs run run := fun _ _ => rfl

theorem eq {run other : Eval α} (endsAs : EndsAs run other) {machine : Machine}
    {result : EStateM.Result Halt Machine α} (ran : run machine = result) (ended : Ended result) :
    other machine = result := by
  rw [← ran] at ended
  exact (endsAs machine ended).trans ran

theorem bind {run other : Eval α} {next further : α → Eval β} (first : EndsAs run other)
    (rest : ∀ value, EndsAs (next value) (further value)) :
    EndsAs (run >>= next) (other >>= further) := by
  intro machine ended
  cases ran : run machine with
  | ok value middle =>
    rw [bind_of_ok ran] at ended ⊢
    rw [bind_of_ok (first.eq ran (ended_ok value middle))]
    exact rest value middle ended
  | error halt middle =>
    rw [bind_of_error ran] at ended
    rw [bind_of_error ran, bind_of_error (first.eq ran ended.halt)]

theorem around {run other : Eval α} (inside : EndsAs run other) (entry : Entry) :
    EndsAs (entry.around run) (entry.around other) := by
  intro machine ended
  unfold Entry.around at ended ⊢
  cases entered : entry.enter machine with
  | error halt => rfl
  | ok inner =>
    simp only [entered] at ended ⊢
    cases ran : run inner with
    | ok value after => rw [inside.eq ran (ended_ok value after)]
    | error halt after =>
      simp only [ran] at ended
      rw [inside.eq ran ended.halt]

/-- A plan ends in the same way with runs that go on further. -/
theorem follow {run other : (task : Task) → Eval task.Result}
    (tasks : ∀ task, EndsAs (run task) (other task)) (plan : Plan α) :
    EndsAs (plan.follow run) (plan.follow other) := by
  induction plan with
  | done value => exact .refl _
  | act action next ih => exact (EndsAs.refl action.perform).bind ih
  | start entry task next ih => exact ((tasks task).around entry).bind ih

end EndsAs

/-- More fuel keeps how the runs end. -/
def Lasting (family : Nat → Eval α) : Prop :=
  ∀ ⦃fuel more⦄, fuel ≤ more → EndsAs (family fuel) (family more)

namespace Lasting

theorem const (run : Eval α) : Lasting fun _ => run := fun _ _ _ => .refl run

theorem bind {family : Nat → Eval α} {next : α → Nat → Eval β} (first : Lasting family)
    (rest : ∀ value, Lasting (next value)) :
    Lasting fun fuel => family fuel >>= fun value => next value fuel :=
  fun _ _ le => (first le).bind fun value => rest value le

theorem ite {family other : Nat → Eval α} (first : Lasting family) (second : Lasting other)
    (condition : Bool) : Lasting fun fuel => if condition then family fuel else other fuel := by
  cases condition with
  | true => exact first
  | false => exact second

theorem around {family : Nat → Eval α} (inside : Lasting family) (entry : Entry) :
    Lasting fun fuel => entry.around (family fuel) :=
  fun _ _ le => (inside le).around entry

end Lasting

theorem Task.run_endsAs (task : Task) {fuel more : Nat} (le : fuel ≤ more) :
    EndsAs (task.run fuel) (task.run more) := by
  induction fuel generalizing task more with
  | zero =>
    intro machine ended
    rw [Task.run_zero] at ended
    exact absurd rfl (ended machine)
  | succ fuel ih =>
    cases more with
    | zero => exact absurd le (Nat.not_succ_le_zero fuel)
    | succ more =>
      rw [Task.run_succ, Task.run_succ]
      exact .follow (fun task => ih task (Nat.le_of_succ_le_succ le)) task.plan

theorem Task.lasting (task : Task) : Lasting fun fuel => task.run fuel := fun _ _ => task.run_endsAs

theorem Plan.lasting (plan : Plan α) : Lasting fun fuel => plan.follow (Task.run fuel) :=
  fun _ _ le => .follow (fun task => task.run_endsAs le) plan

/-! ## How runs end -/

/-- Runs end in a certain way, given fuel enough. -/
structure Settles (family : Nat → Eval α) (machine : Machine)
    (result : EStateM.Result Halt Machine α) : Prop where
  ended : Ended result
  reached : ∃ fuel, family fuel machine = result

/-- On a machine, both families of runs end in the same ways. -/
def SameEnds (machine : Machine) (family other : Nat → Eval α) : Prop :=
  ∀ result, Settles family machine result ↔ Settles other machine result

section Settles

variable {family other : Nat → Eval α} {machine : Machine}

/-- A sequence ends as its second part does, or with the halt of its first part. -/
theorem settles_bind_iff {next : α → Nat → Eval β} (lasting : Lasting family)
    (lastingNext : ∀ value, Lasting (next value)) {result : EStateM.Result Halt Machine β} :
    Settles (fun fuel => family fuel >>= fun value => next value fuel) machine result ↔
      (∃ value middle, Settles family machine (.ok value middle) ∧
        Settles (next value) middle result) ∨
      ∃ halt middle, Settles family machine (.error halt middle) ∧ result = .error halt middle := by
  constructor
  · rintro ⟨ended, fuel, same⟩
    cases ran : family fuel machine with
    | ok value middle =>
      simp only [bind_of_ok ran] at same
      exact .inl ⟨value, middle, ⟨ended_ok _ _, fuel, ran⟩, ended, fuel, same⟩
    | error halt middle =>
      simp only [bind_of_error ran] at same
      subst same
      exact .inr ⟨halt, middle, ⟨ended.halt, fuel, ran⟩, rfl⟩
  · rintro (⟨value, middle, ⟨endedFirst, fuel, ran⟩, ended, more, same⟩ |
      ⟨halt, middle, ⟨ended, fuel, ran⟩, rfl⟩)
    · refine ⟨ended, max fuel more, ?_⟩
      have first := (lasting (Nat.le_max_left fuel more)).eq ran endedFirst
      simp only [bind_of_ok first]
      exact (lastingNext value (Nat.le_max_right fuel more)).eq same ended
    · refine ⟨ended.halt, fuel, ?_⟩
      simp only [bind_of_error ran]

theorem settles_around_iff {entry : Entry} {inner : Machine}
    (entered : entry.enter machine = .ok inner) {result : EStateM.Result Halt Machine α} :
    Settles (fun fuel => entry.around (family fuel)) machine result ↔
      (∃ value after, Settles family inner (.ok value after) ∧
        result = .ok value (entry.leave machine after)) ∨
      ∃ halt after, Settles family inner (.error halt after) ∧
        result = .error halt (entry.leave machine after) := by
  constructor
  · rintro ⟨ended, fuel, same⟩
    simp only [Entry.around, entered] at same
    cases ran : family fuel inner with
    | ok value after =>
      simp only [ran] at same
      exact .inl ⟨value, after, ⟨ended_ok _ _, fuel, ran⟩, same.symm⟩
    | error halt after =>
      simp only [ran] at same
      subst same
      exact .inr ⟨halt, after, ⟨ended.halt, fuel, ran⟩, rfl⟩
  · rintro (⟨value, after, ⟨ended, fuel, ran⟩, rfl⟩ | ⟨halt, after, ⟨ended, fuel, ran⟩, rfl⟩)
    · exact ⟨ended_ok _ _, fuel, Entry.around_of_ok entered ran⟩
    · exact ⟨ended.halt, fuel, Entry.around_of_error entered ran⟩

namespace SameEnds

theorem refl (family : Nat → Eval α) : SameEnds machine family family := fun _ => Iff.rfl

theorem symm (same : SameEnds machine family other) : SameEnds machine other family :=
  fun result => (same result).symm

theorem trans {last : Nat → Eval α} (first : SameEnds machine family other)
    (second : SameEnds machine other last) :
    SameEnds machine family last := fun result => (first result).trans (second result)

/-- Runs that are the same on the machine, with each fuel. -/
theorem of_eq (same : ∀ fuel, family fuel machine = other fuel machine) :
    SameEnds machine family other := by
  intro result
  constructor
  · rintro ⟨ended, fuel, reached⟩
    exact ⟨ended, fuel, (same fuel).symm.trans reached⟩
  · rintro ⟨ended, fuel, reached⟩
    exact ⟨ended, fuel, (same fuel).trans reached⟩

/-- Runs that are those of the other family, one unit of fuel later. -/
theorem of_succ (zero : family 0 = throw .suspended)
    (succ : ∀ fuel, family (fuel + 1) = other fuel) : SameEnds machine family other := by
  intro result
  constructor
  · rintro ⟨ended, fuel, reached⟩
    cases fuel with
    | zero =>
      rw [zero] at reached
      exact absurd reached.symm (ended machine)
    | succ fuel =>
      rw [succ] at reached
      exact ⟨ended, fuel, reached⟩
  · rintro ⟨ended, fuel, reached⟩
    refine ⟨ended, fuel + 1, ?_⟩
    rw [succ]
    exact reached

theorem bind {next further : α → Nat → Eval β} (lasting : Lasting family)
    (lastingOther : Lasting other) (lastingNext : ∀ value, Lasting (next value))
    (lastingFurther : ∀ value, Lasting (further value)) (first : SameEnds machine family other)
    (rest : ∀ value middle, Settles family machine (.ok value middle) →
      SameEnds middle (next value) (further value)) :
    SameEnds machine (fun fuel => family fuel >>= fun value => next value fuel)
      (fun fuel => other fuel >>= fun value => further value fuel) := by
  intro result
  rw [settles_bind_iff lasting lastingNext, settles_bind_iff lastingOther lastingFurther]
  constructor
  · rintro (⟨value, middle, settles, after⟩ | ⟨halt, middle, settles, same⟩)
    · exact .inl ⟨value, middle, (first _).1 settles, (rest value middle settles _).1 after⟩
    · exact .inr ⟨halt, middle, (first _).1 settles, same⟩
  · rintro (⟨value, middle, settles, after⟩ | ⟨halt, middle, settles, same⟩)
    · exact .inl
        ⟨value, middle, (first _).2 settles, (rest value middle ((first _).2 settles) _).2 after⟩
    · exact .inr ⟨halt, middle, (first _).2 settles, same⟩

/-- What follows and takes no fuel can stay. -/
theorem andThen (lasting : Lasting family) (lastingOther : Lasting other)
    (first : SameEnds machine family other) (next : α → Eval β) :
    SameEnds machine (fun fuel => family fuel >>= next) (fun fuel => other fuel >>= next) :=
  first.bind lasting lastingOther (fun _ => .const _) (fun _ => .const _) fun _ _ _ => .refl _

theorem around {entry : Entry} {inner : Machine} (entered : entry.enter machine = .ok inner)
    (inside : SameEnds inner family other) :
    SameEnds machine (fun fuel => entry.around (family fuel))
      (fun fuel => entry.around (other fuel)) := by
  intro result
  rw [settles_around_iff entered, settles_around_iff entered]
  simp only [inside _]

end SameEnds

end Settles

end Lox
