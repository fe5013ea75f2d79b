import LineShell.Proofs.Run.Frames
import Mathlib
/-!
# Pipelines compose

Feeding one action with the output of another is associative. Main statement: a pipeline in two
parts runs the first part with an output of its own and, if that succeeds, the second part on that
output.
-/

namespace LineShell

namespace ShellM

private theorem collecting_feeding (input : Option Bytes) (action : ShellM Unit) :
    collecting (feeding input action) = feeding input (collecting action) := by
  funext machine
  simp only [collecting, feeding]
  cases action { machine with stdin := input, stdout := [] } <;> rfl

/-- What is fed to an action is not seen by a later one that is fed itself. -/
theorem feeding_bind {α β : Type} (input : Option Bytes) (action : ShellM α)
    (inputs : α → Option Bytes) (next : α → ShellM β) :
    feeding input (action >>= fun a => feeding (inputs a) (next a)) =
      feeding input action >>= fun a => feeding (inputs a) (next a) := by
  funext machine
  simp only [feeding, bind_apply]
  cases action { machine with stdin := input } with
  | error e after => rfl
  | ok a middle =>
    dsimp only
    cases next a { middle with stdin := inputs a } <;> rfl

/-- Run an action with an output of its own, then another one with that output as its input. -/
def pipe (first second : ShellM Unit) : ShellM Unit := do
  let output ← collecting first
  feeding (some output) second

@[simp] theorem pipe_apply (first second : ShellM Unit) (machine : Machine) :
    pipe first second machine =
      match first { machine with stdout := [] } with
      | .error e after => .error e { after with stdout := machine.stdout }
      | .ok _ middle =>
        match second { middle with stdin := some middle.stdout, stdout := machine.stdout } with
        | .ok _ after => .ok () { after with stdin := middle.stdin }
        | .error e after => .error e { after with stdin := middle.stdin } := by
  simp only [pipe, bind_apply, collecting]
  cases first { machine with stdout := [] } with
  | error e after => rfl
  | ok _ middle =>
    simp only [feeding]
    cases second { middle with stdin := some middle.stdout, stdout := machine.stdout } <;> rfl

private theorem pipe_cases (first second : ShellM Unit) (machine : Machine) :
    (∃ e after, first { machine with stdout := [] } = .error e after ∧
      pipe first second machine = .error e { after with stdout := machine.stdout }) ∨
    ∃ middle fed, first { machine with stdout := [] } = .ok () middle ∧
      fed = { middle with stdin := some middle.stdout, stdout := machine.stdout } ∧
      (pipe first second).final machine = { second.final fed with stdin := middle.stdin } ∧
      ∀ after, pipe first second machine = .ok () after → ∃ last, second fed = .ok () last := by
  simp only [final, pipe_apply]
  cases first { machine with stdout := [] } with
  | error e after => exact .inl ⟨e, after, rfl, rfl⟩
  | ok _ middle =>
    refine .inr ⟨middle, _, rfl, rfl, ?_⟩
    dsimp only
    cases second { middle with stdin := some middle.stdout, stdout := machine.stdout } with
    | ok _ last => exact ⟨rfl, fun _ _ => ⟨last, rfl⟩⟩
    | error e last => exact ⟨rfl, fun _ h => by cases h⟩

private theorem pipe_assoc (first second third : ShellM Unit) :
    pipe (pipe first second) third = pipe first (pipe second third) := by
  funext machine
  simp only [pipe_apply]
  cases first { machine with stdout := [] } with
  | error e after => rfl
  | ok _ middle =>
    dsimp only
    cases second { middle with stdin := some middle.stdout, stdout := [] } with
    | error e after => rfl
    | ok _ last =>
      dsimp only
      cases third { last with stdin := some last.stdout, stdout := machine.stdout } <;> rfl

end ShellM

namespace Stage

@[simp] theorem runAll_nil (env : Environment) : runAll env [] = pure () := rfl

@[simp] theorem runAll_singleton (env : Environment) (stage : Stage) :
    runAll env [stage] = stage.run env := by
  simp [runAll, runFrom, runCarried]

private theorem runFrom_of_ne (env : Environment) {last index : Nat} (h : index ≠ last)
    (carried : Option Bytes) (stage : Stage) (stages : List Stage) :
    runFrom env last index carried (stage :: stages) =
      ShellM.collecting (stage.runCarried env index carried) >>= fun buffer =>
        runFrom env last (index + 1) (some buffer) stages := by
  rw [runFrom, if_neg h]

private theorem runAll_cons_of_runFrom (env : Environment) (stage : Stage) {stages : List Stage}
    (hne : stages ≠ [])
    (h : ∀ previous, runFrom env stages.length 1 (some previous) stages =
      ShellM.feeding (some previous) (runAll env stages)) :
    runAll env (stage :: stages) = ShellM.pipe (stage.run env) (runAll env stages) := by
  have hlength := List.length_pos_iff.2 hne
  rw [runAll, List.length_cons, Nat.add_sub_cancel, runFrom_of_ne env hlength.ne]
  simp only [Nat.zero_add, h]
  rfl

-- The invariant of the loop is that the stages that are left end at the last index: so the last of
-- them, and no other, writes to the machine's output.
private theorem runFrom_carried (env : Environment) {stages : List Stage} (hne : stages ≠ [])
    {last index : Nat} (hindex : index + stages.length = last + 1) (previous : Bytes) :
    runFrom env last index (some previous) stages =
      ShellM.feeding (some previous) (runAll env stages) := by
  induction stages generalizing last index previous with
  | nil => exact absurd rfl hne
  | cons stage stages ih =>
    by_cases hlast : stages = []
    · subst hlast
      obtain rfl : index = last := by simpa using hindex
      rw [runAll_singleton]
      simp [runFrom, runCarried]
    · have hlength := List.length_pos_iff.2 hlast
      rw [List.length_cons] at hindex
      have hrest (buffer : Bytes) : runFrom env last (index + 1) (some buffer) stages =
          ShellM.feeding (some buffer) (runAll env stages) := ih hlast (by omega) buffer
      have hcons := runAll_cons_of_runFrom env stage hlast fun buffer => ih hlast (by omega) buffer
      calc runFrom env last index (some previous) (stage :: stages)
        _ = ShellM.collecting (ShellM.feeding (some previous) (stage.run env)) >>= fun buffer =>
              ShellM.feeding (some buffer) (runAll env stages) := by
          rw [runFrom_of_ne env (by omega)]
          simp only [hrest]
          rfl
        _ = ShellM.feeding (some previous) (ShellM.pipe (stage.run env) (runAll env stages)) := by
          rw [ShellM.collecting_feeding, ShellM.pipe, ShellM.feeding_bind]
        _ = ShellM.feeding (some previous) (runAll env (stage :: stages)) := by rw [hcons]

/-- The loop over the stages feeds each of them with the output of the one before it. -/
theorem runAll_cons (env : Environment) (stage : Stage) {stages : List Stage} (h : stages ≠ []) :
    runAll env (stage :: stages) = ShellM.pipe (stage.run env) (runAll env stages) :=
  runAll_cons_of_runFrom env stage h fun previous =>
    runFrom_carried env h (Nat.add_comm 1 _) previous

theorem runAll_append (env : Environment) {left right : List Stage} (hleft : left ≠ [])
    (hright : right ≠ []) :
    runAll env (left ++ right) = ShellM.pipe (runAll env left) (runAll env right) := by
  induction left with
  | nil => exact absurd rfl hleft
  | cons stage left ih =>
    by_cases hlast : left = []
    · subst hlast
      rw [runAll_singleton]
      exact runAll_cons env stage hright
    · have hrest : left ++ right ≠ [] := by simp [hlast]
      calc runAll env (stage :: (left ++ right))
        _ = ShellM.pipe (stage.run env) (runAll env (left ++ right)) := runAll_cons env stage hrest
        _ = ShellM.pipe (stage.run env) (ShellM.pipe (runAll env left) (runAll env right)) := by
          rw [ih hlast]
        _ = ShellM.pipe (ShellM.pipe (stage.run env) (runAll env left)) (runAll env right) :=
          (ShellM.pipe_assoc _ _ _).symm
        _ = ShellM.pipe (runAll env (stage :: left)) (runAll env right) := by
          rw [runAll_cons env stage hlast]

/-- The calls that stages make, in order, until one of them fails. Every stage but the first is fed
by the one before it, and what is fed has an input. -/
inductive Calls : (fed : Bool) → List Stage → List Call → Prop
  | stop {fed : Bool} {stages : List Stage} : Calls fed stages []
  | call {fed : Bool} {stage : Stage} {stages : List Stage} {call : Call} {calls : List Call} :
      call.app = stage.app → call.args = stage.args → (fed = true → call.input.isSome) →
      Calls true stages calls → Calls fed (stage :: stages) (call :: calls)

private theorem Calls.isSome_input {fed : Bool} {stages : List Stage} {calls : List Call}
    (h : Calls fed stages calls) (hfed : fed = true) : ∀ call ∈ calls, call.input.isSome := by
  induction h with
  | stop => simp
  | call _ _ hinput _ ih =>
    intro call hcall
    rcases List.mem_cons.1 hcall with rfl | hcall
    · exact hinput hfed
    · exact ih rfl call hcall

private theorem Calls.order {fed : Bool} {stages : List Stage} {calls : List Call}
    (h : Calls fed stages calls) :
    (calls.map fun call => (call.app, call.args)) <+: stages.map fun stage =>
    (stage.app, stage.args) := by
  induction h with
  | stop => exact List.nil_prefix
  | call happ hargs _ _ ih =>
    rw [List.map_cons, List.map_cons, happ, hargs]
    exact (List.prefix_cons_inj _).2 ih

private theorem Calls.isSome_input_tail {fed : Bool} {stages : List Stage} {calls : List Call}
    (h : Calls fed stages calls) : ∀ call ∈ calls.tail, call.input.isSome := by
  cases h with
  | stop => simp
  | call _ _ _ hrest => exact hrest.isSome_input rfl

private theorem Calls.cons_right {fed : Bool} {stage : Stage} {calls : List Call}
    (h : Calls fed [stage] calls) (stages : List Stage) : Calls fed (stage :: stages) calls := by
  cases h with
  | stop => exact .stop
  | call happ hargs hinput hrest =>
    cases hrest
    exact .call happ hargs hinput .stop

theorem Calls.append {fed : Bool} {stage : Stage} {stages : List Stage} {first rest : List Call}
    (h : Calls fed [stage] first) (hlength : first.length = 1) (hrest : Calls true stages rest) :
    Calls fed (stage :: stages) (first ++ rest) := by
  cases h with
  | stop => cases hlength
  | call happ hargs hinput hnone =>
    cases hnone
    exact .call happ hargs hinput hrest

theorem calls_run (env : Environment) (stage : Stage) (machine : Machine) :
    ∃ calls, ((stage.run env).final machine).calls = machine.calls ++ calls ∧
      Calls machine.stdin.isSome [stage] calls ∧
      ∀ after, stage.run env machine = .ok () after → calls.length = 1 := by
  obtain ⟨e, hrun, -⟩ | ⟨app, input, sink, opened, -, hinput, houtput, hrun⟩ :=
    run_cases env stage machine
  · exact ⟨[], by simp [ShellM.final, hrun], .stop, by simp [hrun]⟩
  · have hopened : opened.calls = machine.calls := by rw [(openOutput_eq_ok houtput).1]
    have hcalls := calls_call env stage app ⟨input, some sink⟩ opened
    refine ⟨[⟨stage.app, stage.args, input.map opened.rest⟩], ?_, .call rfl rfl ?_ .stop, fun _ _ =>
      rfl⟩
    · simpa only [ShellM.final, hrun, hopened] using hcalls
    · intro hstdin
      simpa using openInput_isSome hstdin hinput

/-- What stages add to the calls. If all of them succeed, each has made its call. -/
theorem calls_runAll (env : Environment) (stages : List Stage) (machine : Machine) :
    ∃ calls, ((runAll env stages).final machine).calls = machine.calls ++ calls ∧
      Calls machine.stdin.isSome stages calls ∧
      ∀ after, runAll env stages machine = .ok () after → calls.length = stages.length := by
  -- The machine varies: the later stages start from what the first one leaves, with its output as
  -- their input.
  induction stages generalizing machine with
  | nil => exact ⟨[], by simp [ShellM.final], .stop, fun _ _ => rfl⟩
  | cons stage stages ih =>
    by_cases hlast : stages = []
    · subst hlast
      rw [runAll_singleton]
      exact calls_run env stage machine
    · rw [runAll_cons env stage hlast]
      obtain ⟨first, hfirst, hcall, hone⟩ := calls_run env stage { machine with stdout := [] }
      obtain ⟨e, after, hfail, hpipe⟩ | ⟨middle, fed, hok, rfl, hfinal, hsecond⟩ :=
        ShellM.pipe_cases (stage.run env) (runAll env stages) machine
      · refine ⟨first, ?_, hcall.cons_right stages, by simp [hfail]⟩
        simpa only [ShellM.final, hfail, hpipe] using hfirst
      · obtain ⟨rest, hrest, hcalls, hlength⟩ :=
          ih { middle with stdin := some middle.stdout, stdout := machine.stdout }
        simp only [ShellM.final, hok] at hfirst
        refine ⟨first ++ rest, ?_, hcall.append (hone _ hok) hcalls, ?_⟩
        · rw [hfinal, hrest, hfirst, List.append_assoc]
        · intro after hsuccess
          obtain ⟨last, hlast⟩ := hsecond after hsuccess
          rw [List.length_append, hone _ hok, hlength last hlast, List.length_cons, Nat.add_comm]

/-- Pipelines compose. A pipeline in two parts runs the first part with an output of its own; if
that fails, it fails with nothing written, and otherwise it runs the second part with that output as
its input. It calls the applications of its stages in order, and each but the first has an input. -/
theorem runAll_composes (env : Environment) (left right : List Stage) (machine : Machine)
    (hleft : left ≠ []) (hright : right ≠ []) :
    (runAll env (left ++ right) machine =
      match runAll env left { machine with stdout := [] } with
      | .error e after => .error e { after with stdout := machine.stdout }
      | .ok _ middle =>
        match runAll env right
            { middle with stdin := some middle.stdout, stdout := machine.stdout } with
        | .ok _ after => .ok () { after with stdin := middle.stdin }
        | .error e after => .error e { after with stdin := middle.stdin }) ∧
    ∃ calls, ((runAll env (left ++ right)).final machine).calls = machine.calls ++ calls ∧
      ((calls.map fun call => (call.app, call.args)) <+:
        (left ++ right).map fun stage => (stage.app, stage.args)) ∧
      ∀ call ∈ calls.tail, call.input.isSome := by
  constructor
  · rw [runAll_append env hleft hright, ShellM.pipe_apply]
  · obtain ⟨calls, hcalls, hmade, -⟩ := calls_runAll env (left ++ right) machine
    exact ⟨calls, hcalls, hmade.order, hmade.isSome_input_tail⟩

theorem runAll_composes_of_probes :
    runAll .probed ([⟨['p'], [['a']], none, none⟩, ⟨['p'], [], none, none⟩] ++
        [⟨"cat".toList, [], none, none⟩]) ⟨.empty, some [65], [66], []⟩ =
      .ok () ⟨.empty, some [], 66 :: Text.utf8 "p()\n".toList,
        [⟨['p'], [['a']], some (.ok [65])⟩, ⟨['p'], [], some (.ok (Text.utf8 "p(a)\n".toList))⟩,
          ⟨"cat".toList, [], some (.ok (Text.utf8 "p()\n".toList))⟩]⟩ := by
  have hleft : runAll .probed [⟨['p'], [['a']], none, none⟩, ⟨['p'], [], none, none⟩]
      ⟨.empty, some [65], [], []⟩ =
      .ok () ⟨.empty, some [], Text.utf8 "p()\n".toList,
        [⟨['p'], [['a']], some (.ok [65])⟩,
          ⟨['p'], [], some (.ok (Text.utf8 "p(a)\n".toList))⟩]⟩ := by
    rw [runAll_cons _ _ (by simp), ShellM.pipe_apply, runAll_singleton]
    cbv
  have hright : runAll .probed [⟨"cat".toList, [], none, none⟩]
        ⟨.empty, some (Text.utf8 "p()\n".toList), [66],
          [⟨['p'], [['a']], some (.ok [65])⟩,
            ⟨['p'], [], some (.ok (Text.utf8 "p(a)\n".toList))⟩]⟩ =
      .ok () ⟨.empty, some [], 66 :: Text.utf8 "p()\n".toList,
        [⟨['p'], [['a']], some (.ok [65])⟩, ⟨['p'], [], some (.ok (Text.utf8 "p(a)\n".toList))⟩,
          ⟨"cat".toList, [], some (.ok (Text.utf8 "p()\n".toList))⟩]⟩ := by
    rw [runAll_singleton]
    cbv
  have hcomposed := (runAll_composes .probed [⟨['p'], [['a']], none, none⟩, ⟨['p'], [], none, none⟩]
    [⟨"cat".toList, [], none, none⟩] ⟨.empty, some [65], [66], []⟩ (by simp) (by simp)).1
  simpa only [hleft, hright] using hcomposed

end Stage

end LineShell
