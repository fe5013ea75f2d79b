import LineShell.Proofs.Line.Origin
import LineShell.Proofs.Run.Pipelines
import Mathlib
/-!
# Rules that actions obey

Rules say how actions may change the machine and for which causes they may fail. An action made of
actions that obey rules obeys them, and so a line does if reading it, its patterns, its captures and
its stages do.
-/

namespace LineShell

/-- How actions may change the machine, and for which causes they may fail. -/
structure Rules where
  moves : Machine → Machine → Prop
  causes : ShellError → Prop
  refl (machine : Machine) : moves machine machine
  trans {first second third : Machine} : moves first second → moves second third → moves first third

/-- The rules say nothing about the input and the output: only the tree and the calls matter. -/
def Rules.IgnoreStreams (rules : Rules) : Prop :=
  ∀ ⦃before before' after after' : Machine⦄, rules.moves before after → before'.tree = before.tree →
    before'.calls = before.calls → after'.tree = after.tree → after'.calls = after.calls →
      rules.moves before' after'

namespace ShellM

variable {α β : Type} {rules : Rules}

/-- Each run of the action obeys the rules, be it successful or not. -/
structure Obeys (rules : Rules) (action : ShellM α) : Prop where
  of_ok {machine after : Machine} {a : α} : action machine = .ok a after → rules.moves machine after
  of_error {machine after : Machine} {e : ShellError} :
    action machine = .error e after → rules.moves machine after ∧ rules.causes e

theorem Obeys.moves_final {action : ShellM α} (h : action.Obeys rules) (machine : Machine) :
    rules.moves machine (action.final machine) := by
  unfold final
  cases hresult : action machine with
  | ok a after => exact h.of_ok hresult
  | error e after => exact (h.of_error hresult).1

theorem obeys_pure (a : α) : Obeys rules (pure a : ShellM α) := by
  constructor
  · intro machine after _ h
    cases h
    exact rules.refl machine
  · intro machine after e h
    cases h

theorem obeys_throw {e : ShellError} (h : rules.causes e) : Obeys rules (throw e : ShellM α) := by
  constructor
  · intro machine after _ hresult
    cases hresult
  · intro machine after _ hresult
    cases hresult
    exact ⟨rules.refl machine, h⟩

/-- What follows an action has to obey the rules only for the results that the action can have. -/
theorem Obeys.bind {action : ShellM α} {next : α → ShellM β} (h : action.Obeys rules)
    (hnext : ∀ machine a after, action machine = .ok a after → (next a).Obeys rules) :
    (action >>= next).Obeys rules := by
  constructor
  · intro machine after b hresult
    obtain ⟨a, middle, haction, hlast⟩ := bind_eq_ok hresult
    exact rules.trans (h.of_ok haction) ((hnext machine a middle haction).of_ok hlast)
  · intro machine after e hresult
    rcases bind_eq_error hresult with haction | ⟨a, middle, haction, hlast⟩
    · exact h.of_error haction
    · have hsecond := (hnext machine a middle haction).of_error hlast
      exact ⟨rules.trans (h.of_ok haction) hsecond.1, hsecond.2⟩

theorem obeys_ofTree {question : FileTree → Except ShellError α}
    (h : ∀ tree e, question tree = .error e → rules.causes e) : (ofTree question).Obeys rules := by
  constructor
  · intro machine after a hresult
    obtain ⟨-, rfl⟩ := ofTree_eq_ok hresult
    exact rules.refl _
  · intro machine after e hresult
    obtain ⟨hanswer, rfl⟩ := ofTree_eq_error hresult
    exact ⟨rules.refl _, h _ e hanswer⟩

private theorem obeys_mapM {step : α → ShellM β} {items : List α}
    (h : ∀ item ∈ items, (step item).Obeys rules) : (items.mapM step).Obeys rules := by
  induction items with
  | nil => exact obeys_pure []
  | cons item items ih =>
    have hrest := ih fun other hother => h other (List.mem_cons_of_mem item hother)
    rw [List.mapM_cons]
    apply (h item List.mem_cons_self).bind
    intro _ result _ _
    apply hrest.bind
    intro _ results _ _
    exact obeys_pure _

private theorem obeys_foldlM {step : β → α → ShellM β} {items : List α}
    (h : ∀ item ∈ items, ∀ b, (step b item).Obeys rules) (start : β) :
    (items.foldlM step start).Obeys rules := by
  induction items generalizing start with
  | nil => exact obeys_pure start
  | cons item items ih =>
    rw [List.foldlM_cons]
    apply (h item List.mem_cons_self start).bind
    intro _ next _ _
    exact ih (fun other hother => h other (List.mem_cons_of_mem item hother)) next

private theorem obeys_forM {step : α → ShellM Unit} {items : List α}
    (h : ∀ item ∈ items, (step item).Obeys rules) : (items.forM step).Obeys rules := by
  induction items with
  | nil => exact obeys_pure ()
  | cons item items ih =>
    rw [List.forM]
    apply (h item List.mem_cons_self).bind
    intro _ _ _ _
    exact ih fun other hother => h other (List.mem_cons_of_mem item hother)

/-- A failure comes from the first item that fails, after the items before it have succeeded. -/
theorem exists_of_forM_eq_error {step : α → ShellM Unit} {items : List α} {machine after : Machine}
    {e : ShellError} (h : items.forM step machine = .error e after) :
    ∃ done item rest middle, items = done ++ item :: rest ∧ done.forM step machine = .ok () middle ∧
      step item middle = .error e after := by
  induction items generalizing machine with
  | nil => cases h
  | cons item items ih =>
    rcases bind_eq_error h with hitem | ⟨_, next, hitem, hrest⟩
    · exact ⟨[], item, items, machine, rfl, rfl, hitem⟩
    · obtain ⟨done, failing, rest, middle, rfl, hdone, hfailing⟩ := ih hrest
      refine ⟨item :: done, failing, rest, middle, rfl, ?_, hfailing⟩
      simp only [List.forM, bind_apply, hitem, hdone]

theorem Obeys.collecting {action : ShellM Unit} (hstreams : rules.IgnoreStreams)
    (h : action.Obeys rules) : (ShellM.collecting action).Obeys rules := by
  constructor
  all_goals
    intro machine after _ hresult
    unfold ShellM.collecting at hresult
    split at hresult
    all_goals cases hresult
    rename_i haction
  · exact hstreams (h.of_ok haction) rfl rfl rfl rfl
  · exact ⟨hstreams (h.of_error haction).1 rfl rfl rfl rfl, (h.of_error haction).2⟩

theorem Obeys.feeding {action : ShellM α} (hstreams : rules.IgnoreStreams) (input : Option Bytes)
    (h : action.Obeys rules) : (ShellM.feeding input action).Obeys rules := by
  constructor
  all_goals
    intro machine after _ hresult
    unfold ShellM.feeding at hresult
    split at hresult
    all_goals cases hresult
    rename_i haction
  · exact hstreams (h.of_ok haction) rfl rfl rfl rfl
  · exact ⟨hstreams (h.of_error haction).1 rfl rfl rfl rfl, (h.of_error haction).2⟩

end ShellM

theorem Stage.run_obeys {rules : Rules} {env : Environment} {stage : Stage}
    (hname : rules.causes (.unknownApp stage.app))
    (hfile : ∀ path cause, rules.causes (.redirection path cause))
    (hcall : ∀ app machine input sink opened, env.registry.find? stage.app = some app →
      stage.openOutput env machine = .ok sink opened →
      rules.moves machine opened ∧ (stage.call env app ⟨input, some sink⟩).Obeys rules) :
    (stage.run env).Obeys rules := by
  constructor
  · intro machine after _ hresult
    obtain ⟨e, hrun, -⟩ | ⟨app, input, sink, opened, hfind, -, houtput, hrun⟩ :=
      Stage.run_cases env stage machine
    · rw [hrun] at hresult
      cases hresult
    · obtain ⟨hopened, hobeys⟩ := hcall app machine input sink opened hfind houtput
      rw [hrun] at hresult
      exact rules.trans hopened (hobeys.of_ok hresult)
  · intro machine after e hresult
    obtain ⟨e', hrun, hcause⟩ | ⟨app, input, sink, opened, hfind, -, houtput, hrun⟩ :=
      Stage.run_cases env stage machine
    · rw [hrun] at hresult
      cases hresult
      refine ⟨rules.refl machine, ?_⟩
      rcases hcause with rfl | ⟨path, cause, rfl⟩
      · exact hname
      · exact hfile path cause
    · obtain ⟨hopened, hobeys⟩ := hcall app machine input sink opened hfind houtput
      rw [hrun] at hresult
      exact ⟨rules.trans hopened (hobeys.of_error hresult).1, (hobeys.of_error hresult).2⟩

theorem Stage.call_obeys {rules : Rules} {env : Environment} {stage : Stage} {app : Application}
    {streams : Streams} (hcause : ∀ failure, rules.causes (.application stage.app failure))
    (hmoves : ∀ machine,
      rules.moves machine (machine.call env stage.app app stage.args streams).2) :
    (stage.call env app streams).Obeys rules := by
  constructor
  all_goals
    intro machine after _ hresult
    unfold Stage.call at hresult
    have hmove := hmoves machine
    split at hresult
    all_goals cases hresult
    rename_i hcall
    rw [hcall] at hmove
  · exact hmove
  · exact ⟨hmove, hcause _⟩

/-- A pipeline obeys rules that ignore streams if its stages do, since it only redirects their
streams. -/
theorem Stage.runAll_obeys {rules : Rules} (hstreams : rules.IgnoreStreams) {env : Environment}
    {stages : List Stage} (h : ∀ stage ∈ stages, (stage.run env).Obeys rules) :
    (Stage.runAll env stages).Obeys rules := by
  induction stages with
  | nil => exact ShellM.obeys_pure ()
  | cons stage stages ih =>
    have hstage := h stage List.mem_cons_self
    have hstages := ih fun other hother => h other (List.mem_cons_of_mem stage hother)
    by_cases hlast : stages = []
    · rwa [hlast, Stage.runAll_singleton]
    · rw [Stage.runAll_cons env stage hlast]
      apply (hstage.collecting hstreams).bind
      intro _ output _ _
      exact hstages.feeding hstreams (some output)

section Evaluation

variable {rules : Rules} {capture : Capture}

theorem Part.expand_obeys {part : Part}
    (h : ∀ text, part.captured? = some text → (capture text).Obeys rules) (fields : Fields) :
    (Part.expand capture fields part).Obeys rules := by
  cases part with
  | literal text => exact ShellM.obeys_pure _
  | pattern text => exact ShellM.obeys_pure _
  | command text quoted =>
    have hcapture := h text rfl
    cases quoted with
    | true => exact hcapture.bind fun _ _ _ _ => ShellM.obeys_pure _
    | false => exact hcapture.bind fun _ _ _ _ => ShellM.obeys_pure _

theorem Word.expand_obeys {scope : Scope} {word : Word}
    (hcapture : ∀ part ∈ word, ∀ text, part.captured? = some text → (capture text).Obeys rules)
    (hpattern : ∀ text, word = [.pattern text] →
      (ShellM.ofTree fun tree => Glob.expandArgument scope tree text).Obeys rules) :
    (Word.expand scope capture word).Obeys rules := by
  unfold Word.expand
  split
  · rename_i text
    exact hpattern text rfl
  · have hparts := ShellM.obeys_foldlM (fun part hpart fields =>
      Part.expand_obeys (hcapture part hpart) fields) Fields.empty
    exact hparts.bind fun _ _ _ _ => ShellM.obeys_pure _

theorem Pipeline.expand_obeys {scope : Scope} {pipeline : Pipeline}
    (hcapture : ∀ text ∈ Pipeline.captured pipeline, (capture text).Obeys rules)
    (hpattern : ∀ text ∈ Pipeline.patterns pipeline,
      (ShellM.ofTree fun tree => Glob.expandArgument scope tree text).Obeys rules) :
    (Pipeline.expand scope capture pipeline).Obeys rules := by
  apply ShellM.obeys_mapM
  intro command hcommand
  have hwords : ∀ word ∈ command.words, (Word.expand scope capture word).Obeys rules := by
    intro word hword
    apply Word.expand_obeys
    · intro part hpart text htext
      exact hcapture text (Pipeline.mem_captured hcommand hword hpart htext)
    · rintro text rfl
      have hmem : text ∈ command.patterns := Command.mem_patterns.2 hword
      exact hpattern text (List.mem_flatMap.2 ⟨command, hcommand, hmem⟩)
  exact (ShellM.obeys_mapM hwords).bind fun _ _ _ _ => ShellM.obeys_pure _

private theorem ShellM.forall₂_of_mapM {α β : Type} {step : α → ShellM β} {items : List α}
    {results : List β} {machine after : Machine} (h : items.mapM step machine = .ok results after) :
    List.Forall₂ (fun item result => ∃ before next, step item before = .ok result next)
      items results := by
  induction items generalizing results machine with
  | nil =>
    cases h
    exact .nil
  | cons item items ih =>
    rw [List.mapM_cons] at h
    obtain ⟨result, middle, hitem, h⟩ := bind_eq_ok h
    obtain ⟨rest, last, hitems, h⟩ := bind_eq_ok h
    cases h
    exact .cons ⟨machine, middle, hitem⟩ (ih hitems)

theorem Pipeline.files_of_expand {scope : Scope} {pipeline : Pipeline} {stages : List Stage}
    {machine after : Machine}
    (h : Pipeline.expand scope capture pipeline machine = .ok stages after) :
    List.Forall₂ (fun command stage => stage.input = command.input ∧ stage.output = command.output)
      pipeline stages := by
  refine (ShellM.forall₂_of_mapM h).imp ?_
  rintro command stage ⟨before, next, hstage⟩
  obtain ⟨lists, middle, -, hstage⟩ := ShellM.bind_eq_ok hstage
  cases hstage
  exact ⟨rfl, rfl⟩

theorem runLineWith_obeys {env : Environment} {line : Text}
    (hread : ∀ tree e, Pipeline.ofLine env.toScope tree line = .error e → rules.causes e)
    (hrun : ∀ tree pipelines, Pipeline.ofLine env.toScope tree line = .ok pipelines →
      ∀ pipeline ∈ pipelines, (Pipeline.run env capture pipeline).Obeys rules) :
    (runLineWith env capture line).Obeys rules := by
  apply (ShellM.obeys_ofTree hread).bind
  intro machine pipelines after hpipelines
  have hparse := (ShellM.ofTree_eq_ok hpipelines).1
  exact ShellM.obeys_forM (hrun machine.tree pipelines hparse)

end Evaluation

end LineShell
