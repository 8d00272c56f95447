import FlutterScaffold.Generation.Application
import FlutterScaffold.Proofs.Generation.Refusal
import FlutterScaffold.Proofs.Name.Snake

/-!
# The names that an application may have

The name of a new application is looked at before anything else, and no later step complains about
it (`failsWith_application`). So an application is stopped because of its name exactly when the name
is no snake form that starts with a letter, or is a reserved word (`snake_forms_are_normal`).
-/

namespace FlutterScaffold.Generation

open Name (ofText validate snakeForms projectForms isReserved)

/-- Whether a generation was stopped because of a name. -/
def Fault.isAboutName : Fault → Bool
  | .badName .. | .notSnake .. => true
  | _ => false

/-- The faults that are about something else. -/
def Fault.IsOther (fault : Fault) : Prop := fault.isAboutName = false

/-- Work that fails with faults of a kind only. -/
def FailsWith {σ ε α : Type} (p : ε → Prop) (work : ExceptT ε (StateM σ) α) : Prop :=
  ∀ s fault after, work.run s = (.error fault, after) → p fault

section FailsWith

variable {σ ε α β γ δ : Type} {p : ε → Prop}

/-- Work that succeeds fails with no fault. -/
theorem failsWith_of_ok {work : ExceptT ε (StateM σ) α}
    (h : ∀ s, ∃ a after, work.run s = (.ok a, after)) : FailsWith p work := by
  intro s fault after hrun
  obtain ⟨a, after', hok⟩ := h s
  exact absurd (congrArg Prod.fst (hok.symm.trans hrun)) (by simp)

/-- Doing nothing does not fail. -/
theorem failsWith_pure (a : α) : FailsWith p (pure a : ExceptT ε (StateM σ) α) :=
  failsWith_of_ok fun _ => ⟨_, _, rfl⟩

/-- A fault is what it is. -/
theorem failsWith_throw {fault : ε} (h : p fault) :
    FailsWith p (throw fault : ExceptT ε (StateM σ) α) :=
  fun _ _ _ hrun => Except.error.inj (congrArg Prod.fst hrun) ▸ h

/-- Work that goes on fails with the faults of either part. -/
theorem FailsWith.bind {work : ExceptT ε (StateM σ) α} {more : α → ExceptT ε (StateM σ) β}
    (h : FailsWith p work) (hmore : ∀ a, FailsWith p (more a)) : FailsWith p (work >>= more) := by
  intro s fault after hrun
  rw [Disk.run_bind] at hrun
  rcases hwork : work.run s with ⟨e | a, between⟩ <;> rw [hwork] at hrun
  · obtain rfl := Except.error.inj (congrArg Prod.fst hrun)
    exact h s e between hwork
  · exact hmore a between fault after hrun

/-- Looking at the state does not fail. -/
theorem failsWith_get : FailsWith p (get : ExceptT ε (StateM σ) σ) :=
  failsWith_of_ok fun _ => ⟨_, _, rfl⟩

/-- Setting the state does not fail. -/
theorem failsWith_set (s : σ) : FailsWith p (set s : ExceptT ε (StateM σ) PUnit) :=
  failsWith_of_ok fun _ => ⟨_, _, rfl⟩

/-- Work done for each item fails with the faults that it has for one. -/
theorem failsWith_foldlM {work : α → γ → ExceptT ε (StateM σ) α}
    (h : ∀ a item, FailsWith p (work a item)) (items : List γ) (a : α) :
    FailsWith p (items.foldlM work a) := by
  induction items generalizing a with
  | nil => exact failsWith_pure a
  | cons item items ih =>
    rw [List.foldlM_cons]
    exact (h a item).bind ih

/-- A test that lets the work behind it go on. -/
theorem failsWith_unless {c : Prop} [Decidable c] {fault : ε} {more : ExceptT ε (StateM σ) α}
    (h : p fault) (hmore : FailsWith p more) :
    FailsWith p (if c then (throw fault : ExceptT ε (StateM σ) Unit) >>= fun _ => more
      else more) := by
  split
  · exact (failsWith_throw h).bind fun _ => hmore
  · exact hmore

/-- Reporting does not fail. -/
theorem failsWith_report (d : Diagnostic) : FailsWith p (Task.report d : Task ε Unit) :=
  failsWith_of_ok fun _ => ⟨_, _, rfl⟩

/-- Work on the host fails with the faults that are made of those of the action. -/
theorem failsWith_onHost {fault : δ → ε} (h : ∀ e, p (fault e)) (action : Disk.Action δ α) :
    FailsWith p (Task.onHost action fault) := by
  intro desk e after hrun
  rw [Disk.run_onHost] at hrun
  rcases hrun' : action.run desk.host with ⟨cause | a, host⟩ <;> rw [hrun'] at hrun
  · exact Except.error.inj (congrArg Prod.fst hrun) ▸ h cause
  · exact absurd (congrArg Prod.fst hrun) (by simp)

end FailsWith

/-! ## What comes after the name -/

section Application

variable {request : Request} {name : Name}

/-- A fault of a file is none about a name. -/
theorem failsWith_file {α : Type} (action : Disk.Action Disk.FileFault α) :
    FailsWith Fault.IsOther (Task.onHost action Fault.file) := by
  have hother : ∀ cause, Fault.IsOther (.file cause) := fun _ => rfl
  exact failsWith_onHost hother action

/-- Making directories fails for other reasons than the name. -/
theorem failsWith_ensureAll (directories : List Path) (report : Report) :
    FailsWith Fault.IsOther (ensureAll directories report) :=
  failsWith_foldlM (fun _ _ => (failsWith_file _).bind fun _ => failsWith_pure _) directories report

/-- Writing files fails for other reasons than the name. -/
theorem failsWith_writeAll (files : List (Path × Text)) (report : Report) :
    FailsWith Fault.IsOther (writeAll files report) :=
  failsWith_foldlM (fun _ _ => (failsWith_file _).bind fun _ => failsWith_pure _) files report

/-- Once its name is accepted, a request is refused for other reasons only. -/
theorem failsWith_check (hname : validate request.name = .ok name)
    (hself : name.snake = request.name) : FailsWith Fault.IsOther request.check := by
  have hnamed : named "project" request.name = pure name := by rw [named, hname]
  rw [Request.check, hnamed, pure_bind, if_neg (by simp [hself])]
  refine failsWith_unless rfl (failsWith_get.bind fun desk => ?_)
  split
  · exact failsWith_unless rfl (failsWith_unless rfl (failsWith_pure name))
  · exact failsWith_pure name

/-- Letting the tool create a project fails for other reasons than the name. -/
theorem failsWith_createByFlutter (request : Request) :
    FailsWith Fault.IsOther request.createByFlutter := by
  refine (failsWith_report _).bind fun _ => failsWith_get.bind fun desk => ?_
  refine (failsWith_set _).bind fun _ => ?_
  split
  · exact failsWith_throw rfl
  · exact failsWith_pure ()

/-- Adding dependencies fails for other reasons than the name. -/
theorem failsWith_addDependencies (pubspec : Path) (report : Report) :
    FailsWith Fault.IsOther (addDependencies pubspec report) := by
  refine failsWith_get.bind fun desk => ?_
  split
  · exact (failsWith_report _).bind fun _ => failsWith_pure report
  · refine (failsWith_file (Disk.readText pubspec)).bind fun text => ?_
    cases Project.Pubspec.withDependencies? text with
    | none => exact (failsWith_report _).bind fun _ => failsWith_pure report
    | some updated =>
      dsimp only
      split
      · exact failsWith_pure report
      · exact (failsWith_file _).bind fun _ => failsWith_pure _

/-- What is done for an accepted request fails for other reasons than the name. -/
theorem failsWith_application (hname : validate request.name = .ok name)
    (hself : name.snake = request.name) : FailsWith Fault.IsOther (application request) := by
  refine (failsWith_check hname hself).bind fun name => ?_
  split
  on_goal 1 => refine (failsWith_createByFlutter request).bind fun _ => ?_
  all_goals
    refine (failsWith_ensureAll _ _).bind fun _ => (failsWith_addDependencies _ _).bind fun _ => ?_
    exact (failsWith_ensureAll _ _).bind fun _ => failsWith_writeAll _ _

/-- A name that is not accepted stops the generation at once. -/
theorem exists_run_application_of_refused (desk : Desk)
    (h : ¬ ∃ name, validate request.name = .ok name ∧ name.snake = request.name) :
    ∃ fault : Fault, fault.isAboutName ∧
      (application request).run desk = (.error fault, desk) := by
  have hcheck : ∃ fault : Fault, fault.isAboutName ∧
      request.check.run desk = (.error fault, desk) := by
    rw [Request.check, Disk.run_bind, run_named]
    cases hname : validate request.name with
    | error fault => exact ⟨_, rfl, rfl⟩
    | ok name =>
      have hself : name.snake ≠ request.name := fun hself => h ⟨name, hname, hself⟩
      dsimp only
      rw [if_pos (by simpa using hself)]
      exact ⟨.notSnake request.name name, rfl, rfl⟩
  obtain ⟨fault, habout, hrun⟩ := hcheck
  refine ⟨fault, habout, ?_⟩
  rw [application, Disk.run_bind, hrun]

end Application

/-- Snake forms are normal: they spell what they were made from, and the texts that are their own
snake form are the empty text and the snake forms of the grammar. An application is not stopped
because of its name exactly when this name is such a form that starts with a letter, and no reserved
word. -/
theorem snake_forms_are_normal (text : Text) :
    ofText (ofText text).snake = ofText text ∧
      ((ofText text).snake = text ↔ text = [] ∨ text ∈ snakeForms) ∧
      ∀ (request : Request) (desk : Desk),
        (∃ fault : Fault, fault.isAboutName ∧
            ((application request).run desk).1 = .error fault) ↔
          ¬ (request.name ∈ projectForms ∧ isReserved request.name = false) := by
  refine ⟨Name.ofText_snake text, Name.snake_eq_self_iff, fun request desk => ?_⟩
  rw [← Name.validate_and_snake_eq_iff]
  constructor
  · rintro ⟨fault, habout, hfault⟩ ⟨name, hname, hself⟩
    have hother := failsWith_application hname hself desk fault _ (Prod.ext hfault rfl)
    exact absurd (habout.symm.trans hother) (by simp)
  · intro hrefused
    obtain ⟨fault, habout, hrun⟩ := exists_run_application_of_refused desk hrefused
    exact ⟨fault, habout, congrArg Prod.fst hrun⟩

end FlutterScaffold.Generation
