import FlutterScaffold.Disk.File
import FlutterScaffold.Task

/-!
# What work changes on a disk

All changes that actions and tasks make on a host are made by four kinds of operations, each for
paths that it names. `ChangesBy` says of some work that operations of a given sort account for the
host that it leaves, however it ends; it is passed on by sequencing, and whole files are written and
replaced by operations on the file, its sibling and the directory above.
-/

namespace FlutterScaffold.Disk

/-- A request that may change what stands on a disk. -/
inductive Operation where
  /-- Makes a directory and what is missing above it. -/
  | ensure (dir : Path)
  | write (p : Path) (content : Text)
  | remove (p : Path)
  | rename (p q : Path)
  deriving DecidableEq, Repr

namespace Operation

/-- The directory that an operation asks for. -/
def directories : Operation → List Path
  | .ensure dir => [dir]
  | _ => []

/-- The files that an operation writes, removes or moves. -/
def files : Operation → List Path
  | .ensure _ => []
  | .write p _ => [p]
  | .remove p => [p]
  | .rename p q => [p, q]

/-- The host that an operation leaves; a refused request leaves it as it was. -/
def apply (host : Host) : Operation → Host
  | .ensure dir => ((ensureDirectory dir).run host).2
  | .write p content => (host.writeFile p content).toOption.getD host
  | .remove p => (host.remove p).toOption.getD host
  | .rename p q => (host.rename p q).toOption.getD host

end Operation

/-- Operations with a property account for all that some work changes on its host. -/
def ChangesBy {σ ε α : Type} (hostOf : σ → Host) (P : Operation → Prop)
    (work : ExceptT ε (StateM σ) α) : Prop :=
  ∀ s, ∃ operations : List Operation,
    hostOf (work.run s).2 = operations.foldl Operation.apply (hostOf s) ∧
      ∀ op ∈ operations, P op

section Sequencing

variable {σ ε α β : Type} {hostOf : σ → Host} {P : Operation → Prop}

/-- Work that keeps the host changes nothing on it. -/
theorem changesBy_of_eq {work : ExceptT ε (StateM σ) α}
    (h : ∀ s, hostOf (work.run s).2 = hostOf s) : ChangesBy hostOf P work :=
  fun s => ⟨[], h s, by simp⟩

/-- Doing nothing changes nothing. -/
theorem changesBy_pure (a : α) :
    ChangesBy hostOf P (pure a : ExceptT ε (StateM σ) α) := changesBy_of_eq fun _ => rfl

/-- A fault changes nothing. -/
theorem changesBy_throw (e : ε) :
    ChangesBy hostOf P (throw e : ExceptT ε (StateM σ) α) := changesBy_of_eq fun _ => rfl

/-- Looking at the state changes nothing. -/
theorem changesBy_get : ChangesBy hostOf P (get : ExceptT ε (StateM σ) σ) :=
  changesBy_of_eq fun _ => rfl

/-- Work that goes on does so from the state that the first part leaves. -/
theorem run_bind (work : ExceptT ε (StateM σ) α) (more : α → ExceptT ε (StateM σ) β) (s : σ) :
    (work >>= more).run s =
      match work.run s with
      | (.ok a, s') => (more a).run s'
      | (.error e, s') => (.error e, s') := by
  change (ExceptT.bindCont more (work.run s).1) (work.run s).2 = _
  rcases work.run s with ⟨_ | _, s'⟩ <;> rfl

/-- Work that succeeds has succeeded in its first part and then in the rest. -/
theorem exists_of_run_bind_eq_ok {work : ExceptT ε (StateM σ) α}
    {more : α → ExceptT ε (StateM σ) β} {s s' : σ} {b : β}
    (h : (work >>= more).run s = (.ok b, s')) :
    ∃ a between, work.run s = (.ok a, between) ∧ (more a).run between = (.ok b, s') := by
  rw [run_bind] at h
  rcases hrun : work.run s with ⟨e | a, between⟩ <;> rw [hrun] at h
  · exact absurd (congrArg Prod.fst h) (by simp)
  · exact ⟨a, between, rfl, h⟩

/-- Work that succeeds needs no handler. -/
theorem run_tryCatch_ok {work : ExceptT ε (StateM σ) α} {s s' : σ} {a : α}
    (h : work.run s = (.ok a, s')) (handler : ε → ExceptT ε (StateM σ) α) :
    (tryCatch work handler).run s = (.ok a, s') := by
  simp only [tryCatch, tryCatchThe, MonadExceptOf.tryCatch, ExceptT.tryCatch, ExceptT.run,
    ExceptT.mk, bind, StateT.bind, show work s = _ from h]
  rfl

/-- A handler goes on from the state that a fault leaves. -/
theorem run_tryCatch_error {work : ExceptT ε (StateM σ) α} {s s' : σ} {e : ε}
    (h : work.run s = (.error e, s')) (handler : ε → ExceptT ε (StateM σ) α) :
    (tryCatch work handler).run s = (handler e).run s' := by
  simp only [tryCatch, tryCatchThe, MonadExceptOf.tryCatch, ExceptT.tryCatch, ExceptT.run,
    ExceptT.mk, bind, StateT.bind, show work s = _ from h]

/-- One piece of work behind another is accounted for by the operations of both. -/
theorem ChangesBy.bind {work : ExceptT ε (StateM σ) α} {more : α → ExceptT ε (StateM σ) β}
    (h : ChangesBy hostOf P work) (hmore : ∀ a, ChangesBy hostOf P (more a)) :
    ChangesBy hostOf P (work >>= more) := by
  intro s
  obtain ⟨operations, hhost, hall⟩ := h s
  rw [run_bind]
  rcases hrun : work.run s with ⟨e | a, s'⟩ <;> rw [hrun] at hhost
  · exact ⟨operations, hhost, hall⟩
  · obtain ⟨later, hlater, hall'⟩ := hmore a s'
    refine ⟨operations ++ later, ?_, List.forall_mem_append.mpr ⟨hall, hall'⟩⟩
    rw [List.foldl_append, ← hhost]
    exact hlater

/-- Work that looks at its state first is accounted for state by state. -/
theorem changesBy_get_bind {more : σ → ExceptT ε (StateM σ) α}
    (h : ∀ s, ∃ operations : List Operation,
      hostOf ((more s).run s).2 = operations.foldl Operation.apply (hostOf s) ∧
        ∀ op ∈ operations, P op) : ChangesBy hostOf P (get >>= more) := by
  intro s
  rw [run_bind]
  exact h s

/-- Work and its handler change the host by the operations of both. -/
theorem ChangesBy.tryCatch {work : ExceptT ε (StateM σ) α} {handler : ε → ExceptT ε (StateM σ) α}
    (h : ChangesBy hostOf P work) (hhandler : ∀ e, ChangesBy hostOf P (handler e)) :
    ChangesBy hostOf P (MonadExcept.tryCatch work handler) := by
  intro s
  obtain ⟨operations, hhost, hall⟩ := h s
  rcases hrun : work.run s with ⟨e | a, s'⟩ <;> rw [hrun] at hhost
  · obtain ⟨later, hlater, hall'⟩ := hhandler e s'
    refine ⟨operations ++ later, ?_, List.forall_mem_append.mpr ⟨hall, hall'⟩⟩
    rw [List.foldl_append, ← hhost, run_tryCatch_error hrun]
    exact hlater
  · rw [run_tryCatch_ok hrun]
    exact ⟨operations, hhost, hall⟩

/-- Work done for each item changes the host by its operations. -/
theorem changesBy_forM {γ : Type} {work : γ → ExceptT ε (StateM σ) Unit} {items : List γ}
    (h : ∀ item ∈ items, ChangesBy hostOf P (work item)) :
    ChangesBy hostOf P (items.forM work) := by
  induction items with
  | nil => exact changesBy_pure ()
  | cons item items ih =>
    obtain ⟨hitem, hitems⟩ := List.forall_mem_cons.mp h
    exact hitem.bind fun _ => ih hitems

end Sequencing

/-! ## Whole files -/

section Files

variable {ε : Type} {P : Operation → Prop} {p : Path} {content : Text}

/-- Ensuring a directory is one operation. -/
theorem changesBy_ensureDirectory {dir : Path} (h : P (.ensure dir)) :
    ChangesBy id P (ensureDirectory dir) :=
  fun host => ⟨[.ensure dir], rfl, by simpa using h⟩

/-- A request that is carried out as an operation. -/
theorem changesBy_perform {request : Host → Except Refusal Host} {op : Operation}
    (hop : ∀ host, Operation.apply host op = (request host).toOption.getD host)
    (fault : Refusal → ε) (h : P op) : ChangesBy id P (perform request fault) := by
  refine changesBy_get_bind fun host => ⟨[op], ?_, by simpa using h⟩
  rw [List.foldl_cons, List.foldl_nil, hop, id_eq, id_eq]
  cases request host <;> rfl

/-- Discarding an entry is its removal. -/
theorem changesBy_discard (h : P (.remove p)) : ChangesBy id P (discard p : Action ε Unit) := by
  refine changesBy_get_bind fun host => ⟨[.remove p], ?_, by simpa using h⟩
  rw [List.foldl_cons, List.foldl_nil, Operation.apply, id_eq, id_eq]
  cases host.remove p <;> rfl

/-- Discarding what could not be written is its removal. -/
theorem changesBy_discardUnwritten (h : P (.remove p)) :
    ChangesBy id P (discardUnwritten p : Action ε Unit) := by
  refine changesBy_get.bind fun host => ?_
  split
  · exact changesBy_pure ()
  · exact changesBy_discard h
  · exact changesBy_pure ()

/-- A file is written behind a request for the directory above it. -/
theorem changesBy_writeText {overwrite : Bool} (hdirectory : P (.ensure p.parent))
    (hfile : P (.write p content)) : ChangesBy id P (writeText p content overwrite) := by
  have hwrite := (changesBy_ensureDirectory hdirectory).bind fun _ =>
    changesBy_perform (fun _ => rfl : ∀ host, Operation.apply host (.write p content) = _)
      (fun refusal => (⟨if refusal = .noSpace then .notWritten else .unwritable, p⟩ : FileFault))
      hfile
  refine changesBy_get.bind fun host => ?_
  dsimp only
  split
  · exact (changesBy_throw _).bind fun _ => hwrite
  · exact hwrite

/-- A file is replaced through the sibling, and only that is taken away again. -/
theorem changesBy_replaceText (hdirectory : P (.ensure (temporary p).parent))
    (hwrite : P (.write (temporary p) content)) (hremove : P (.remove (temporary p)))
    (hrename : P (.rename (temporary p) p)) : ChangesBy id P (replaceText p content) := by
  have hwritten : ChangesBy id P (do
      try writeText (temporary p) content true
      catch fault =>
        discardUnwritten (temporary p)
        throw fault : Action FileFault Unit) :=
    (changesBy_writeText hdirectory hwrite).tryCatch fun fault =>
      (changesBy_discardUnwritten hremove).bind fun _ => changesBy_throw fault
  refine hwritten.bind fun _ => changesBy_get_bind fun host => ?_
  have hrefused (refusal : Refusal) : ChangesBy id P (do
      discard (temporary p)
      throw ⟨.notReplaced refusal, p⟩ : Action FileFault Unit) :=
    (changesBy_discard hremove).bind fun _ => changesBy_throw _
  cases hmove : host.rename (temporary p) p with
  | ok moved => exact ⟨[.rename (temporary p) p], by simp [Operation.apply, hmove]; rfl, by simpa⟩
  | error refusal => exact hrefused refusal host

end Files

/-! ## Tasks -/

section Tasks

variable {ε δ α : Type} {P : Operation → Prop}

/-- A task changes its host as the work on the host alone does. -/
theorem changesBy_onHost {action : Action δ α} (fault : δ → ε) (h : ChangesBy id P action) :
    ChangesBy Desk.host P (Task.onHost action fault) := by
  refine changesBy_get_bind fun desk => ?_
  obtain ⟨operations, hhost, hall⟩ := h desk.host
  refine ⟨operations, ?_, hall⟩
  rw [id, id] at hhost
  rw [← hhost]
  rcases action.run desk.host with ⟨_ | _, host⟩ <;> rfl

/-- Work on the host leaves the log as it is. -/
theorem run_onHost (action : Action δ α) (fault : δ → ε) (desk : Desk) :
    (Task.onHost action fault).run desk =
      match action.run desk.host with
      | (.ok value, host) => (.ok value, { desk with host := host })
      | (.error e, host) => (.error (fault e), { desk with host := host }) := by
  rw [Task.onHost, run_bind]
  simp only [show (get : Task ε Desk).run desk = (.ok desk, desk) from rfl]
  rcases action.run desk.host with ⟨_ | _, host⟩ <;> rfl

/-- Reporting does not change the host. -/
theorem changesBy_report (d : Diagnostic) : ChangesBy Desk.host P (Task.report d : Task ε Unit) :=
  changesBy_of_eq fun _ => rfl

end Tasks

end FlutterScaffold.Disk
