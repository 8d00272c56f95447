import FlutterScaffold.Proofs.Disk.Effects

/-!
# Hosts that differ in the bytes of one file

What a path names and what a host tells of it, short of reading, does not depend on the bytes of
files: walks on trees of one shape take the same course (`walk_shape`). So work that makes
directories and writes files ends in the same way on two hosts that agree but for the bytes of one
file, and it leaves two such hosts (`Lockstep`, `lockstep_ensureDirectory`, `lockstep_writeText`).
-/

namespace FlutterScaffold.Disk

/-! ## Trees of one shape -/

/-- An entry without its bytes. -/
def Entry.shape : Entry → Entry
  | .file _ => .file []
  | entry => entry

/-- Entries of one shape differ in nothing but the bytes of a file. -/
theorem Entry.shape_eq_iff {entry entry' : Entry} : entry.shape = entry'.shape ↔
    entry = entry' ∨ ∃ content content', entry = .file content ∧ entry' = .file content' := by
  cases entry <;> cases entry' <;> simp [shape]

/-- A spot without the bytes of the file that stands there. -/
def Spot.shape (spot : Spot) : Spot := { spot with entry := spot.entry.map Entry.shape }

/-- Trees that agree but for the bytes of files. -/
def Tree.SameShape (tree tree' : Tree) : Prop :=
  ∀ place, (tree'.get? place).map Entry.shape = (tree.get? place).map Entry.shape

section Walks

variable {tree tree' : Tree} {follow : Bool}

/-- Walks on trees of one shape end in the same way, whether they succeed or not. -/
theorem walk_shape (h : tree.SameShape tree') (links : Nat) (here : Place) (names : List Text) :
    (walk tree' follow links here names).map Spot.shape =
      (walk tree follow links here names).map Spot.shape := by
  induction links using Nat.strong_induction_on generalizing here names with
  | _ links ihlinks =>
  induction names generalizing here with
  | nil => rw [walk_nil, walk_nil]
  | cons name rest ih =>
    by_cases hdot : name = Path.dot
    · rw [hdot, walk_dot, walk_dot, ih]
    by_cases hdots : name = Path.dotDot
    · rw [hdots, walk_up, walk_up, ih]
    by_cases hlength : maxName < name.length
    · rw [walk_of_long hlength hdot hdots, walk_of_long hlength hdot hdots]
    have hfits : Fits name := ⟨hdot, hdots, Nat.le_of_not_lt hlength⟩
    have hget := h (name :: here)
    rw [walk_cons_of_fits hfits, walk_cons_of_fits hfits]
    generalize tree.get? (name :: here) = found at hget ⊢
    generalize tree'.get? (name :: here) = found' at hget ⊢
    rcases found with _ | entry <;> rcases found' with _ | entry'
    · rfl
    · simp at hget
    · simp at hget
    · have hshape : entry'.shape = entry.shape := by simpa using hget
      rcases Entry.shape_eq_iff.mp hshape with rfl | ⟨content', content, rfl, rfl⟩
      · cases entry' with
        | directory => exact ih (name :: here)
        | link target =>
          dsimp only
          split
          · rfl
          · cases links with
            | zero => rfl
            | succ links => exact ihlinks links (Nat.lt_succ_self _) _ _
        | file content => rfl
        | device device => rfl
      · dsimp only
        split <;> rfl

/-- Paths lead to the same places in trees of one shape. -/
theorem locate_shape (h : tree.SameShape tree') (here : Place) (p : Path) :
    (locate tree' here follow p).map Spot.shape = (locate tree here follow p).map Spot.shape := by
  rw [locate, locate]
  split
  · rfl
  · split
    · rfl
    · exact walk_shape h _ _ _

end Walks

namespace Host

/-! ## Hosts that are alike -/

/-- Sound hosts with the same names, on which all files but the one with a number hold the same
bytes. -/
structure Alike (number : Nat) (host host' : Host) : Prop where
  sound : host.Sound
  sound' : host'.Sound
  here : host'.here = host.here
  root : host'.tree.root = host.tree.root
  contents : ∀ other, other ≠ number → host'.tree.content other = host.tree.content other

section Alike

variable {number : Nat} {place stop : Place} {host host' ready ready' : Host} {p dir : Path}
  {content : Text}

/-- Hosts are alike both ways. -/
theorem Alike.symm (h : Alike number host host') : Alike number host' host where
  sound := h.sound'
  sound' := h.sound
  here := h.here.symm
  root := h.root.symm
  contents other hne := (h.contents other hne).symm

/-- Hosts that are alike hold the same objects at the same places. -/
theorem Alike.slot?_eq (h : Alike number host host') : host'.tree.slot? = host.tree.slot? := by
  funext place
  rw [Tree.slot?, Tree.slot?, Tree.node?, Tree.node?, Tree.top, Tree.top, h.root]

/-- The names of a file are the same on hosts that are alike. -/
theorem Alike.shows_iff (h : Alike number host host') :
    host'.tree.Shows stop place ↔ host.tree.Shows stop place := by
  rw [Tree.Shows, Tree.Shows, Tree.SameObject, Tree.SameObject, h.slot?_eq]

/-- Places of other objects show the same on both hosts. -/
theorem Alike.get?_eq (h : Alike number host host')
    (hplace : host.tree.slot? place ≠ some (.object number .file)) :
    host'.tree.get? place = host.tree.get? place := by
  rw [Tree.get?, Tree.get?, h.slot?_eq]
  rcases hslot : host.tree.slot? place with _ | _ | ⟨other, _ | target | device⟩
  · rfl
  · rfl
  · have hne : other ≠ number := fun heq => hplace (heq ▸ hslot)
    simp only [Option.map_some, Tree.entryOf, h.contents other hne]
  · rfl
  · rfl

/-- Hosts that are alike have the same ways. -/
theorem Alike.keeps (h : Alike number host host') : host.tree.Keeps host'.tree :=
  (Tree.Adds.of_slot? h.slot?_eq).keeps

/-- A path names the same place on hosts that are alike. -/
theorem Alike.names_iff (h : Alike number host host') : host'.Names p stop ↔ host.Names p stop :=
  ⟨fun hnames => hnames.of_keeps h.sound' h.symm.keeps h.here.symm,
    fun hnames => hnames.of_keeps h.sound h.keeps h.here⟩

/-- A path leads to the same place on hosts that are alike. -/
theorem Alike.leadsTo (h : Alike number host host') (hleads : host.LeadsTo p place) :
    host'.LeadsTo p place :=
  hleads.of_keeps h.sound h.keeps h.here fun target hlink =>
    absurd (h.symm.keeps.links place target hlink) (hleads.not_link target)

/-- A path names a link on hosts that are alike or on none. -/
theorem Alike.namesLink_iff (h : Alike number host host') :
    host'.NamesLink p ↔ host.NamesLink p := by
  refine exists_congr fun target => ?_
  rw [h.sound.linkStatus_iff, h.sound'.linkStatus_iff]
  refine exists_congr fun stop => and_congr h.names_iff ?_
  exact ⟨h.symm.keeps.links stop target, h.keeps.links stop target⟩

/-- Hosts that are alike have trees of one shape. -/
theorem Alike.sameShape (h : Alike number host host') : host.tree.SameShape host'.tree := by
  intro place
  rw [Tree.get?, Tree.get?, h.slot?_eq]
  rcases host.tree.slot? place with _ | _ | ⟨other, _ | target | device⟩ <;> rfl

/-- On hosts that are alike a path names the same place, or it is refused for the same reason. -/
theorem Alike.locate_cases (h : Alike number host host') (follow : Bool) (p : Path) :
    (∃ refusal, locate host.tree host.here follow p = .error refusal ∧
        locate host'.tree host'.here follow p = .error refusal) ∨
      ∃ spot spot', locate host.tree host.here follow p = .ok spot ∧
        locate host'.tree host'.here follow p = .ok spot' ∧ spot'.place = spot.place ∧
        (spot'.entry = spot.entry ∨ ∃ content content', spot.entry = some (.file content) ∧
          spot'.entry = some (.file content')) := by
  have hshape : (locate host'.tree host.here follow p).map Spot.shape =
      (locate host.tree host.here follow p).map Spot.shape := locate_shape h.sameShape host.here p
  rw [h.here]
  generalize locate host.tree host.here follow p = found at hshape
  generalize locate host'.tree host.here follow p = found' at hshape
  rcases found with refusal | ⟨stop, entry⟩ <;> rcases found' with refusal' | ⟨stop', entry'⟩
  · obtain rfl : refusal' = refusal := Except.error.inj hshape
    exact Or.inl ⟨refusal', rfl, rfl⟩
  · exact absurd hshape (by simp [Except.map])
  · exact absurd hshape (by simp [Except.map])
  · have hspot : Spot.shape ⟨stop', entry'⟩ = Spot.shape ⟨stop, entry⟩ := Except.ok.inj hshape
    obtain ⟨hstop, hentry⟩ := Spot.mk.inj hspot
    refine Or.inr ⟨_, _, rfl, rfl, hstop, ?_⟩
    rcases entry with _ | entry <;> rcases entry' with _ | entry'
    · exact Or.inl rfl
    · simp at hentry
    · simp at hentry
    · rcases Entry.shape_eq_iff.mp (Option.some.inj hentry) with rfl | ⟨content', content, rfl, rfl⟩
      · exact Or.inl rfl
      · exact Or.inr ⟨content, content', rfl, rfl⟩

/-- What is told about a path differs in nothing but the bytes of a file. -/
theorem Alike.status_cases (h : Alike number host host') (p : Path) :
    (∃ refusal, host.status p = .error refusal ∧ host'.status p = .error refusal) ∨
      ∃ entry entry', host.status p = .ok entry ∧ host'.status p = .ok entry' ∧
        (entry' = entry ∨ ∃ content content', entry = .file content ∧ entry' = .file content') := by
  rw [status, status]
  rcases h.locate_cases true p with ⟨refusal, hl, hl'⟩ | ⟨⟨stop, entry⟩, ⟨stop', entry'⟩, hl, hl',
    rfl, rfl | ⟨content, content', rfl, rfl⟩⟩
  · exact Or.inl ⟨refusal, by rw [hl]; rfl, by rw [hl']; rfl⟩
  · rw [hl, hl']
    cases entry' with
    | none => exact Or.inl ⟨.noEntry, rfl, rfl⟩
    | some entry => exact Or.inr ⟨entry, entry, rfl, rfl, Or.inl rfl⟩
  · rw [hl, hl']
    exact Or.inr ⟨_, _, rfl, rfl, Or.inr ⟨content, content', rfl, rfl⟩⟩

/-- The same paths exist on hosts that are alike. -/
theorem Alike.exists?_eq (h : Alike number host host') : host'.exists? = host.exists? := by
  funext p
  rw [exists?, exists?]
  rcases h.status_cases p with ⟨refusal, hs, hs'⟩ | ⟨entry, entry', hs, hs', -⟩
  · rw [hs, hs']
  · rw [hs, hs']
    rfl

/-- The same paths lead to directories on hosts that are alike. -/
theorem Alike.isDirectory_eq (h : Alike number host host') (p : Path) :
    host'.isDirectory p = host.isDirectory p := by
  rw [isDirectory, isDirectory]
  rcases h.status_cases p with ⟨refusal, hs, hs'⟩ |
    ⟨entry, entry', hs, hs', rfl | ⟨content, content', rfl, rfl⟩⟩ <;> rw [hs, hs']

/-- The same directories are missing on hosts that are alike. -/
theorem Alike.missingDirectories_eq (h : Alike number host host') (room : Nat)
    (paths : List Path) :
    missingDirectories host' room paths = missingDirectories host room paths := by
  induction paths generalizing room with
  | nil => rw [missingDirectories, missingDirectories]
  | cons p above ih =>
    cases above with
    | nil => rw [missingDirectories, missingDirectories]
    | cons q rest =>
      rw [missingDirectories, missingDirectories]
      rcases h.status_cases q with ⟨refusal, hs, hs'⟩ |
        ⟨entry, entry', hs, hs', rfl | ⟨content, content', rfl, rfl⟩⟩ <;> simp only [hs, hs', ih]

/-- The same directories are to be made on hosts that are alike. -/
theorem Alike.directoriesToMake_eq (h : Alike number host host') (dir : Path) :
    directoriesToMake host' dir = directoriesToMake host dir := by
  rw [directoriesToMake, directoriesToMake]
  rcases h.status_cases dir with ⟨refusal, hs, hs'⟩ |
    ⟨entry, entry', hs, hs', rfl | ⟨content, content', rfl, rfl⟩⟩ <;>
    simp only [hs, hs', h.missingDirectories_eq]

/-! ## Requests on hosts that are alike -/

/-- Both hosts refuse for the same reason, or they end up alike. -/
inductive BothEnd (number : Nat) : Except Refusal Host → Except Refusal Host → Prop
  | refused (refusal : Refusal) : BothEnd number (.error refusal) (.error refusal)
  | done {ready ready' : Host} : Alike number ready ready' →
    BothEnd number (.ok ready) (.ok ready')

/-- The same new entry gets the same number on both hosts. -/
theorem Alike.put (h : Alike number host host')
    (habove : host.tree.get? stop.tail = some .directory)
    (hstop : host.tree.get? stop ≠ some .directory) (entry : Entry) :
    Alike number { host with tree := host.tree.put stop entry }
      { host' with tree := host'.tree.put stop entry } := by
  have habove' := h.keeps.directories _ habove
  have hstop' := mt (h.symm.keeps.directories _) hstop
  have hfresh : host'.tree.fresh = host.tree.fresh := congrArg Listing.bound h.root
  refine ⟨(h.sound.sets_put habove hstop entry).sound,
    (h.sound'.sets_put habove' hstop' entry).sound,
    h.here, ?_, fun other hne => ?_⟩
  · change (host'.tree.put stop entry).root = (host.tree.put stop entry).root
    rw [Tree.put, Tree.put, hfresh]
    exact Tree.root_change (by rw [Tree.root_hold, Tree.root_hold, h.root]) _ _
  · change (host'.tree.put stop entry).content other = (host.tree.put stop entry).content other
    cases entry with
    | file content =>
      rw [Tree.content_put_file, Tree.content_put_file, hfresh, h.contents other hne]
    | _ =>
      rw [Tree.put, Tree.put, Tree.content_change, Tree.content_change]
      exact h.contents other hne

/-- New bytes go to the file with the same number on both hosts. -/
theorem Alike.rewrite (h : Alike number host host') (stop : Place) (content : Text) :
    Alike number { host with tree := host.tree.rewrite stop content }
      { host' with tree := host'.tree.rewrite stop content } := by
  refine ⟨h.sound.rewrite stop content, h.sound'.rewrite stop content, h.here, ?_,
    fun other hne => ?_⟩ <;> dsimp only [Tree.rewrite] <;> rw [h.slot?_eq]
  · split <;> exact h.root
  · split
    · rw [Tree.content_store, Tree.content_store, h.contents other hne]
    · exact h.contents other hne

/-- A directory is made on hosts that are alike or on none, and they stay alike. -/
theorem Alike.makeDirectory (h : Alike number host host') (p : Path) :
    BothEnd number (host.makeDirectory p) (host'.makeDirectory p) := by
  rw [Host.makeDirectory, Host.makeDirectory]
  rcases h.locate_cases false (Text.trimEnd (· == Byte.slash) (seen p)) with
    ⟨refusal, hl, hl'⟩ | ⟨⟨stop, entry⟩, ⟨stop', entry'⟩, hl, hl', hstop, hentry⟩
  · rw [hl, hl']
    exact .refused refusal
  · obtain ⟨hnames, hget⟩ := h.sound.finds hl
    rw [hl, hl']
    dsimp only at hstop hentry hnames hget
    subst hstop
    rcases hentry with rfl | ⟨content, content', rfl, rfl⟩
    · cases entry' with
      | none => exact .done (h.put (h.sound.above hnames) (by simp [← hget]) .directory)
      | some entry => exact .refused .exists
    · exact .refused .exists

/-- Requiring a directory ends alike on hosts that are alike. -/
theorem Alike.requireDirectory (h : Alike number host host') (p : Path) :
    BothEnd number (requireDirectory p host) (requireDirectory p host') := by
  have hmake := h.makeDirectory p
  rw [Disk.requireDirectory, Disk.requireDirectory, h.isDirectory_eq]
  generalize host.makeDirectory p = made at hmake
  generalize host'.makeDirectory p = made' at hmake
  cases hmake with
  | refused refusal =>
    cases refusal with
    | «exists» =>
      dsimp only
      split
      · exact .done h
      · exact .refused _
    | _ => exact .refused _
  | done hready => exact .done hready

/-- A file is written on hosts that are alike or on none, and they stay alike. -/
theorem Alike.writeFile (h : Alike number host host') (p : Path) (content : Text) :
    BothEnd number (host.writeFile p content) (host'.writeFile p content) := by
  rw [Host.writeFile, Host.writeFile]
  rcases h.locate_cases true p with
    ⟨refusal, hl, hl'⟩ | ⟨⟨stop, entry⟩, ⟨stop', entry'⟩, hl, hl', hstop, hentry⟩
  · rw [hl, hl']
    exact .refused refusal
  · obtain ⟨hleads, hget⟩ := h.sound.finds hl
    rw [hl, hl']
    dsimp only at hstop hentry hleads hget
    subst hstop
    rcases hentry with rfl | ⟨old, old', rfl, rfl⟩
    · rcases entry' with _ | ⟨_ | old | target | _ | _⟩
      · exact .done (h.put (h.sound.above hleads) (by simp [← hget]) (.file content))
      · exact .refused .isDirectory
      · exact .done (h.rewrite stop' content)
      · exact .refused .isDirectory
      · exact .done h
      · dsimp only [bind, Except.bind]
        split
        · exact .done h
        · exact .refused .noSpace
    · exact .done (h.rewrite stop' content)

end Alike

end Host

/-! ## Work in lockstep -/

/-- Work that ends in the same way on related states, and leaves related states. -/
def Lockstep {σ ε α : Type} (R : σ → σ → Prop) (work : ExceptT ε (StateM σ) α) : Prop :=
  ∀ s s', R s s' → (work.run s').1 = (work.run s).1 ∧ R (work.run s).2 (work.run s').2

section Lockstep

variable {σ ε α β γ : Type} {R : σ → σ → Prop}

/-- Doing nothing is in lockstep. -/
theorem lockstep_pure (a : α) : Lockstep R (pure a : ExceptT ε (StateM σ) α) :=
  fun _ _ h => ⟨rfl, h⟩

/-- Runs from related states both fail in the same way or both end with the same value. -/
theorem Lockstep.cases {work : ExceptT ε (StateM σ) α} (h : Lockstep R work) {s s' : σ}
    (hs : R s s') :
    (∃ e t t', work.run s = (.error e, t) ∧ work.run s' = (.error e, t') ∧ R t t') ∨
      ∃ a t t', work.run s = (.ok a, t) ∧ work.run s' = (.ok a, t') ∧ R t t' := by
  obtain ⟨heq, ht⟩ := h s s' hs
  rcases hrun : work.run s with ⟨e | a, t⟩ <;> rcases hrun' : work.run s' with ⟨result, t'⟩ <;>
    rw [hrun, hrun'] at heq ht <;> obtain rfl : result = _ := heq
  · exact Or.inl ⟨e, t, t', rfl, rfl, ht⟩
  · exact Or.inr ⟨a, t, t', rfl, rfl, ht⟩

/-- Work in lockstep goes on with work in lockstep. -/
theorem Lockstep.bind {work : ExceptT ε (StateM σ) α} {more : α → ExceptT ε (StateM σ) β}
    (h : Lockstep R work) (hmore : ∀ a, Lockstep R (more a)) : Lockstep R (work >>= more) := by
  intro s s' hs
  rw [run_bind, run_bind]
  rcases h.cases hs with ⟨e, t, t', hrun, hrun', ht⟩ | ⟨a, t, t', hrun, hrun', ht⟩ <;>
    rw [hrun, hrun']
  · exact ⟨rfl, ht⟩
  · exact hmore a t t' ht

/-- Work that is in lockstep for each item is so for all. -/
theorem lockstep_forM {work : γ → ExceptT ε (StateM σ) Unit} (h : ∀ item, Lockstep R (work item))
    (items : List γ) : Lockstep R (items.forM work) := by
  induction items with
  | nil => exact lockstep_pure ()
  | cons item items ih => exact (h item).bind fun _ => ih

end Lockstep

section Files

open Host (Alike)

variable {number : Nat}

/-- A request that ends alike is in lockstep as an action. -/
theorem lockstep_perform {ε : Type} {request : Host → Except Refusal Host} (fault : Refusal → ε)
    (h : ∀ host host', Alike number host host' →
      Host.BothEnd number (request host) (request host')) :
    Lockstep (Alike number) (perform request fault) := by
  intro host host' hhost
  have hended := h host host' hhost
  rw [run_perform, run_perform]
  generalize request host = ended at hended
  generalize request host' = ended' at hended
  cases hended with
  | refused refusal => exact ⟨rfl, hhost⟩
  | done hready => exact ⟨rfl, hready⟩

/-- A directory is made on both hosts or on none. -/
theorem lockstep_ensureDirectory (dir : Path) : Lockstep (Alike number) (ensureDirectory dir) := by
  by_cases hdir : dir = []
  · rw [ensureDirectory, if_pos (by simpa using hdir)]
    exact lockstep_pure ()
  intro host host' hhost
  rw [run_ensureDirectory host hdir, run_ensureDirectory host' hdir, hhost.directoriesToMake_eq]
  cases directoriesToMake host dir with
  | error refusal => exact ⟨rfl, hhost⟩
  | ok missing =>
    have hlockstep : Lockstep (Alike number) (missing.reverse.forM fun above =>
        perform (requireDirectory above) fun refusal =>
          (⟨.directoryNotMade refusal, dir⟩ : FileFault)) :=
      lockstep_forM (fun above => lockstep_perform _ fun _ _ h => h.requireDirectory above) _
    dsimp only
    generalize (missing.reverse.forM fun above => perform (requireDirectory above) fun refusal =>
      (⟨.directoryNotMade refusal, dir⟩ : FileFault) : Action FileFault Unit) = making
      at hlockstep ⊢
    rcases hlockstep.cases hhost with ⟨fault, ready, ready', hrun, hrun', hready⟩ |
      ⟨_, ready, ready', hrun, hrun', hready⟩ <;> rw [hrun, hrun']
    · exact ⟨rfl, hready⟩
    · dsimp only
      rw [hready.isDirectory_eq]
      split <;> exact ⟨rfl, hready⟩

/-- A file is written on both hosts or on none. -/
theorem lockstep_writeText (p : Path) (content : Text) :
    Lockstep (Alike number) (writeText p content true) :=
  (lockstep_ensureDirectory p.parent).bind fun _ =>
    lockstep_perform _ fun _ _ h => h.writeFile p content

end Files

end FlutterScaffold.Disk
