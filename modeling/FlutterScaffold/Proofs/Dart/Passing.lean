import FlutterScaffold.Proofs.Dart.Elements
import FlutterScaffold.Proofs.Dart.Neutral

/-!
# Passing the contents of a bracket

Two readers go over the contents of a bracket: one has the bracket open and looks for its closer,
the other was started behind it and tells code from comments and literals. `Passes` says where a
stretch takes both and which of its bytes are significant. Where the two stand at the level of the
bracket itself (`Level`), blanks, a comma and neutral text keep them there.
-/

namespace FlutterScaffold.Dart

open Byte (newline isBlank isLayout)

namespace Reader

/-- A reader `s` and a reader `u` with a bracket more around it pass a stretch, in which the bytes
of `l` are significant. -/
structure Passes (rest w : Text) (s u s' u' : Reader) (l : List (Byte × Region)) : Prop where
  run : s.run rest w = some s'
  follow : u.follow rest w = some u'
  significant : s.significant rest w = l

/-- Both readers stand in the code of the bracket that `c` closes, within no further one. -/
structure Level (c : Byte) (s u : Reader) : Prop where
  atRest : s.atRest = true
  frames : u.frames = [.bracket c]
  pending : u.pending = 0

section Passes

variable {s u s' u' s'' u'' t : Reader} {b c : Byte} {rest v w y z : Text}
  {l l' : List (Byte × Region)}

theorem passes_nil (rest : Text) (s u : Reader) : Passes rest [] s u s u [] := ⟨rfl, rfl, rfl⟩

theorem Passes.append (h : Passes (w ++ rest) v s u s' u' l) (h' : Passes rest w s' u' s'' u'' l') :
    Passes rest (v ++ w) s u s'' u'' (l ++ l') where
  run := (runUntil_append_of h.run).trans h'.run
  follow := (runUntil_append_of h.follow).trans h'.follow
  significant := by rw [significant_append h.run, h.significant, h'.significant]

theorem Passes.cons {r q : Reader} (hs : s.read b (w ++ rest) = some r)
    (hu : u.read b (w ++ rest) = some q) (hrest : q.atRest = false)
    (h : Passes rest w r q s' u' l) :
    Passes rest (b :: w) s u s' u' ((if r.isSignificant b then [(b, r.region)] else []) ++ l) where
  run := (runUntil_cons_of_read hs rfl).trans h.run
  follow := (runUntil_cons_of_read hu hrest).trans h.follow
  significant := by rw [significant_cons_of_read hs, h.significant]

/-- Readers that take the same first step pass a stretch alike. -/
theorem Passes.congr {s₀ u₀ : Reader} (h : Passes rest (b :: w) s u s' u' l)
    (hs : s₀.read b (w ++ rest) = s.read b (w ++ rest))
    (hu : u₀.read b (w ++ rest) = u.read b (w ++ rest)) :
    Passes rest (b :: w) s₀ u₀ s' u' l where
  run := by
    rw [← h.run, Reader.run, Reader.run, runUntil_cons, runUntil_cons, hs]
  follow := by
    rw [← h.follow, Reader.follow, Reader.follow, runUntil_cons, runUntil_cons, hu]
  significant := by
    rw [← h.significant, Reader.significant, Reader.significant, trace, trace, hs]

/-- Other text may follow a stretch behind which no delimiter is under way. -/
theorem Passes.inert (h : Passes y w s u s' u' l) (hs : s.Coherent (w ++ y))
    (hu : u.Coherent (w ++ y)) (hs' : s'.pending = 0) (hu' : u'.pending = 0) (hz : Inert z) :
    Passes z w s u s' u' l where
  run := runUntil_inert hs h.run hs' hz
  follow := runUntil_inert hu h.follow hu' hz
  significant := by
    rw [Reader.significant, trace_inert hs h.run hs' hz]
    exact h.significant

/-! ## Readers at the level of the bracket -/

/-- Only an `r` may start something else behind a name. -/
theorem opening?_eq_of_ne (hb : b ≠ byte 'r') (a a' : Bool) (rest : Text) :
    opening? a b rest = opening? a' b rest := by
  simp [opening?_eq, hb]

/-- What was read before matters to code only where an `r` follows. -/
theorem read_eq_of_ne (hb : b ≠ byte 'r') {a : Bool} {r : Region}
    (hr : s.atRest = true ∨ r = s.region) (rest : Text) :
    ({ s with afterName := a, region := r } : Reader).read b rest = s.read b rest := by
  obtain ⟨frames, pending, afterName, region⟩ := s
  cases pending with
  | succ n =>
    obtain rfl : r = region := by simpa [atRest] using hr
    rfl
  | zero =>
    cases frames with
    | nil =>
      simp only [read, opening?_eq_of_ne hb a afterName]
      cases opening? afterName b rest <;> rfl
    | cons frame fs =>
      obtain rfl : r = region := by simpa [atRest] using hr
      cases frame with
      | bracket closer => simp only [read, opening?_eq_of_ne hb a afterName]
      | lineComment => rfl
      | blockComment => rfl
      | string q triple raw => rfl

/-- Bytes of code that start no comment and no literal. -/
def isSilent (b : Byte) : Bool := !isQuote b && b != Byte.slash

/-- The significant bytes of a text that is code throughout. -/
def codeOf (w : Text) : List (Byte × Region) := (w.filter fun b => !Byte.isSpace b).map (·, .code)

/-- A stretch without quotes and slashes is code throughout. The prefix of a raw string is a letter
like any other, unless a quote follows it. -/
theorem exists_run_silent (hs : s.atRest = true) (hw : ∀ b ∈ w, isSilent b = true)
    (hr : w.getLast? = some (byte 'r') → ∀ q ∈ rest.head?, isQuote q = false) :
    ∃ s', s.run rest w = some s' ∧ s'.atRest = true ∧ s.significant rest w = codeOf w := by
  induction w generalizing s with
  | nil => exact ⟨s, rfl, hs, rfl⟩
  | cons b w ih =>
    obtain ⟨hb, hw⟩ := List.forall_mem_cons.mp hw
    simp only [isSilent, Bool.and_eq_true, Bool.not_eq_true', bne_iff_ne] at hb
    obtain ⟨hquote, hslash⟩ := hb
    have hopen : opening? s.afterName b (w ++ rest) = none := by
      refine opening?_eq_none hslash hquote fun hraw => ?_
      cases w with
      | nil => exact hr (by simp [hraw])
      | cons q w =>
        have hq := hw q (List.mem_cons_self ..)
        simp only [isSilent, Bool.and_eq_true, Bool.not_eq_true'] at hq
        rintro p ⟨⟩
        exact hq.1
    have hread : s.read b (w ++ rest) = some { afterName := Byte.isIdentifier b } := by
      obtain ⟨hf, hp⟩ := atRest_iff.mp hs
      obtain ⟨frames, pending, afterName, region⟩ := s
      subst hf hp
      simp only [read, hopen]
    have hlast : w.getLast? = some (byte 'r') → ∀ q ∈ rest.head?, isQuote q = false := fun hw =>
      hr (by rw [List.getLast?_cons, hw]; rfl)
    obtain ⟨s', hrun, hrest, hsig⟩ := ih (s := { afterName := Byte.isIdentifier b }) rfl hw hlast
    refine ⟨s', (runUntil_cons_of_read hread rfl).trans hrun, hrest, ?_⟩
    rw [significant_cons_of_read hread, hsig, codeOf, codeOf, List.filter_cons]
    split <;> simp_all [isSignificant]

/-- Neutral text without quotes and slashes keeps both readers at the level of the bracket. -/
theorem Level.passes_neutral (h : Level c s u) (rest : Text) (hw : Neutral w)
    (hsilent : ∀ b ∈ w, isSilent b = true)
    (hr : w.getLast? = some (byte 'r') → ∀ q ∈ rest.head?, isQuote q = false) :
    ∃ s' u', Passes rest w s u s' u' (codeOf w) ∧ Level c s' u' := by
  obtain ⟨a, hu⟩ := hw.follow rest h.frames h.pending
  obtain ⟨s', hs, hrest, hsig⟩ := exists_run_silent h.atRest hsilent hr
  exact ⟨s', _, ⟨hs, hu, hsig⟩, hrest, h.frames, h.pending⟩

/-- Blanks keep both readers at the level of the bracket. -/
theorem Level.passes_layout (h : Level c s u) (rest : Text) (hw : ∀ b ∈ w, isLayout b = true) :
    ∃ s' u', Passes rest w s u s' u' [] ∧ Level c s' u' := by
  have hplain : ∀ b, isLayout b → isPlain b ∧ isSilent b ∧ Byte.isSpace b ∧ b ≠ byte 'r' := by
    decide +kernel
  have hr : w.getLast? ≠ some (byte 'r') := fun hlast =>
    (hplain _ (hw _ (List.mem_of_getLast? hlast))).2.2.2 rfl
  obtain ⟨s', u', hpass, hlevel⟩ := h.passes_neutral rest
    (.plain (fun b hb => (hplain b (hw b hb)).1) hr) (fun b hb => (hplain b (hw b hb)).2.1)
    fun hlast => absurd hlast hr
  have hnil : codeOf w = [] := by
    simpa [codeOf] using fun b hb => (hplain b (hw b hb)).2.2.1
  rw [hnil] at hpass
  exact ⟨s', u', hpass, hlevel⟩

/-- A comma of plain code leaves a reader there. -/
theorem read_comma (h : s.atRest = true) (rest : Text) :
    s.read (byte ',') rest = some { s with afterName := false, region := .code } := by
  obtain ⟨hf, hp⟩ := atRest_iff.mp h
  obtain ⟨frames, pending, afterName, region⟩ := s
  subst hf hp
  rfl

/-- A comma separates, and what follows it without an `r` at its start is passed as before. -/
theorem Level.passes_comma (h : Level c s u) (hn : ∀ b ∈ w.head?, b ≠ byte 'r')
    (hpass : Passes rest w s u s' u' l) :
    ∃ s'' u'', Passes rest (byte ',' :: w) s u s'' u'' (comma :: l) ∧
      (w ≠ [] → s'' = s' ∧ u'' = u') ∧ (w = [] → Level c s'' u'') := by
  have hs := read_comma h.atRest (w ++ rest)
  have hu : u.read (byte ',') (w ++ rest) =
    some { u with afterName := false, region := u.region } := by
    obtain ⟨frames, pending, afterName, region⟩ := u
    obtain ⟨-, hf, hp⟩ := h
    simp only at hf hp
    subst hf hp
    rfl
  have hbusy : ({ u with afterName := false, region := u.region } : Reader).atRest = false := by
    simp [Reader.atRest, h.frames]
  cases w with
  | nil =>
    obtain rfl := hpass.significant
    exact ⟨_, _, .cons hs hu hbusy (passes_nil _ _ _), by simp, fun _ =>
      ⟨h.atRest, h.frames, h.pending⟩⟩
  | cons b w =>
    have hb := hn b rfl
    refine ⟨s', u', .cons hs hu hbusy ?_, fun _ => ⟨rfl, rfl⟩, by simp⟩
    exact hpass.congr (read_eq_of_ne hb (Or.inl h.atRest) _) (read_eq_of_ne hb (Or.inr rfl) _)

/-! ## Neutral text behind plain code -/

/-- A reader without the outer brackets of another is at rest when the other has brackets only. -/
theorem Within.atRest_of_bracket (h : Within s u) (hs : s.Settled) (hc : s.Coherent rest)
    (hf : ∀ frame ∈ u.frames, ∃ closer, frame = .bracket closer) (hp : u.pending = 0) :
    s.atRest = true := by
  obtain ⟨outer, region, -, -, rfl⟩ := h
  by_contra hbusy
  have hne : s.frames ≠ [] := fun hnil => hbusy (atRest_iff.mpr ⟨hnil, hp⟩)
  have hlast := List.getLast?_eq_some_getLast hne
  obtain ⟨closer, hclose⟩ := hf _ (List.mem_append_left outer (List.getLast_mem hne))
  refine hs (by simpa using hbusy) ?_
  rw [hc.region_eq _ hlast, hclose]
  rfl

/-- Neutral text put where a reader of the contents of a bracket is in plain code moves the closer,
and it ends in plain code. Three stretches: up to the place as before, over the neutral text with
nothing opened or closed, and on from there, where only what follows a name can differ. -/
theorem lengthToRest_insert_neutral {n : Nat} (h : (inside c).lengthToRest (w ++ y) = some n)
    (hn : w.length < n) (hrun : ({} : Reader).run y w = some s) (hs : s.atRest = true)
    (hv : Neutral v) (hinert : Inert (v ++ y)) (hr : ∀ b ∈ y.head?, b ≠ byte 'r') :
    (inside c).lengthToRest (w ++ (v ++ y)) = some (v.length + n) ∧
      ∃ s', ({} : Reader).run y (w ++ v) = some s' ∧ s'.atRest = true := by
  obtain ⟨u, m, hu, hm, rfl⟩ := exists_follow h hn
  obtain ⟨s₀, hs₀, hin⟩ := (within_inside c).follow hu
  obtain rfl : s = s₀ := Option.some.inj (hrun.symm.trans hs₀)
  obtain ⟨hframes, hpending⟩ := atRest_iff.mp hs
  obtain ⟨outer, region, hne, hbracket, heq⟩ := hin
  have hf : u.frames = outer := by rw [heq, hframes, List.nil_append]
  have hp : u.pending = 0 := by rw [heq]; exact hpending
  obtain ⟨frame, fs, rfl⟩ := List.exists_cons_of_ne_nil hne
  obtain ⟨closer, rfl⟩ := hbracket frame (List.mem_cons_self ..)
  have hfollow : (inside c).follow (v ++ y) w = some u :=
    runUntil_inert (coherent_inside c _) hu hp hinert
  obtain ⟨a, ha⟩ := hv.follow y hf hp
  have hwhole : (inside c).follow y (w ++ v) = some { u with afterName := a } :=
    (runUntil_append_of hfollow).trans ha
  obtain ⟨s', hs', hin'⟩ := (within_inside c).follow hwhole
  refine ⟨?_, s', hs', hin'.atRest_of_bracket ((settled_of_atRest rfl).run hs')
    ((coherent_of_frames_eq_nil rfl rfl).runUntil hs' : s'.Coherent y) ?_ hp⟩
  · have hsame : ({ u with afterName := a } : Reader).lengthToRest y = u.lengthToRest y := by
      cases y with
      | nil => rfl
      | cons b y =>
        have hread := read_eq_of_ne (s := u) (hr b rfl) (a := a) (Or.inr rfl) y
        rw [lengthToRest_cons, lengthToRest_cons, ← hread]
    rw [← List.append_assoc, lengthToRest_follow hwhole, hsame, hm, Option.map_some,
      List.length_append]
    congr 1
    omega
  · simpa only [hf] using hbracket

end Passes

end Reader

end FlutterScaffold.Dart
