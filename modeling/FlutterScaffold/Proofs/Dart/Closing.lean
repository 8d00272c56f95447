import FlutterScaffold.Proofs.Dart.Passing
import FlutterScaffold.Proofs.Text.Lines

/-!
# In front of a closer

Where a bracket is closed, both readers of its contents stand at the level of the bracket
(`exists_level_of_lengthToRest`). In front of the layout that precedes the closer they do so too,
or they are in a comment up to the end of its line (`level_or_inLine`), and a line break brings them
back to the level of the bracket either way.
-/

namespace FlutterScaffold.Dart

open Byte (newline carriageReturn isLayout)

namespace Reader

variable {s u t : Reader} {b c : Byte} {rest v w tail : Text} {l : List (Byte × Region)}

/-! ## The outermost bracket -/

/-- A step that does not come to rest keeps the outermost bracket open. -/
private theorem getLast?_read (hu : u.read b rest = some t) (hbusy : t.atRest = false)
    (hc : u.frames.getLast? = some (.bracket c)) : t.frames.getLast? = some (.bracket c) := by
  have hmove := read_move hu
  have hne : t.frames ≠ [] := by
    intro hnil
    generalize hfs : u.frames = fs at hmove hc
    generalize hgs : t.frames = gs at hmove hnil
    generalize hn : u.pending = n at hmove
    generalize hm : t.pending = m at hmove
    subst hnil
    cases hmove with
    | pass => simp at hc
    | endLine => simp at hc
    | endBlock => simp at hc
    | close => simp at hc
    | closeTriple => simp at hc
    | pop => simp [atRest, hgs, hm] at hbusy
    | code => simp at hc
  obtain ⟨frame, hframe⟩ := Option.ne_none_iff_exists'.mp fun h =>
    hne (List.getLast?_eq_none_iff.mp h)
  have hcode : ¬ (u.frames = [] ∧ u.pending = 0) := by
    rintro ⟨hnil, -⟩
    simp [hnil] at hc
  rw [hframe, ← hc]
  exact (getLast?_of_move hmove hcode frame hframe).symm

/-- A reader that follows the contents of a bracket keeps it open. -/
theorem getLast?_follow (hu : u.follow rest w = some t)
    (hc : u.frames.getLast? = some (.bracket c)) : t.frames.getLast? = some (.bracket c) :=
  runUntil_keeps (P := fun u _ => u.frames.getLast? = some (.bracket c))
    (fun hc hr hbusy => getLast?_read hr hbusy hc) hc hu

/-- Only the closer of the outermost bracket brings a reader of its contents to rest. -/
theorem eq_of_read_atRest (hu : u.read b rest = some t) (ht : t.atRest = true)
    (hc : u.frames.getLast? = some (.bracket c)) :
    u.frames = [.bracket c] ∧ u.pending = 0 ∧ b = c ∧ isCloser b = true := by
  have hmove := read_move hu
  obtain ⟨hf, hp⟩ := atRest_iff.mp ht
  rw [hf, hp] at hmove
  generalize hfs : u.frames = fs at hmove hc
  generalize hn : u.pending = n at hmove
  cases hmove with
  | pass => simp at hc
  | endLine => simp at hc
  | close => simp at hc
  | pop fs hopen hcloser =>
    simp only [List.getLast?_singleton, Option.some.injEq, Frame.bracket.injEq] at hc
    subst hc
    exact ⟨rfl, rfl, rfl, hcloser⟩
  | code => simp at hc

/-- In front of the closer both readers stand at the level of the bracket. -/
theorem exists_level_of_lengthToRest
    (h : (inside c).lengthToRest (w ++ tail) = some (w.length + 1)) :
    ∃ s u, ({} : Reader).run tail w = some s ∧ (inside c).follow tail w = some u ∧ Level c s u ∧
      ∃ more, tail = c :: more ∧ isCloser c = true := by
  obtain ⟨u, m, hu, hm, hlen⟩ := exists_follow h (Nat.lt_succ_self _)
  obtain rfl : m = 1 := by omega
  obtain ⟨s, hs, outer, region, hne, hbracket, rfl⟩ := (within_inside c).follow hu
  cases tail with
  | nil => simp [lengthToRest] at hm
  | cons b more =>
    rw [lengthToRest_cons] at hm
    obtain ⟨t, ht, hm⟩ := Option.bind_eq_some_iff.mp hm
    have hrest : t.atRest = true := by
      cases hrest : t.atRest with
      | true => rfl
      | false =>
        rw [hrest] at hm
        obtain ⟨k, hk, hzero⟩ := Option.map_eq_some_iff.mp hm
        have := (lengthToRest_bounds hk).1
        omega
    obtain ⟨hf, hp, rfl, hcloser⟩ :=
      eq_of_read_atRest ht hrest (getLast?_follow (c := c) hu rfl)
    refine ⟨s, _, hs, hu, ⟨?_, hf, hp⟩, more, rfl, hcloser⟩
    rw [atRest_iff]
    refine ⟨?_, hp⟩
    have hlength := congrArg List.length hf
    have hpos := List.length_pos_of_ne_nil hne
    simp only [List.length_append, List.length_singleton] at hlength
    exact List.eq_nil_of_length_eq_zero (by omega)

/-- The closer brings a reader at the level of the bracket to rest. -/
theorem Level.lengthToRest (h : Level c s u) (hc : isCloser c = true) (more : Text) :
    u.lengthToRest (c :: more) = some 1 := by
  have hplain : ∀ b, isCloser b → b ≠ Byte.slash ∧ isQuote b = false ∧ b ≠ byte 'r' ∧
      closerOf? b = none := by
    decide +kernel
  obtain ⟨hslash, hquote, hraw, hopen⟩ := hplain c hc
  obtain ⟨frames, pending, afterName, region⟩ := u
  obtain ⟨-, hf, hp⟩ := h
  simp only at hf hp
  subst hf hp
  have hnone : opening? afterName c more = none := opening?_eq_none hslash hquote (absurd · hraw)
  simp [lengthToRest_cons, Reader.read, hnone, readBracketed, hopen, hc, leave, Reader.atRest]

/-! ## Layout in front of the closer -/

/-- Comments up to the end of a line stand in code. -/
def Stacked (s : Reader) : Prop := ∀ fs, .lineComment :: fs <:+ s.frames → IsCode fs

theorem stacked_inside (c : Byte) : (inside c).Stacked := by
  intro fs h
  have hmem := h.subset (List.mem_cons_self ..)
  simp [inside] at hmem

/-- A step leaves the line comments in code, since none opens within another frame. -/
theorem Stacked.read (hs : u.Stacked) (h : u.read b rest = some t) : t.Stacked := by
  intro fs hsuffix
  have hmove := read_move h
  have hcons {frame : Frame} (hne : frame ≠ .lineComment) {gs : List Frame}
      (h : .lineComment :: fs <:+ frame :: gs) : .lineComment :: fs <:+ gs := by
    rcases List.suffix_cons_iff.mp h with heq | h
    · exact absurd (List.cons.inj heq).1.symm hne
    · exact h
  obtain ⟨frames, pending, afterName, region⟩ := u
  obtain ⟨frames', pending', afterName', region'⟩ := t
  simp only at hmove hsuffix
  cases hmove with
  | pass => exact hs fs hsuffix
  | endLine => exact hs fs (hsuffix.trans (List.suffix_cons _ _))
  | inLine => exact hs fs hsuffix
  | nest => exact hs fs (hcons (by simp) hsuffix)
  | endBlock => exact hs fs (hsuffix.trans (List.suffix_cons _ _))
  | inBlock => exact hs fs hsuffix
  | escape => exact hs fs hsuffix
  | interpolate => exact hs fs (hcons (by simp) hsuffix)
  | close => exact hs fs (hsuffix.trans (List.suffix_cons _ _))
  | closeTriple => exact hs fs (hsuffix.trans (List.suffix_cons _ _))
  | inString => exact hs fs hsuffix
  | enter frame n gs hcode =>
    rcases List.suffix_cons_iff.mp hsuffix with heq | hsuffix
    · rwa [(List.cons.inj heq).2]
    · exact hs fs hsuffix
  | push => exact hs fs (hcons (by simp) hsuffix)
  | pop => exact hs fs (hsuffix.trans (List.suffix_cons _ _))
  | code => exact hs fs hsuffix

theorem Stacked.runUntil {stops : Reader → Bool} (hs : u.Stacked)
    (h : u.runUntil stops rest w = some t) : t.Stacked :=
  runUntil_keeps (P := fun u _ => u.Stacked) (fun hs hr _ => hs.read hr) hs h

/-- Both readers are in a comment up to the end of its line, at the level of the bracket. -/
structure InLine (c : Byte) (s u : Reader) : Prop where
  frames_eq : s.frames = [.lineComment]
  pending_eq : s.pending = 0
  region_eq : s.region = .comment
  frames : u.frames = [.lineComment, .bracket c]
  pending : u.pending = 0

/-- A reader that layout brings to the level of a bracket was there before, or in a line comment
right inside. A layout byte closes and opens nothing but the end of such a comment. -/
private theorem frames_of_layout (hs : u.Coherent (w ++ rest)) (hstacked : u.Stacked)
    (h : u.follow rest w = some t) (hw : ∀ b ∈ w, isLayout b = true)
    (hf : t.frames = [.bracket c]) (hp : t.pending = 0) :
    (u.frames = [.bracket c] ∨ u.frames = [.lineComment, .bracket c]) ∧ u.pending = 0 := by
  induction w generalizing u with
  | nil =>
    obtain rfl := Option.some.inj h
    exact ⟨Or.inl hf, hp⟩
  | cons b w ih =>
    obtain ⟨hb, hw⟩ := List.forall_mem_cons.mp hw
    obtain ⟨r, hr, -, h⟩ := exists_of_runUntil_cons h
    obtain ⟨hframes, hpending⟩ := ih (hs.read hr) (hstacked.read hr) h hw
    have hmove := read_move hr
    have hnot : ∀ b, isLayout b → isDelimiter b = false ∧ isQuote b = false ∧ b ≠ byte '*' ∧
        b ≠ Byte.slash ∧ b ≠ byte 'r' ∧ isCloser b = false ∧ b ≠ Byte.backslash ∧ b ≠ byte '$' ∧
        closerOf? b = none := by
      decide +kernel
    obtain ⟨hdelim, hquote, hstar, hslash, hraw, hclose, hback, hdollar, hopen⟩ := hnot b hb
    have hnone : opening? u.afterName b (w ++ rest) = none :=
      opening?_eq_none hslash hquote (absurd · hraw)
    obtain ⟨frames, pending, afterName, region⟩ := u
    simp only at hmove hnone ⊢
    rw [hpending] at hmove
    generalize hgs : r.frames = gs at hmove hframes
    cases hmove with
    | pass =>
      rcases hs.isDelimiter_of_mem with ⟨q, triple, fs, heq⟩ | hdelim'
      · simp only at heq
        simp [heq] at hframes
      · have := hdelim' b (by simp)
        simp [hdelim] at this
    | endLine =>
      have hcode := hstacked _ (List.suffix_refl _)
      rcases hframes with rfl | rfl
      · exact ⟨Or.inr rfl, rfl⟩
      · simp [IsCode] at hcode
    | inLine => exact ⟨hframes, rfl⟩
    | inBlock => simp at hframes
    | close =>
      have := hs.isQuote_of_mem (List.mem_cons_self ..)
      simp [hquote] at this
    | inString => simp at hframes
    | enter frame n fs hcode hopen' => simp [hnone] at hopen'
    | push inner closer fs _ hinner => simp [hopen] at hinner
    | pop fs _ hcloser => simp [hclose] at hcloser
    | code => exact ⟨hframes, rfl⟩

/-- In front of the layout before the closer, both readers stand at the level of the bracket or in a
comment up to the end of the line. -/
theorem level_or_inLine (h : Within s u) (hs : s.Coherent (w ++ rest)) (hu : u.Coherent (w ++ rest))
    (hstacked : u.Stacked) (hw : ∀ b ∈ w, isLayout b = true) (hfollow : u.follow rest w = some t)
    (hf : t.frames = [.bracket c]) (hp : t.pending = 0) : Level c s u ∨ InLine c s u := by
  obtain ⟨hframes, hpending⟩ := frames_of_layout hu hstacked hfollow hw hf hp
  obtain ⟨outer, region, hne, hbracket, rfl⟩ := h
  have hregion := hs.region_eq
  obtain ⟨frames, pending, afterName, region'⟩ := s
  cases frames with
  | nil =>
    rcases hframes with hframes | hframes
    · exact Or.inl ⟨by simpa [atRest] using hpending, hframes, hpending⟩
    · simp only [List.nil_append] at hframes
      have hline := hbracket .lineComment (by simp [hframes])
      simp at hline
  | cons frame fs =>
    obtain ⟨first, more, rfl⟩ := List.exists_cons_of_ne_nil hne
    rcases hframes with hframes | hframes
    · simp at hframes
    · obtain rfl : fs = [] := by
        have hlength := congrArg List.length hframes
        simp only [List.cons_append, List.length_cons, List.length_append, List.length_nil]
          at hlength
        exact List.eq_nil_of_length_eq_zero (by omega)
      have hline : frame = .lineComment := (List.cons.inj hframes).1
      subst hline
      exact Or.inr ⟨rfl, hpending, hregion _ rfl, hframes, hpending⟩

/-- A line break ends a comment up to the end of its line, and it is no code otherwise. -/
theorem exists_passes_lineBreak (h : Level c s u ∨ InLine c s u) {nl : Text}
    (hnl : Text.IsLineBreak nl) (rest : Text) :
    ∃ s' u', Passes rest nl s u s' u' [] ∧ Level c s' u' := by
  rcases h with hlevel | hline
  · refine hlevel.passes_layout rest ?_
    rcases hnl with rfl | rfl <;> exact List.all_eq_true.mp rfl
  · obtain ⟨frames, pending, afterName, region⟩ := s
    obtain ⟨frames', pending', afterName', region'⟩ := u
    obtain ⟨hf, hp, hr, hf', hp'⟩ := hline
    simp only at hf hp hr hf' hp'
    subst hf hp hr hf' hp'
    rcases hnl with rfl | rfl
    · exact ⟨_, _, ⟨rfl, rfl, rfl⟩, rfl, rfl, rfl⟩
    · exact ⟨_, _, ⟨rfl, rfl, rfl⟩, rfl, rfl, rfl⟩

end Reader

end FlutterScaffold.Dart
