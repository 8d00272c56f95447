import FlutterScaffold.Proofs.Dart.Matching
import FlutterScaffold.Proofs.Dart.Reading

/-!
# Reading a stretch at once

A stretch of text takes a reader from one state to another, unless it is refused. `Reader.run` goes
over a stretch wherever it leads; `Reader.follow` stays within a bracketed region and does not come
to rest. Both depend on what follows the stretch only where a delimiter goes over its end. A reader
of a bracketed region and one that was started in the middle of it see the same comments and
literals (`Reader.Within`), so the last byte of code lies before the closer.
-/

namespace FlutterScaffold.Dart

namespace Reader

/-- The reader behind a stretch that `rest` follows; none when the stretch is refused or when a step
in it leads to a reader that has to stop. -/
def runUntil (stops : Reader → Bool) (s : Reader) (rest : Text) : Text → Option Reader
  | [] => some s
  | b :: w => (s.read b (w ++ rest)).bind fun t => if stops t then none else t.runUntil stops rest w

/-- The reader behind a stretch. -/
abbrev run (s : Reader) (rest w : Text) : Option Reader := s.runUntil (fun _ => false) rest w

/-- The reader behind a stretch in which it never comes to rest. -/
abbrev follow (s : Reader) (rest w : Text) : Option Reader := s.runUntil atRest rest w

section RunUntil

variable {stops : Reader → Bool} {s t : Reader} {b : Byte} {rest u v w y z : Text}

@[simp] theorem runUntil_nil : s.runUntil stops rest [] = some s := rfl

/-- A reader goes through a text byte by byte and stops where it is to. -/
theorem runUntil_cons : s.runUntil stops rest (b :: w) =
    (s.read b (w ++ rest)).bind fun t => if stops t then none else t.runUntil stops rest w := rfl

/-- A reader goes through two texts one after the other. -/
theorem runUntil_append : s.runUntil stops rest (u ++ v) =
    (s.runUntil stops (v ++ rest) u).bind fun t => t.runUntil stops rest v := by
  induction u generalizing s with
  | nil => rfl
  | cons b u ih =>
    rw [List.cons_append, runUntil_cons, runUntil_cons, List.append_assoc]
    cases s.read b (u ++ (v ++ rest)) with
    | none => rfl
    | some t =>
      simp only [Option.bind_some]
      split
      · rfl
      · exact ih

/-- A byte that is read without a stop is followed by the rest of the run. -/
theorem runUntil_cons_of_read {r : Reader} (hr : s.read b (w ++ rest) = some r)
    (hstop : stops r = false) : s.runUntil stops rest (b :: w) = r.runUntil stops rest w := by
  rw [runUntil_cons, hr, Option.bind_some, hstop]
  rfl

/-- A run goes on where it got to without a stop. -/
theorem runUntil_append_of {r : Reader} (h : s.runUntil stops (v ++ rest) u = some r) :
    s.runUntil stops rest (u ++ v) = r.runUntil stops rest v := by
  rw [runUntil_append, h, Option.bind_some]

/-- The first step of a run over a stretch that is not empty. -/
theorem exists_of_runUntil_cons (h : s.runUntil stops rest (b :: w) = some t) :
    ∃ r, s.read b (w ++ rest) = some r ∧ stops r = false ∧ r.runUntil stops rest w = some t := by
  rw [runUntil_cons] at h
  obtain ⟨r, hr, h⟩ := Option.bind_eq_some_iff.mp h
  cases hstop : stops r with
  | true => simp [hstop] at h
  | false =>
    rw [hstop] at h
    exact ⟨r, hr, hstop, h⟩

/-- What every step keeps, a whole run keeps. -/
theorem runUntil_keeps {P : Reader → Text → Prop}
    (hread : ∀ {s t : Reader} {b : Byte} {v : Text}, P s (b :: v) → s.read b v = some t →
      stops t = false → P t v)
    (hs : P s (w ++ rest)) (h : s.runUntil stops rest w = some t) : P t rest := by
  induction w generalizing s with
  | nil =>
    obtain rfl := Option.some.inj h
    exact hs
  | cons b w ih =>
    obtain ⟨r, hr, hstop, h⟩ := exists_of_runUntil_cons h
    exact ih (hread hs hr hstop) h

/-- A run leads from a coherent reader to a coherent one. -/
theorem Coherent.runUntil (hs : s.Coherent (w ++ rest)) (h : s.runUntil stops rest w = some t) :
    t.Coherent rest :=
  runUntil_keeps (fun hs hr _ => hs.read hr) hs h

/-- A step passes at most one byte of a delimiter. -/
theorem pending_read (h : s.read b rest = some t) : s.pending ≤ t.pending + 1 := by
  obtain ⟨frames, pending, afterName, region⟩ := s
  cases pending with
  | zero => exact Nat.zero_le _
  | succ n =>
    obtain rfl := Option.some.inj h
    exact Nat.le_refl _

/-- A stretch passes no more bytes of a delimiter than it is long. -/
theorem pending_runUntil (h : s.runUntil stops rest w = some t) :
    s.pending ≤ t.pending + w.length := by
  induction w generalizing s with
  | nil =>
    obtain rfl := Option.some.inj h
    exact Nat.le_refl _
  | cons b w ih =>
    obtain ⟨r, hr, -, h⟩ := exists_of_runUntil_cons h
    have hstep := pending_read hr
    have hrest := ih h
    rw [List.length_cons]
    omega

/-- Where no delimiter goes over the end of a stretch, other text may follow it. -/
theorem runUntil_inert (hs : s.Coherent (w ++ y)) (h : s.runUntil stops y w = some t)
    (ht : t.pending = 0) (hz : Inert z) : s.runUntil stops z w = some t := by
  induction w generalizing s with
  | nil => exact h
  | cons b w ih =>
    obtain ⟨r, hr, hstop, h⟩ := exists_of_runUntil_cons h
    have hrest := ih (hs.read hr) h
    rcases read_inert hs hz with heq | ⟨r', hr', hlt⟩
    · rw [runUntil_cons, heq, hr, Option.bind_some, hstop]
      exact hrest
    · obtain rfl := Option.some.inj (hr.symm.trans hr')
      have hpending := pending_runUntil h
      omega

end RunUntil

/-! ## Coming to rest -/

section Rest

variable {s t : Reader} {b : Byte} {rest w y z : Text} {n : Nat}

/-- The distance to rest is counted byte by byte. -/
theorem lengthToRest_cons : s.lengthToRest (b :: rest) =
    (s.read b rest).bind fun t =>
      if t.atRest then some 1 else (t.lengthToRest rest).map (· + 1) := by
  rw [lengthToRest]
  cases s.read b rest <;> rfl

/-- A stretch in which a reader does not come to rest counts in full. -/
theorem lengthToRest_follow (h : s.follow rest w = some t) :
    s.lengthToRest (w ++ rest) = (t.lengthToRest rest).map (· + w.length) := by
  induction w generalizing s with
  | nil =>
    obtain rfl := Option.some.inj h
    simp
  | cons b w ih =>
    obtain ⟨r, hr, hrest, h⟩ := exists_of_runUntil_cons h
    rw [List.cons_append, lengthToRest_cons, hr, Option.bind_some, hrest, ih h]
    simp

/-- A reader that comes to rest behind a stretch follows the stretch. -/
theorem exists_follow (h : s.lengthToRest (w ++ rest) = some n) (hn : w.length < n) :
    ∃ t m, s.follow rest w = some t ∧ t.lengthToRest rest = some m ∧ n = m + w.length := by
  induction w generalizing s n with
  | nil => exact ⟨s, n, rfl, h, rfl⟩
  | cons b w ih =>
    rw [List.cons_append, lengthToRest_cons] at h
    obtain ⟨r, hr, h⟩ := Option.bind_eq_some_iff.mp h
    cases hrest : r.atRest with
    | true =>
      rw [hrest] at h
      obtain rfl := Option.some.inj h
      simp at hn
    | false =>
      rw [hrest] at h
      obtain ⟨m, hm, rfl⟩ := Option.map_eq_some_iff.mp h
      obtain ⟨t, k, ht, hk, rfl⟩ := ih hm (by simpa using hn)
      refine ⟨t, k, ?_, hk, by rw [List.length_cons, Nat.add_assoc]⟩
      rw [follow, runUntil_cons, hr, Option.bind_some, hrest]
      exact ht

/-- A reader is at rest when nothing is open and no delimiter is under way. -/
theorem atRest_iff : s.atRest = true ↔ s.frames = [] ∧ s.pending = 0 := by
  simp [atRest]

/-- A reader does not come to rest before the delimiter under way has been passed. -/
theorem pending_lengthToRest (h : s.lengthToRest w = some n) : s.pending ≤ n := by
  induction w generalizing s n with
  | nil => simp [lengthToRest] at h
  | cons b w ih =>
    rw [lengthToRest_cons] at h
    obtain ⟨r, hr, h⟩ := Option.bind_eq_some_iff.mp h
    have hstep := pending_read hr
    cases hrest : r.atRest with
    | true =>
      rw [hrest] at h
      obtain rfl := Option.some.inj h
      have := (atRest_iff.mp hrest).2
      omega
    | false =>
      rw [hrest] at h
      obtain ⟨m, hm, rfl⟩ := Option.map_eq_some_iff.mp h
      have := ih hm
      omega

/-- Where a reader comes to rest is told by the text up to there. What follows the stretch is seen
only by a step with bytes pending behind the stretch, and the count says that the reader is at rest
by then. -/
theorem lengthToRest_inert (hs : s.Coherent (w ++ y)) (h : s.lengthToRest (w ++ y) = some n)
    (hn : n ≤ w.length) (hz : Inert z) : s.lengthToRest (w ++ z) = some n := by
  induction w generalizing s n with
  | nil =>
    have hpos := (lengthToRest_bounds h).1
    simp only [List.length_nil] at hn
    omega
  | cons b w ih =>
    rw [List.cons_append, lengthToRest_cons] at h ⊢
    obtain ⟨r, hr, h⟩ := Option.bind_eq_some_iff.mp h
    have hpending : r.pending ≤ w.length := by
      cases hrest : r.atRest with
      | true =>
        rw [(atRest_iff.mp hrest).2]
        exact Nat.zero_le _
      | false =>
        rw [hrest] at h
        obtain ⟨m, hm, rfl⟩ := Option.map_eq_some_iff.mp h
        exact (pending_lengthToRest hm).trans (Nat.le_of_succ_le_succ hn)
    rcases read_inert hs hz with heq | ⟨r', hr', hlt⟩
    · rw [heq, hr, Option.bind_some]
      cases hrest : r.atRest with
      | true =>
        rw [hrest] at h
        exact h
      | false =>
        rw [hrest] at h
        obtain ⟨m, hm, rfl⟩ := Option.map_eq_some_iff.mp h
        rw [if_neg (by simp), ih (hs.read hr) hm (by simpa using hn)]
        rfl
    · obtain rfl := Option.some.inj (hr.symm.trans hr')
      omega

end Rest

/-! ## Started within a bracketed region -/

/-- Reader `s` was started within the brackets that reader `u` has open since before. -/
def Within (s u : Reader) : Prop :=
  ∃ outer region, outer ≠ [] ∧ (∀ frame ∈ outer, ∃ closer, frame = .bracket closer) ∧
    u = { s with frames := s.frames ++ outer, region := region }

section Within

variable {s t u : Reader} {b : Byte} {rest w : Text} {n : Nat}

/-- A step looks at the innermost construct only. -/
theorem read_append (frame : Frame) (fs outer : List Frame) (afterName : Bool)
    (region region' : Region) (b : Byte) (rest : Text) :
    ({ frames := frame :: fs ++ outer, afterName := afterName, region := region' } : Reader).read
      b rest =
    (({ frames := frame :: fs, afterName := afterName, region := region } : Reader).read b rest).map
      fun t => { t with frames := t.frames ++ outer, region := region' } := by
  cases frame with
  | lineComment =>
    simp only [Reader.read, List.cons_append, Option.map_some]
    split <;> rfl
  | blockComment =>
    simp only [Reader.read, List.cons_append, Option.map_some, readBlock]
    split_ifs <;> rfl
  | string q triple raw =>
    simp only [Reader.read, List.cons_append, readString]
    split_ifs <;> rfl
  | bracket closer =>
    simp only [Reader.read, List.cons_append]
    cases opening? afterName b rest with
    | some opened => rfl
    | none =>
      simp only [readBracketed]
      cases closerOf? b with
      | some inner => rfl
      | none =>
        simp only
        split_ifs <;> rfl

/-- A step over a byte within brackets is the same step for both readers, or it closes the last of
the outer brackets. The inner reader is in plain code, so what the outer one does depends on its
brackets. -/
theorem Within.read (h : Within s u) {u' : Reader} (hu : u.read b rest = some u') :
    (∃ s', s.read b rest = some s' ∧ Within s' u') ∨
      (s.atRest = true ∧ u'.atRest = true) := by
  obtain ⟨outer, region', hne, hbracket, rfl⟩ := h
  obtain ⟨frames, pending, afterName, region⟩ := s
  cases pending with
  | succ n =>
    obtain rfl := Option.some.inj hu
    exact Or.inl ⟨_, rfl, outer, region', hne, hbracket, rfl⟩
  | zero =>
    cases frames with
    | cons frame fs =>
      have heq := read_append frame fs outer afterName region region' b rest
      obtain ⟨s', hs', rfl⟩ := Option.map_eq_some_iff.mp (heq.symm.trans hu)
      exact Or.inl ⟨s', hs', outer, region', hne, hbracket, rfl⟩
    | nil =>
      obtain ⟨frame, more, rfl⟩ := List.exists_cons_of_ne_nil hne
      obtain ⟨closer, rfl⟩ := hbracket _ (List.mem_cons_self ..)
      have hmore : ∀ frame ∈ more, ∃ closer, frame = .bracket closer := fun frame hf =>
        hbracket frame (List.mem_cons_of_mem _ hf)
      simp only [Reader.read, List.nil_append] at hu ⊢
      cases ho : opening? afterName b rest with
      | some opened =>
        simp only [ho] at hu
        obtain rfl := Option.some.inj hu
        exact Or.inl ⟨_, rfl, .bracket closer :: more, region', hne, hbracket, rfl⟩
      | none =>
        simp only [ho] at hu
        rcases readBracketed_eq_some hu with ⟨inner, -, rfl⟩ | ⟨-, -, -, rfl⟩ | ⟨-, -, rfl⟩
        · exact Or.inl ⟨_, rfl, .bracket inner :: .bracket closer :: more, region', by simp,
            List.forall_mem_cons.mpr ⟨⟨inner, rfl⟩, hbracket⟩, rfl⟩
        · by_cases hnil : more = []
          · exact Or.inr ⟨rfl, by simp [leave, atRest, hnil]⟩
          · exact Or.inl ⟨_, rfl, more, region', hnil, hmore, rfl⟩
        · exact Or.inl ⟨_, rfl, .bracket closer :: more, region', hne, hbracket, rfl⟩

/-- A reader started within brackets goes along with the one that has them open since before. -/
theorem Within.follow (h : Within s u) {u' : Reader} (hu : u.follow rest w = some u') :
    ∃ s', s.run rest w = some s' ∧ Within s' u' := by
  induction w generalizing s u with
  | nil =>
    obtain rfl := Option.some.inj hu
    exact ⟨s, rfl, h⟩
  | cons b w ih =>
    obtain ⟨r, hr, hrest, hu⟩ := exists_of_runUntil_cons hu
    rcases h.read hr with ⟨s', hs', hin⟩ | ⟨-, hr'⟩
    · obtain ⟨t, ht, hin⟩ := ih hin hu
      refine ⟨t, ?_, hin⟩
      rw [run, runUntil_cons, hs']
      exact ht
    · rw [hrest] at hr'
      exact absurd hr' (by simp)

/-- A delimiter is no layout. -/
private theorem isLayout_of_isDelimiter : ∀ b, isDelimiter b → Byte.isLayout b = false := by
  decide +kernel

/-- A closer is no layout. -/
private theorem isLayout_of_isCloser : ∀ b, isCloser b → Byte.isLayout b = false := by
  decide +kernel

/-- A byte that counts as code is no layout. A byte inside a frame has the region of the frame, and
one outside is code. -/
theorem Coherent.isLayout_of_marks (hs : s.Coherent (b :: rest)) (h : s.read b rest = some t)
    (hm : t.marks b = true) : Byte.isLayout b = false := by
  simp only [marks, Bool.and_eq_true] at hm
  obtain ⟨hrest, hregion⟩ := hm
  obtain ⟨hf, hp⟩ := atRest_iff.mp hrest
  have hmove := read_move h
  rw [hf, hp] at hmove
  have houter (frame : Frame) (hframes : [frame] = s.frames) : t.region = frame.region := by
    rcases region_read h with ⟨-, heq⟩ | ⟨hnil, -⟩
    · rw [heq]
      exact hs.region_eq frame (by rw [← hframes]; rfl)
    · rw [← hframes] at hnil
      simp at hnil
  have hcode (hframes : [] = s.frames) (hpending : 0 = s.pending) : t.region = .code := by
    rcases region_read h with ⟨hnot, -⟩ | ⟨-, -, ⟨frame, hframe, -⟩ | ⟨-, heq, -⟩⟩
    · exact absurd ⟨hframes.symm, hpending.symm⟩ hnot
    · simp [hf] at hframe
    · exact heq
  have hspace (hr : t.region = .code) : Byte.isLayout b = false := by
    rw [hr] at hregion
    cases hb : Byte.isLayout b with
    | false => rfl
    | true => rw [Byte.isSpace_of_isLayout _ hb] at hregion; simp at hregion
  generalize hfs : s.frames = fs at hmove
  generalize hn : s.pending = n at hmove
  cases hmove with
  | pass =>
    rcases hs.isDelimiter_of_mem with ⟨q, triple, more, hstring⟩ | hd
    · simp [hfs] at hstring
    · exact isLayout_of_isDelimiter _ (hd b (by simp [hn]))
  | endLine fs hb =>
    rw [houter _ hfs.symm] at hregion
    simp [Frame.region] at hregion
  | close raw =>
    have hq := hs.isQuote_of_mem (hfs ▸ List.mem_singleton_self _)
    exact isLayout_of_isDelimiter _ (by simp [isDelimiter, hq])
  | pop fs hopen hcloser => exact isLayout_of_isCloser _ hcloser
  | code => exact hspace (hcode hfs.symm hn.symm)

/-- The last byte of code lies within the region, and it is no layout. The byte just read is the
last one seen so far if it counts, and then it is no layout. -/
theorem Within.lastCode_bounds (h : Within s u) (hs : s.Coherent w) {pos m p : Nat}
    {seen : Option Nat} (hu : u.lengthToRest w = some (m + 1))
    (hp : s.lastCode pos (pos + m) seen w = some p) :
    seen = some p ∨ (p < pos + m ∧ ∃ b, w[p - pos]? = some b ∧ Byte.isLayout b = false) := by
  induction w generalizing s u pos m seen with
  | nil => exact Or.inl hp
  | cons b w ih =>
    rw [lastCode_cons] at hp
    split at hp
    · exact Or.inl hp
    · rename_i hstop
      rw [lengthToRest_cons] at hu
      obtain ⟨u', hu', hu⟩ := Option.bind_eq_some_iff.mp hu
      rcases h.read hu' with ⟨s', hs', hin⟩ | ⟨hrest, hrest'⟩
      · rw [hs'] at hp
        simp only at hp
        have hnot : u'.atRest = false := by
          obtain ⟨outer, region, hne, -, rfl⟩ := hin
          simp [atRest, hne]
        rw [hnot] at hu
        obtain ⟨k, hk, hm⟩ := Option.map_eq_some_iff.mp hu
        obtain rfl : k = m := Nat.add_right_cancel hm
        obtain ⟨k', rfl⟩ : ∃ k', k = k' + 1 := Nat.exists_eq_succ_of_ne_zero
          (Nat.pos_iff_ne_zero.mp (lengthToRest_bounds hk).1)
        rw [show pos + (k' + 1) = pos + 1 + k' by omega] at hp ⊢
        have hseen (h : (if s'.marks b then some pos else seen) = some p) : seen = some p ∨
            (p < pos + 1 + k' ∧ ∃ c, (b :: w)[p - pos]? = some c ∧ Byte.isLayout c = false) := by
          split at h
          · rename_i hmarks
            obtain rfl := Option.some.inj h
            refine Or.inr ⟨by omega, b, ?_, hs.isLayout_of_marks hs' hmarks⟩
            rw [Nat.sub_self, List.getElem?_cons_zero]
          · exact Or.inl h
        rcases Reader.lastCode_bounds hp with h | ⟨hlo, -⟩
        · exact hseen h
        · rcases ih hin (hs.read hs') hk hp with h | ⟨hlt, c, hc, hlayout⟩
          · exact hseen h
          · refine Or.inr ⟨hlt, c, ?_, hlayout⟩
            rw [show p - pos = p - (pos + 1) + 1 by omega, List.getElem?_cons_succ, hc]
      · rw [hrest'] at hu
        obtain rfl : m = 0 := by simpa using hu.symm
        simp [hrest] at hstop

end Within

end Reader

/-! ## Bracketed regions of a text -/

/-- A match is found by reading on behind the opener, as within its bracket. -/
theorem exists_of_matchingBracket {t : Text} {opener closer : Nat}
    (h : matchingBracket t opener = some closer) :
    ∃ b c n rest, t.drop opener = b :: rest ∧ closerOf? b = some c ∧
      (Reader.inside c).lengthToRest rest = some n ∧ closer = opener + n := by
  unfold matchingBracket at h
  split at h
  · simp at h
  · rename_i b rest hd
    obtain ⟨c, hc, h⟩ := Option.bind_eq_some_iff.mp h
    obtain ⟨n, hn, rfl⟩ := Option.map_eq_some_iff.mp h
    exact ⟨b, c, n, rest, hd, hc, hn, rfl⟩

/-- An opening bracket is part of no word. -/
theorem not_isIdentifier_of_closerOf? {b c : Byte} (h : closerOf? b = some c) :
    Byte.isIdentifier b = false := by
  unfold closerOf? at h
  split_ifs at h with h₁ h₂ h₃ <;> subst b <;> rfl

/-- The reader inside of a bracket is the one at the start, started within the bracket. -/
theorem within_inside (closer : Byte) : Reader.Within {} (Reader.inside closer) :=
  ⟨[.bracket closer], .code, by simp, by simp, rfl⟩

/-- One byte further on the rest stands. -/
private theorem drop_succ_of_drop {t rest : Text} {b : Byte} {n : Nat}
    (h : t.drop n = b :: rest) : t.drop (n + 1) = rest := by
  rw [← List.drop_drop, h, List.drop_succ_cons, List.drop_zero]

/-- Behind a bracket the last byte of code is looked for by a reader without anything open. -/
theorem lastCode?_eq_of_drop {t rest : Text} {b c : Byte} {opener limit : Nat}
    (hd : t.drop opener = b :: rest) (hb : closerOf? b = some c) :
    lastCode? t (opener + 1) limit = ({} : Reader).lastCode (opener + 1) limit none rest := by
  have hget : t[opener]? = some b := by
    rw [← Nat.add_zero opener, ← List.getElem?_drop, hd, List.getElem?_cons_zero]
  rw [lastCode?, if_neg (Nat.succ_ne_zero opener), Nat.add_sub_cancel, hget, drop_succ_of_drop hd]
  simp only [Option.any_some, not_isIdentifier_of_closerOf? hb]

/-- The last byte of code between two brackets stands before the closer and is no layout. -/
theorem lastCode?_lt_of_matchingBracket {t : Text} {opener closer p : Nat}
    (h : matchingBracket t opener = some closer) (hp : lastCode? t (opener + 1) closer = some p) :
    p < closer ∧ ∃ b, t[p]? = some b ∧ Byte.isLayout b = false := by
  obtain ⟨b, c, n, rest, hd, hb, hn, rfl⟩ := exists_of_matchingBracket h
  obtain ⟨m, rfl⟩ : ∃ m, n = m + 1 :=
    Nat.exists_eq_succ_of_ne_zero (Nat.pos_iff_ne_zero.mp (Reader.lengthToRest_bounds hn).1)
  have hlo := (lastCode?_bounds hp).1
  rw [lastCode?_eq_of_drop hd hb, show opener + (m + 1) = opener + 1 + m by omega] at hp
  rcases (within_inside c).lastCode_bounds (Reader.coherent_of_frames_eq_nil rfl rfl) hn hp with
    hnone | ⟨hlt, a, ha, hlayout⟩
  · simp at hnone
  · refine ⟨by omega, a, ?_, hlayout⟩
    rw [← ha, ← drop_succ_of_drop hd, List.getElem?_drop, Nat.add_sub_cancel' hlo]

/-- A bracket is matched by what stands in front of its closer, whatever harmless text follows. -/
theorem matchingBracket_append_inert {a y z : Text} {opener closer : Nat}
    (h : matchingBracket (a ++ y) opener = some closer) (hc : closer < a.length) (hz : Inert z) :
    matchingBracket (a ++ z) opener = some closer := by
  obtain ⟨b, c, n, rest, hd, hb, hn, rfl⟩ := exists_of_matchingBracket h
  obtain ⟨w, hw⟩ : ∃ w, a.drop opener = b :: w := by
    obtain ⟨x, w, hx⟩ := List.exists_cons_of_length_pos
      (show 0 < (a.drop opener).length by rw [List.length_drop]; omega)
    rw [List.drop_append_of_le_length (by omega), hx] at hd
    exact ⟨w, hx.trans (by rw [(List.cons.inj hd).1])⟩
  have hlen := congrArg List.length hw
  rw [List.length_drop, List.length_cons] at hlen
  rw [List.drop_append_of_le_length (by omega), hw] at hd
  obtain rfl : w ++ y = rest := (List.cons.inj hd).2
  have hmoved := Reader.lengthToRest_inert (Reader.coherent_inside c _) hn (by omega) hz
  simp only [matchingBracket, List.drop_append_of_le_length (show opener ≤ a.length by omega), hw,
    List.cons_append, hb, Option.bind_some, hmoved, Option.map_some]

end FlutterScaffold.Dart
