import FlutterScaffold.Proofs.Dart.Stretch

/-!
# The bytes of a stretch and their regions

The trace of a stretch holds each byte with the reader behind it, so it tells code, comments and
literals apart. A byte is significant when it belongs to a literal, or to code and is no blank.
Where a stretch begins and ends in plain code, the last byte that counts as code is its last
significant byte (`exists_of_lastMark`), as a literal that was opened has been closed again.
-/

namespace FlutterScaffold.Dart

namespace Reader

/-- The bytes of a stretch that `rest` follows, each with the reader behind it, up to a byte that is
refused. -/
def trace (s : Reader) (rest : Text) : Text → List (Byte × Reader)
  | [] => []
  | b :: w =>
    match s.read b (w ++ rest) with
    | none => []
    | some t => (b, t) :: t.trace rest w

/-- Whether byte `b` belongs to a literal, or to code and is no blank, when the reader behind it is
`s`. -/
def isSignificant (s : Reader) (b : Byte) : Bool :=
  match s.region with
  | .code => !Byte.isSpace b
  | .comment => false
  | .string => true

/-- A reader that has something open, or a delimiter under way, is not in the region of code. -/
def Settled (s : Reader) : Prop := s.atRest = false → s.region ≠ .code

section Trace

variable {s t : Reader} {b : Byte} {rest u v w y z : Text}

theorem trace_cons_of_read (h : s.read b (w ++ rest) = some t) :
    s.trace rest (b :: w) = (b, t) :: t.trace rest w := by
  rw [trace, h]

/-- A stretch is traced piece by piece. -/
theorem trace_append (h : s.run (v ++ rest) u = some t) :
    s.trace rest (u ++ v) = s.trace (v ++ rest) u ++ t.trace rest v := by
  induction u generalizing s with
  | nil =>
    obtain rfl := Option.some.inj h
    rfl
  | cons b u ih =>
    obtain ⟨r, hr, -, h⟩ := exists_of_runUntil_cons h
    rw [List.cons_append, trace_cons_of_read hr, trace_cons_of_read (by simpa using hr), ih h,
      List.cons_append]

/-- Where no delimiter goes over the end of a stretch, its trace does not tell what follows. -/
theorem trace_inert (hs : s.Coherent (w ++ y)) (h : s.run y w = some t) (ht : t.pending = 0)
    (hz : Inert z) : s.trace z w = s.trace y w := by
  induction w generalizing s with
  | nil => rfl
  | cons b w ih =>
    obtain ⟨r, hr, -, h⟩ := exists_of_runUntil_cons h
    have hrest := ih (hs.read hr) h
    rcases read_inert hs hz with heq | ⟨r', hr', hlt⟩
    · rw [trace_cons_of_read hr, trace_cons_of_read (heq.trans hr), hrest]
    · obtain rfl := Option.some.inj (hr.symm.trans hr')
      have hpending := pending_runUntil h
      omega

theorem marks_eq (s : Reader) (b : Byte) : s.marks b = (s.atRest && s.isSignificant b) := rfl

/-- A reader without anything open that just came from code is settled. -/
theorem settled_of_atRest (h : s.atRest = true) : s.Settled := fun hnot => by simp [h] at hnot

/-- A step from a settled reader leads to a settled one. -/
theorem Settled.read (hs : s.Settled) (h : s.read b rest = some t) : t.Settled := by
  intro hnot
  rcases region_read h with ⟨hcode, heq⟩ | ⟨hf, hp, ⟨frame, hframe, heq⟩ | ⟨hf', -, hp'⟩⟩
  · rw [heq]
    exact hs (by simpa [atRest] using hcode)
  · have hmove := read_move h
    rw [hf, hp, hframe] at hmove
    generalize hn : t.pending = n at hmove
    cases hmove with
    | enter _ _ _ _ hopen =>
      rw [heq]
      rcases (opening?_spec hopen).1 with rfl | rfl | ⟨_, _, _, rfl, -⟩ <;> simp [Frame.region]
  · simp [atRest, hf', hp'] at hnot

theorem Settled.run (hs : s.Settled) (h : s.run rest w = some t) : t.Settled :=
  runUntil_keeps (P := fun s _ => s.Settled) (fun hs hr _ => hs.read hr) hs h

/-- A step from something that is open keeps the region. -/
theorem region_read_of_not_atRest (hs : s.atRest = false) (h : s.read b rest = some t) :
    t.region = s.region := by
  rcases region_read h with ⟨-, heq⟩ | ⟨hf, hp, -⟩
  · exact heq
  · simp [atRest, hf, hp] at hs

/-- Between a literal that is open and plain code there is a byte that counts as code. -/
private theorem exists_marks_of_string (hs : s.atRest = false) (hregion : s.region = .string)
    (h : s.run rest w = some t) (ht : t.atRest = true) :
    ∃ x ∈ s.trace rest w, x.2.marks x.1 = true := by
  induction w generalizing s with
  | nil =>
    obtain rfl := Option.some.inj h
    simp [ht] at hs
  | cons b w ih =>
    obtain ⟨r, hr, -, h⟩ := exists_of_runUntil_cons h
    have heq := (region_read_of_not_atRest hs hr).trans hregion
    rw [trace_cons_of_read hr]
    cases hrest : r.atRest with
    | true => exact ⟨(b, r), by simp, by simp [marks_eq, hrest, isSignificant, heq]⟩
    | false =>
      obtain ⟨x, hx, hm⟩ := ih hrest heq h
      exact ⟨x, List.mem_cons_of_mem _ hx, hm⟩

/-- A stretch up to plain code in which nothing counts as code has no significant byte. -/
theorem not_isSignificant_of_not_marks (hs : s.Settled)
    (hregion : s.atRest = true ∨ s.region ≠ .string) (h : s.run rest w = some t)
    (ht : t.atRest = true) (hm : ∀ x ∈ s.trace rest w, x.2.marks x.1 = false) :
    ∀ x ∈ s.trace rest w, x.2.isSignificant x.1 = false := by
  induction w generalizing s with
  | nil => simp [trace]
  | cons b w ih =>
    obtain ⟨r, hr, -, h⟩ := exists_of_runUntil_cons h
    rw [trace_cons_of_read hr, List.forall_mem_cons] at hm ⊢
    obtain ⟨hb, hm⟩ := hm
    cases hrest : r.atRest with
    | true =>
      rw [marks_eq, hrest, Bool.true_and] at hb
      exact ⟨hb, ih (hs.read hr) (Or.inl hrest) h hm⟩
    | false =>
      have hstring : r.region ≠ .string := fun hstring => by
        obtain ⟨x, hx, hmarks⟩ := exists_marks_of_string hrest hstring h ht
        rw [hm x hx] at hmarks
        exact absurd hmarks (by simp)
      have hcode := hs.read hr hrest
      refine ⟨?_, ih (hs.read hr) (Or.inr hstring) h hm⟩
      cases hcases : r.region with
      | code => exact absurd hcases hcode
      | comment => simp [isSignificant, hcases]
      | string => exact absurd hcases hstring

/-! ## The last byte that counts as code -/

/-- Position of the last byte of a stretch that counts as code, when the stretch starts at `pos`. -/
def lastMark (s : Reader) (pos : Nat) (seen : Option Nat) (rest : Text) : Text → Option Nat
  | [] => seen
  | b :: w =>
    match s.read b (w ++ rest) with
    | none => seen
    | some t => t.lastMark (pos + 1) (if t.marks b then some pos else seen) rest w

/-- The last byte that counts as code is looked for byte by byte. -/
theorem lastMark_cons_of_read {pos : Nat} {seen : Option Nat} (h : s.read b (w ++ rest) = some t) :
    s.lastMark pos seen rest (b :: w) =
      t.lastMark (pos + 1) (if t.marks b then some pos else seen) rest w := by
  rw [lastMark, h]

/-- The last byte of code before a limit is the last one of the stretch up to there. -/
theorem lastCode_eq_lastMark (h : s.run rest w = some t) (ht : t.atRest = true) (pos : Nat)
    (seen : Option Nat) :
    s.lastCode pos (pos + w.length) seen (w ++ rest) = s.lastMark pos seen rest w := by
  induction w generalizing s pos seen with
  | nil =>
    obtain rfl := Option.some.inj h
    cases rest with
    | nil => rfl
    | cons c rest => simp [lastCode_cons, ht, lastMark]
  | cons b w ih =>
    obtain ⟨r, hr, -, h⟩ := exists_of_runUntil_cons h
    have hgo : ¬ (s.atRest && decide (pos + (b :: w).length ≤ pos)) = true := by
      simp only [List.length_cons, Bool.and_eq_true, decide_eq_true_eq]
      omega
    rw [List.cons_append, lastCode_cons, if_neg hgo, hr, lastMark_cons_of_read hr, ← ih h,
      List.length_cons, Nat.add_right_comm, Nat.add_assoc pos w.length]

/-- Behind the last byte that counts as code none does. -/
theorem exists_of_lastMark (h : s.run rest w = some t) (pos : Nat) (seen : Option Nat) :
    (s.lastMark pos seen rest w = seen ∧ ∀ x ∈ s.trace rest w, x.2.marks x.1 = false) ∨
      ∃ v b y r r', w = v ++ b :: y ∧ s.run (b :: y ++ rest) v = some r ∧
        r.read b (y ++ rest) = some r' ∧ r'.marks b = true ∧
        (∀ x ∈ r'.trace rest y, x.2.marks x.1 = false) ∧
        s.lastMark pos seen rest w = some (pos + v.length) := by
  induction w generalizing s pos seen with
  | nil => exact Or.inl ⟨rfl, by simp [trace]⟩
  | cons b w ih =>
    obtain ⟨r, hr, -, h⟩ := exists_of_runUntil_cons h
    rw [lastMark_cons_of_read hr, trace_cons_of_read hr]
    rcases ih h (pos + 1) (if r.marks b then some pos else seen) with
      ⟨heq, hm⟩ | ⟨v, c, y, q, q', rfl, hq, hq', hmarks, hm, heq⟩
    · cases hb : r.marks b with
      | true =>
        refine Or.inr ⟨[], b, w, s, r, rfl, rfl, hr, hb, hm, ?_⟩
        simpa [hb] using heq
      | false =>
        refine Or.inl ⟨by simpa [hb] using heq, ?_⟩
        exact List.forall_mem_cons.mpr ⟨hb, hm⟩
    · refine Or.inr ⟨b :: v, c, y, q, q', rfl, ?_, hq', hmarks, hm, ?_⟩
      · exact (runUntil_cons_of_read (by simpa using hr) rfl).trans hq
      · rw [heq, List.length_cons]
        congr 1
        omega

end Trace

end Reader

end FlutterScaffold.Dart
