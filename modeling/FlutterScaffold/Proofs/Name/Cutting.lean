import FlutterScaffold.Proofs.Name.Alphabet

/-!
# Where a name is cut

The reader of a name carries the segment under way along, drops it at each cut and looks one byte
ahead. What it finds can be told without any of this: a name consists of runs of letters and digits,
and whether a run is cut before a byte depends on that byte and its two neighbours alone
(`segmentsOf_eq_pieces`).
-/

namespace FlutterScaffold.Name

open Byte (isAlnum isDigit isLower isUpper toLower)

/-- The runs of letters and digits of a text, each as long as it can be. -/
def runs (text : Text) : List Text := (text.splitOnP (!isAlnum ·)).filter (!·.isEmpty)

/-- Whether a run is cut before a position: a capital stands there, and before it stands a small
letter or a digit, or another capital while a small letter follows. -/
def isCut (run : Text) (i : Nat) : Bool :=
  0 < i && run[i]?.any isUpper &&
    (run[i - 1]?.any isLower || run[i - 1]?.any isDigit ||
      (run[i - 1]?.any isUpper && run[i + 1]?.any isLower))

/-- The positions before which a run is cut, in order. -/
def cuts (run : Text) : List Nat := (List.range run.length).filter (isCut run)

/-- The stretches of a run between its cuts. -/
def pieces (run : Text) : List Text :=
  List.zipWith (fun start stop => run.extract start stop) (0 :: cuts run) (cuts run ++ [run.length])

/-! ## A run from its second byte on -/

section Run

variable (a b : Byte) (rest : Text)

theorem isCut_one : isCut (a :: b :: rest) 1 = startsSegment a b rest.head? := by
  simp [isCut, startsSegment, List.head?_eq_getElem?]

theorem isCut_cons (run : Text) (i : Nat) : isCut (a :: run) (i + 2) = isCut run (i + 1) := by
  simp [isCut]

/-- The cuts of a run are those of its tail, and perhaps one right behind its first byte. -/
theorem cuts_cons_cons : cuts (a :: b :: rest) =
    (if startsSegment a b rest.head? then [1] else []) ++ (cuts (b :: rest)).map (· + 1) := by
  have hfirst (run : Text) : isCut run 0 = false := rfl
  have hlater : isCut (a :: b :: rest) ∘ Nat.succ ∘ Nat.succ = isCut (b :: rest) ∘ Nat.succ :=
    funext fun i => isCut_cons a (b :: rest) i
  have htail : cuts (b :: rest) =
      ((List.range rest.length).filter (isCut (b :: rest) ∘ Nat.succ)).map Nat.succ := by
    rw [cuts, List.length_cons, List.range_succ_eq_map, List.filter_cons_of_neg (by simp [hfirst]),
      List.filter_map]
  rw [cuts, List.length_cons, List.range_succ_eq_map, List.filter_cons_of_neg (by simp [hfirst]),
    List.length_cons, List.range_succ_eq_map, List.map_cons, List.map_map, List.filter_cons,
    List.filter_map, hlater, htail, List.map_map, isCut_one]
  split <;> rfl

/-- Stretches that start behind the first byte are stretches of the tail. -/
theorem zipWith_extract_cons (run : Text) (starts stops : List Nat) :
    List.zipWith (fun start stop => (a :: run).extract start stop) (starts.map (· + 1))
        (stops.map (· + 1)) =
      List.zipWith (fun start stop => run.extract start stop) starts stops := by
  simp [List.zipWith_map]

variable {a b rest}

theorem pieces_of_startsSegment (h : startsSegment a b rest.head?) :
    pieces (a :: b :: rest) = [a] :: pieces (b :: rest) := by
  have hshift := zipWith_extract_cons a (b :: rest) (0 :: cuts (b :: rest))
    (cuts (b :: rest) ++ [(b :: rest).length])
  rw [List.map_cons, List.map_append] at hshift
  rw [pieces, cuts_cons_cons, if_pos h, pieces, ← hshift]
  rfl

theorem pieces_of_not_startsSegment (h : startsSegment a b rest.head? = false) :
    pieces (a :: b :: rest) = (pieces (b :: rest)).modifyHead (a :: ·) := by
  obtain ⟨stop, stops, hstops⟩ :=
    List.exists_cons_of_ne_nil (show cuts (b :: rest) ++ [(b :: rest).length] ≠ [] by simp)
  have hshifted : (cuts (b :: rest)).map (· + 1) ++ [(a :: b :: rest).length] =
      (stop + 1) :: stops.map (· + 1) := by
    have hmap := congrArg (List.map (· + 1)) hstops
    rwa [List.map_append] at hmap
  have htail := zipWith_extract_cons a (b :: rest) (cuts (b :: rest)) stops
  rw [pieces, cuts_cons_cons, if_neg (by simp [h]), List.nil_append, pieces, hshifted, hstops,
    List.zipWith_cons_cons, List.zipWith_cons_cons, List.modifyHead_cons, htail]
  simp

end Run

/-! ## The reader against the rule -/

/-- The segments of a run. -/
def runSegments (run : Text) : List Text := (pieces run).map (·.map toLower)

/-- A small letter behind a byte of a run is in that run. -/
theorem startsSegment_head?_eq {text run : Text} {others : List Text}
    (h : text.splitOnP (!isAlnum ·) = run :: others) (before b : Byte) :
    startsSegment before b text.head? = startsSegment before b run.head? := by
  have hany : text.head?.any isLower = run.head?.any isLower := by
    cases text with
    | nil =>
      obtain ⟨rfl, -⟩ := List.cons.inj (List.splitOnP_nil.symm.trans h)
      rfl
    | cons c text =>
      rw [List.splitOnP_cons_eq_if_modifyHead] at h
      by_cases hc : isAlnum c
      · obtain ⟨first, more, hfirst⟩ :=
          List.exists_cons_of_ne_nil (List.splitOnP_ne_nil (!isAlnum ·) text)
        rw [if_neg (by simp [hc]), hfirst, List.modifyHead_cons] at h
        obtain ⟨rfl, -⟩ := List.cons.inj h
        rfl
      · rw [if_pos (by simp [hc])] at h
        obtain ⟨rfl, -⟩ := List.cons.inj h
        have hlower : isLower c = false := by
          simp only [isAlnum, Bool.or_eq_true, not_or, Bool.not_eq_true] at hc
          exact hc.1.2
        simp [hlower]
  rw [startsSegment, startsSegment, hany]

/-- What the reader finds before a run, and in it behind the first bytes of a segment: these are the
beginning of the next piece. -/
theorem segmentsFrom_eq {text run : Text} {others : List Text}
    (h : text.splitOnP (!isAlnum ·) = run :: others) :
    segmentsFrom [] text = ((run :: others).filter (!·.isEmpty)).flatMap runSegments ∧
      ∀ last before, segmentsFrom (last :: before) text =
        ((pieces (last :: run)).modifyHead (before.reverse ++ ·)).map (·.map toLower) ++
          (others.filter (!·.isEmpty)).flatMap runSegments := by
  have hclose (last : Byte) (before : Text) :
      closeSegment (last :: before) =
        ((pieces [last]).modifyHead (before.reverse ++ ·)).map (·.map toLower) := by
    simp [pieces, cuts, isCut, closeSegment]
  have hstart (found : List Text) : found.modifyHead (([] : Text).reverse ++ ·) = found := by
    cases found <;> rfl
  induction text generalizing run others with
  | nil =>
    obtain ⟨rfl, rfl⟩ := List.cons.inj (List.splitOnP_nil.symm.trans h)
    refine ⟨rfl, fun last before => ?_⟩
    rw [segmentsFrom, hclose]
    simp
  | cons b rest ih =>
    obtain ⟨first, more, hrest⟩ :=
      List.exists_cons_of_ne_nil (List.splitOnP_ne_nil (!isAlnum ·) rest)
    obtain ⟨hbare, hunder⟩ := ih hrest
    rw [List.splitOnP_cons_eq_if_modifyHead, hrest] at h
    by_cases hb : isAlnum b
    · rw [if_neg (by simp [hb]), List.modifyHead_cons] at h
      obtain ⟨rfl, rfl⟩ := List.cons.inj h
      constructor
      · rw [segmentsFrom, if_neg (by simp [hb]), if_neg (by simp), hunder, hstart]
        rfl
      · intro last before
        rw [segmentsFrom, if_neg (by simp [hb]), List.head?_cons, Option.any_some,
          startsSegment_head?_eq hrest]
        cases hcut : startsSegment last b first.head? with
        | true =>
          rw [if_pos rfl, hunder, hstart, pieces_of_startsSegment hcut]
          simp [closeSegment]
        | false =>
          rw [if_neg (by simp), hunder, pieces_of_not_startsSegment hcut,
            List.modifyHead_modifyHead]
          simp [Function.comp_def]
    · rw [if_pos (by simp [hb])] at h
      obtain ⟨rfl, rfl⟩ := List.cons.inj h
      constructor
      · rw [segmentsFrom, if_pos (by simp [hb]), hbare]
        rfl
      · intro last before
        rw [segmentsFrom, if_pos (by simp [hb]), hbare, hclose]

/-- The reader keeps all letters and digits, in small. -/
theorem flatten_segmentsFrom (current text : Text) :
    (segmentsFrom current text).flatten =
      (current.reverse ++ text.filter isAlnum).map toLower := by
  have hclose (current : Text) : (closeSegment current).flatten = current.reverse.map toLower := by
    cases current <;> simp [closeSegment]
  induction text generalizing current with
  | nil => simp [segmentsFrom, hclose]
  | cons b rest ih =>
    rw [segmentsFrom]
    by_cases hb : isAlnum b
    · rw [if_neg (by simp [hb]), List.filter_cons_of_pos hb]
      split
      · rw [List.flatten_append, hclose, ih]
        simp
      · rw [ih]
        simp
    · rw [if_pos (by simp [hb]), List.filter_cons_of_neg hb, List.flatten_append, hclose, ih]
      simp

/-- The segments of a text are its runs of letters and digits, cut by the rule on neighbours and
written small. So they hold all letters and digits of the text in their order, none of them is
empty, and no other bytes are in them. -/
theorem segmentsOf_eq_pieces (text : Text) :
    segmentsOf text = (runs text).flatMap (fun run => (pieces run).map (·.map toLower)) ∧
      (segmentsOf text).flatten = (text.filter isAlnum).map toLower ∧
      ∀ s ∈ segmentsOf text, s ≠ [] ∧ ∀ b ∈ s, isLower b ∨ isDigit b := by
  refine ⟨?_, ?_, ?_⟩
  · obtain ⟨run, others, hsplit⟩ :=
      List.exists_cons_of_ne_nil (List.splitOnP_ne_nil (!isAlnum ·) text)
    rw [segmentsOf, (segmentsFrom_eq hsplit).1, runs, hsplit]
    rfl
  · rw [segmentsOf, flatten_segmentsFrom]
    rfl
  · intro s hs
    refine ⟨ne_nil_of_mem_segmentsOf hs, fun b hb => ?_⟩
    have hbyte := isSegmentByte_of_mem_segmentsOf hs b hb
    simpa [isSegmentByte] using hbyte

/-- Capitals in a row, digits and bytes outside ASCII. -/
example : runs (lit "HTTPServer2Go-éA1b") = [lit "HTTPServer2Go", lit "A1b"] ∧
    cuts (lit "HTTPServer2Go") = [4, 11] ∧
    pieces (lit "HTTPServer2Go") = [lit "HTTP", lit "Server2", lit "Go"] := by decide

end FlutterScaffold.Name
