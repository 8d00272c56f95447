import FlutterScaffold.Proofs.Dart.Trace

/-!
# Elements of a list literal

The elements between two brackets are told by the significant bytes alone: they are cut at the
commas of code that no further bracket encloses, and one empty element behind the last comma does
not count. Text that is put behind the last element, with a comma between them and one behind it,
is one more element (`elementsOf_append`). How many brackets enclose a byte is told by the readers
inside and outside of the outermost one (`Reader.Within.depth_follow`).
-/

namespace FlutterScaffold.Dart

/-- The significant bytes of a stretch, each with its region. -/
def Reader.significant (s : Reader) (rest w : Text) : List (Byte × Region) :=
  ((s.trace rest w).filter fun x => x.2.isSignificant x.1).map fun x => (x.1, x.2.region)

/-- How many brackets are open behind a byte, when `depth` are open before it. -/
def nesting (depth : Nat) (x : Byte × Region) : Nat :=
  if x.2 = .code then
    if (closerOf? x.1).isSome then depth + 1
    else if isCloser x.1 then depth - 1
    else depth
  else depth

/-- The comma that separates elements. -/
abbrev comma : Byte × Region := (byte ',', .code)

/-- A text put in front of the first of several pieces. -/
def push (w : Text) : List Text → List Text
  | [] => [w]
  | piece :: more => (w ++ piece) :: more

/-- The pieces between the commas that no bracket encloses. -/
def splitElements (depth : Nat) : List (Byte × Region) → List Text
  | [] => [[]]
  | x :: more =>
    if depth = 0 ∧ x = comma then [] :: splitElements 0 more
    else push [x.1] (splitElements (nesting depth x) more)

/-- The elements that significant bytes spell; an empty one behind the last comma does not count. -/
def elementsOf (l : List (Byte × Region)) : List Text :=
  let pieces := splitElements 0 l
  if pieces.getLast? = some [] then pieces.dropLast else pieces

/-- The elements of the list literal whose contents stand from `start` up to `closer`. -/
def elements (text : Text) (start closer : Nat) : List Text :=
  elementsOf (({} : Reader).significant (text.drop closer) ((text.take closer).drop start))

@[simp] theorem nesting_comma (d : Nat) : nesting d comma = d := rfl

/-! ## Cutting at commas -/

section Split

variable {d : Nat} {l m : List (Byte × Region)} {x : Byte × Region}

theorem push_ne_nil (w : Text) (pieces : List Text) : push w pieces ≠ [] := by
  cases pieces <;> simp [push]

/-- A text put in front of the first piece leaves what follows the pieces as it is. -/
theorem push_append (w : Text) {pieces : List Text} (h : pieces ≠ []) (more : List Text) :
    push w (pieces ++ more) = push w pieces ++ more := by
  cases pieces with
  | nil => exact absurd rfl h
  | cons piece pieces => rfl

/-- Two texts are put in front of a piece one by one or together. -/
theorem push_push (v w : Text) (pieces : List Text) :
    push v (push w pieces) = push (v ++ w) pieces := by
  cases pieces <;> simp [push]

theorem splitElements_ne_nil (d : Nat) (l : List (Byte × Region)) : splitElements d l ≠ [] := by
  cases l with
  | nil => simp [splitElements]
  | cons x more =>
    rw [splitElements]
    split
    · simp
    · exact push_ne_nil _ _

/-- A comma outside all brackets separates the pieces before it from those behind it. -/
theorem splitElements_append_comma (h : l.foldl nesting d = 0) :
    splitElements d (l ++ comma :: m) = splitElements d l ++ splitElements 0 m := by
  induction l generalizing d with
  | nil =>
    obtain rfl : d = 0 := h
    simp [splitElements]
  | cons x l ih =>
    rw [List.foldl_cons] at h
    rw [List.cons_append, splitElements, splitElements]
    split
    · rename_i hx
      have hzero : nesting d x = 0 := by
        rw [hx.1, hx.2]
        rfl
      rw [ih (hzero ▸ h), List.cons_append]
    · rw [ih h, push_append _ (splitElements_ne_nil _ _)]

/-- The last piece is not empty when the last byte is no comma. -/
theorem getLast?_splitElements_ne (hx : x ≠ comma) :
    (splitElements d (l ++ [x])).getLast? ≠ some [] := by
  induction l generalizing d with
  | nil => simp [splitElements, hx, push]
  | cons y l ih =>
    rw [List.cons_append, splitElements]
    split
    · rw [List.getLast?_cons_of_ne_nil (splitElements_ne_nil _ _)]
      exact ih
    · obtain ⟨piece, more, heq⟩ := List.exists_cons_of_ne_nil
        (splitElements_ne_nil (nesting d y) (l ++ [x]))
      have hlast := ih (d := nesting d y)
      rw [heq] at hlast ⊢
      cases more with
      | nil => simp [push]
      | cons next more => simpa [push] using hlast

/-- An element that is put behind others, with a comma in front of it where one is lacking and a
comma behind it, is one more element. -/
theorem elementsOf_append {e : List (Byte × Region)} {element : Text}
    (hdepth : l.foldl nesting 0 = 0) (he : e.foldl nesting 0 = 0)
    (hsplit : splitElements 0 e = [element]) {separator : List (Byte × Region)}
    (hseparator : (separator = [] ∧ ∀ x ∈ l.getLast?, x = comma) ∨
      (separator = [comma] ∧ ∃ x ∈ l.getLast?, x ≠ comma)) :
    elementsOf (l ++ (separator ++ (e ++ [comma]))) = elementsOf l ++ [element] := by
  have hentry : splitElements 0 (e ++ [comma]) = [element, []] := by
    rw [splitElements_append_comma he, hsplit]
    rfl
  have hclosed (pieces : List Text) (h : splitElements 0 (l ++ (separator ++ (e ++ [comma]))) =
      pieces ++ [element, []]) :
      elementsOf (l ++ (separator ++ (e ++ [comma]))) = pieces ++ [element] := by
    have hcut : pieces ++ [element, []] = pieces ++ [element] ++ [[]] := by simp
    rw [elementsOf, h, hcut, List.getLast?_concat, if_pos rfl, List.dropLast_concat]
  rcases hseparator with ⟨rfl, hlast⟩ | ⟨rfl, x, hx, hne⟩
  · rcases List.eq_nil_or_concat l with rfl | ⟨init, x, rfl⟩
    · rw [hclosed [] (by simpa using hentry)]
      rfl
    · rw [List.concat_eq_append] at *
      obtain rfl : x = comma := hlast x (by simp)
      have hinit : init.foldl nesting 0 = 0 := by simpa using hdepth
      have hold : elementsOf (init ++ [comma]) = splitElements 0 init := by
        rw [elementsOf, splitElements_append_comma hinit, splitElements, List.getLast?_concat,
          if_pos rfl, List.dropLast_concat]
      rw [hold, hclosed (splitElements 0 init)]
      rw [List.append_assoc, List.nil_append, List.singleton_append,
        splitElements_append_comma hinit, hentry]
  · obtain ⟨init, rfl⟩ := List.getLast?_eq_some_iff.mp hx
    have hold : elementsOf (init ++ [x]) = splitElements 0 (init ++ [x]) :=
      if_neg (getLast?_splitElements_ne hne)
    rw [hold, hclosed (splitElements 0 (init ++ [x]))]
    rw [List.singleton_append, splitElements_append_comma hdepth, hentry]

/-! ## Text without commas outside its brackets -/

/-- Text of code without brackets, and without commas when no bracket encloses it, belongs to the
piece that it starts. -/
theorem splitElements_plain_append {w : Text}
    (hw : ∀ b ∈ w, closerOf? b = none ∧ isCloser b = false)
    (hd : d = 0 → byte ',' ∉ w) :
    splitElements d (w.map (·, .code) ++ m) = push w (splitElements d m) := by
  induction w with
  | nil =>
    obtain ⟨piece, more, heq⟩ := List.exists_cons_of_ne_nil (splitElements_ne_nil d m)
    simp [heq, push]
  | cons b w ih =>
    obtain ⟨⟨hopen, hclose⟩, hw⟩ := List.forall_mem_cons.mp hw
    have hne : ¬ (d = 0 ∧ (b, Region.code) = comma) := by
      rintro ⟨hzero, heq⟩
      exact hd hzero (by simp [(Prod.mk.inj heq).1])
    have hstay : nesting d (b, .code) = d := by simp [nesting, hopen, hclose]
    rw [List.map_cons, List.cons_append, splitElements, if_neg hne, hstay,
      ih hw fun h hmem => hd h (List.mem_cons_of_mem _ hmem), push_push, List.singleton_append]

/-- Code without brackets keeps the depth. -/
theorem foldl_nesting_plain {w : Text} (hw : ∀ b ∈ w, closerOf? b = none ∧ isCloser b = false) :
    (w.map (·, Region.code)).foldl nesting d = d := by
  induction w with
  | nil => rfl
  | cons b w ih =>
    obtain ⟨⟨hopen, hclose⟩, hw⟩ := List.forall_mem_cons.mp hw
    rw [List.map_cons, List.foldl_cons, nesting]
    simp [hopen, hclose, ih hw]

/-- An opening parenthesis belongs to its piece, and what follows it lies one bracket deeper. -/
theorem splitElements_open (d : Nat) (m : List (Byte × Region)) :
    splitElements d ((byte '(', .code) :: m) = push [byte '('] (splitElements (d + 1) m) := by
  have hne : (byte '(', Region.code) ≠ comma := by decide
  rw [splitElements, if_neg fun h => hne h.2]
  rfl

/-- A closing parenthesis belongs to its piece, and what follows it lies one bracket less deep. -/
theorem splitElements_close (d : Nat) (m : List (Byte × Region)) :
    splitElements (d + 1) ((byte ')', .code) :: m) = push [byte ')'] (splitElements d m) := by
  rw [splitElements, if_neg (by simp)]
  rfl

end Split

/-! ## Brackets around a byte -/

namespace Reader

variable {s t u : Reader} {b : Byte} {rest v w : Text}

/-- Bytes that are not significant open and close nothing. -/
theorem nesting_of_not_isSignificant (h : s.isSignificant b = false) (d : Nat) :
    nesting d (b, s.region) = d := by
  have hspace : ∀ b, Byte.isSpace b → closerOf? b = none ∧ isCloser b = false := by decide +kernel
  rw [isSignificant] at h
  rw [nesting]
  cases hregion : s.region with
  | code =>
    rw [hregion] at h
    obtain ⟨hopen, hclose⟩ := hspace b (by simpa using h)
    simp [hopen, hclose]
  | comment => rfl
  | string => rfl

/-- The significant bytes of two stretches are those of the first and then those of the second. -/
theorem significant_append (h : s.run (v ++ rest) w = some t) :
    s.significant rest (w ++ v) = s.significant (v ++ rest) w ++ t.significant rest v := by
  rw [significant, trace_append h, List.filter_append, List.map_append]
  rfl

/-- The significant bytes of a stretch start with its first byte, if that is significant. -/
theorem significant_cons_of_read (h : s.read b (w ++ rest) = some t) :
    s.significant rest (b :: w) =
      (if t.isSignificant b then [(b, t.region)] else []) ++ t.significant rest w := by
  rw [significant, trace_cons_of_read h, List.filter_cons]
  split <;> rfl

/-- How many brackets enclose a reader `s` that was started within those of `u`, beyond the
first. -/
def depthIn (s u : Reader) : Nat := u.frames.length - s.frames.length - 1

/-- A byte of code that is read in plain code, and inside a bracket, changes the depth as it
says. -/
private theorem depthIn_read_of_code {s' u' : Reader} {closer : Byte} {more : List Frame}
    {afterName : Bool} {region region' : Region}
    (hs' : Reader.read ⟨[], 0, afterName, region⟩ b rest = some s')
    (hu : Reader.read ⟨.bracket closer :: more, 0, afterName, region'⟩ b rest = some u') :
    s'.depthIn u' = nesting more.length (b, s'.region) := by
  simp only [Reader.read] at hs' hu
  cases ho : opening? afterName b rest with
  | some opened =>
    simp only [ho, Option.some.injEq] at hs' hu
    obtain rfl := hs'
    obtain rfl := hu
    have hcode : opened.1.region ≠ .code := by
      rcases (opening?_spec ho).1 with h | h | ⟨_, _, _, h, -⟩ <;> simp [h, Frame.region]
    simp [depthIn, enter, nesting, hcode]
  | none =>
    simp only [ho, Option.some.injEq] at hs' hu
    obtain rfl := hs'
    rcases readBracketed_eq_some hu with ⟨inner, hinner, rfl⟩ | ⟨hinner, hclose, -, rfl⟩ |
      ⟨hinner, hclose, rfl⟩
    · simp [depthIn, enter, nesting, hinner]
    · simp [depthIn, leave, nesting, hinner, hclose]
    · simp [depthIn, nesting, hinner, hclose]

/-- A step over a byte of code changes the depth as the byte says; any other step keeps it. Both
readers do the same to what the text has open, and the brackets below stay. -/
theorem Within.depthIn_read {s' u' : Reader} (h : Within s u) (hs : s.Settled)
    (hs' : s.read b rest = some s') (hu : u.read b rest = some u') :
    s'.depthIn u' = nesting (s.depthIn u) (b, s'.region) := by
  obtain ⟨outer, region', hne, hbracket, rfl⟩ := h
  obtain ⟨frames, pending, afterName, region⟩ := s
  have hstay (hnot : ({ frames, pending, afterName, region } : Reader).atRest = false) (d : Nat) :
      nesting d (b, s'.region) = d := by
    rw [region_read_of_not_atRest hnot hs', nesting, if_neg (hs hnot)]
  cases pending with
  | succ n =>
    obtain rfl := Option.some.inj hu
    obtain rfl := Option.some.inj hs'
    rw [hstay (by simp [atRest])]
    rfl
  | zero =>
    cases frames with
    | cons frame fs =>
      have heq := read_append frame fs outer afterName region region' b rest
      obtain ⟨r, hr, rfl⟩ := Option.map_eq_some_iff.mp (heq.symm.trans hu)
      obtain rfl := Option.some.inj (hs'.symm.trans hr)
      rw [hstay (by simp [atRest])]
      simp only [depthIn, List.length_append, List.length_cons]
      omega
    | nil =>
      obtain ⟨frame, more, rfl⟩ := List.exists_cons_of_ne_nil hne
      obtain ⟨closer, rfl⟩ := hbracket _ (List.mem_cons_self ..)
      exact depthIn_read_of_code hs' hu

/-- How many brackets enclose a reader is told by the significant bytes that were read. -/
theorem Within.depthIn_follow {s' u' : Reader} (h : Within s u) (hs : s.Settled)
    (hs' : s.run rest w = some s') (hu : u.follow rest w = some u') :
    Within s' u' ∧ s'.depthIn u' = (s.significant rest w).foldl nesting (s.depthIn u) := by
  induction w generalizing s u with
  | nil =>
    obtain rfl := Option.some.inj hs'
    obtain rfl := Option.some.inj hu
    exact ⟨h, rfl⟩
  | cons b w ih =>
    obtain ⟨r, hr, -, hs'⟩ := exists_of_runUntil_cons hs'
    obtain ⟨q, hq, hrest, hu⟩ := exists_of_runUntil_cons hu
    rcases h.read hq with ⟨r', hr', hin⟩ | ⟨-, hq'⟩
    · obtain rfl := Option.some.inj (hr.symm.trans hr')
      obtain ⟨hin', heq⟩ := ih hin (hs.read hr) hs' hu
      refine ⟨hin', ?_⟩
      rw [heq, h.depthIn_read hs hr hq, significant_cons_of_read hr]
      cases hb : r.isSignificant b with
      | true => rfl
      | false =>
        rw [nesting_of_not_isSignificant hb]
        rfl
    · rw [hrest] at hq'
      exact absurd hq' (by simp)

end Reader

end FlutterScaffold.Dart
