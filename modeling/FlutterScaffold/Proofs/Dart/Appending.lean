import FlutterScaffold.Proofs.Dart.Closing

/-!
# Appending an element to a list literal

An element goes behind the contents of a bracket, on lines of its own and with a comma behind it; a
comma goes right behind the last byte that counts as code where that byte is none. The bracket is
closed behind the new contents as it was behind the old ones, and what is significant in between is
the old contents followed by the comma and the element (`append_element`).
-/

namespace FlutterScaffold.Dart

open Byte (newline isLayout)

namespace Reader

variable {s u t r : Reader} {b c : Byte} {rest w tail a n layout : Text} {pos : Nat}

/-! ## Bytes that count as code -/

/-- A byte that ends a literal is part of a delimiter. -/
theorem isDelimiter_of_region_eq_string (hs : s.Coherent (b :: rest))
    (h : s.read b rest = some t) (ht : t.atRest = true) (hregion : t.region = .string) :
    isDelimiter b = true := by
  obtain ⟨hf, hp⟩ := atRest_iff.mp ht
  rcases region_read h with ⟨hnot, heq⟩ | ⟨-, -, ⟨frame, hframe, -⟩ | ⟨-, heq, -⟩⟩
  · have hmove := read_move h
    rw [hf, hp] at hmove
    have hframe := hs.region_eq
    rw [← heq, hregion] at hframe
    generalize hfs : s.frames = fs at hmove hframe
    generalize hn : s.pending = n at hmove
    cases hmove with
    | pass =>
      rcases hs.isDelimiter_of_mem with ⟨q, triple, fs, hstring⟩ | hd
      · simp [hfs] at hstring
      · exact hd b (by simp [hn])
    | endLine => simp [Frame.region] at hframe
    | close =>
      have hq := hs.isQuote_of_mem (hfs ▸ List.mem_singleton_self _)
      simp [isDelimiter, hq]
    | pop => simp [Frame.region] at hframe
    | code => exact absurd ⟨hfs, hn⟩ hnot
  · simp [hf] at hframe
  · simp [heq] at hregion

/-- What opens in code is a comment, whose mark has two bytes, or a literal. -/
theorem opening?_eq_slash_or {afterName : Bool} {opened : Frame × Nat}
    (h : opening? afterName b rest = some opened) :
    (b = Byte.slash ∧ ∃ d more, rest = d :: more ∧ (d = Byte.slash ∨ d = byte '*')) ∨
      opened.1.region = .string := by
  obtain ⟨frame, n⟩ := opened
  have hstring {raw : Bool} {q : Byte} {more : Text} {m : Nat}
      (h : stringFrame raw q more = (frame, m)) : frame.region = .string := by
    obtain ⟨triple, k, heq, -⟩ := stringFrame_spec raw q more
    rw [← (Prod.mk.inj (heq.symm.trans h)).1]
    rfl
  rcases opening?_eq_some h with ⟨hslash, h⟩ | ⟨-, h⟩ | ⟨-, -, h⟩
  · refine Or.inl ⟨hslash, ?_⟩
    obtain ⟨-, ⟨hhead, -⟩ | ⟨hhead, -⟩⟩ := comment?_eq_some h
    · exact ⟨_, _, List.eq_cons_of_mem_head? hhead, Or.inl rfl⟩
    · exact ⟨_, _, List.eq_cons_of_mem_head? hhead, Or.inr rfl⟩
  · exact Or.inr (hstring h)
  · obtain ⟨q, more, m, -, -, h, -⟩ := rawString?_eq_some h
    exact Or.inr (hstring h)

/-- An `r` that follows plain code is significant. -/
theorem isSignificant_of_eq_r (hs : s.atRest = true) (h : s.read (byte 'r') rest = some t) :
    t.isSignificant (byte 'r') = true := by
  obtain ⟨hf, hp⟩ := atRest_iff.mp hs
  obtain ⟨frames, pending, afterName, region⟩ := s
  subst hf hp
  simp only [read] at h
  cases hopen : opening? afterName (byte 'r') rest with
  | none =>
    simp only [hopen, Option.some.injEq] at h
    subst h
    rfl
  | some opened =>
    have hstring : opened.1.region = .string := by
      obtain ⟨hslash, -⟩ | hstring := opening?_eq_slash_or hopen
      · exact absurd hslash (by decide)
      · exact hstring
    simp only [hopen, Option.some.injEq] at h
    subst h
    simp [isSignificant, hstring]

/-- Where nothing is significant, the first byte is not and nothing behind it is. -/
theorem significant_cons_eq_nil {r : Reader} {b : Byte} (hr : s.read b (w ++ rest) = some r)
    (h : s.significant rest (b :: w) = []) :
    r.isSignificant b = false ∧ r.significant rest w = [] := by
  rw [significant_cons_of_read hr, List.append_eq_nil_iff] at h
  refine ⟨?_, h.2⟩
  by_contra hb
  simp [hb] at h

/-- Bytes that are not significant do not count as code. -/
theorem lastMark_of_significant_eq_nil (h : s.run rest w = some t)
    (hsig : s.significant rest w = [])
    (pos : Nat) (seen : Option Nat) : s.lastMark pos seen rest w = seen := by
  induction w generalizing s pos seen with
  | nil => rfl
  | cons b w ih =>
    obtain ⟨r, hr, -, h⟩ := exists_of_runUntil_cons h
    obtain ⟨hb, hsig⟩ := significant_cons_eq_nil hr hsig
    rw [lastMark_cons_of_read hr, ih h hsig, marks_eq, hb, Bool.and_false]
    rfl

/-- The last byte that counts as code is looked for in one text after the other. -/
theorem lastMark_append {v : Text} (h : s.run (w ++ rest) v = some t) (pos : Nat)
    (seen : Option Nat) : s.lastMark pos seen rest (v ++ w) =
      t.lastMark (pos + v.length) (s.lastMark pos seen (w ++ rest) v) rest w := by
  induction v generalizing s pos seen with
  | nil =>
    obtain rfl := Option.some.inj h
    rfl
  | cons b v ih =>
    obtain ⟨r, hr, -, h⟩ := exists_of_runUntil_cons h
    rw [List.cons_append, lastMark_cons_of_read (by simpa using hr), ih h,
      lastMark_cons_of_read hr, List.length_cons, Nat.add_assoc, Nat.add_comm 1]

/-- The last byte that counts as code ends the significant bytes of a stretch of plain code. -/
theorem exists_significant_of_lastMark (hs : s.Settled) (hrest : s.atRest = true)
    (h : s.run rest w = some t) (ht : t.atRest = true) (pos : Nat) :
    (s.lastMark pos none rest w = none ∧ s.significant rest w = []) ∨
      ∃ v b y r r', w = v ++ b :: y ∧ s.run (b :: y ++ rest) v = some r ∧
        r.read b (y ++ rest) = some r' ∧ r'.atRest = true ∧ r'.isSignificant b = true ∧
        r'.significant rest y = [] ∧ s.lastMark pos none rest w = some (pos + v.length) := by
  have hnil {s : Reader} {w : Text} (h : ∀ x ∈ s.trace rest w, x.2.isSignificant x.1 = false) :
      s.significant rest w = [] := by
    rw [significant, List.map_eq_nil_iff, List.filter_eq_nil_iff]
    intro x hx
    simp [h x hx]
  rcases exists_of_lastMark h pos none with ⟨heq, hm⟩ | ⟨v, b, y, r, r', rfl, hr, hr', hb, hm, heq⟩
  · exact Or.inl ⟨heq, hnil (not_isSignificant_of_not_marks hs (Or.inl hrest) h ht hm)⟩
  · rw [marks_eq, Bool.and_eq_true] at hb
    have hy : r'.run rest y = some t := by
      rw [run, runUntil_append_of hr, runUntil_cons_of_read hr' rfl] at h
      exact h
    exact Or.inr ⟨v, b, y, r, r', rfl, hr, hr', hb.1, hb.2, hnil (not_isSignificant_of_not_marks
      ((hs.run hr).read hr') (Or.inl hb.1) hy ht hm), heq⟩

/-- Where the last byte that counts as code stands in the first of two pieces, it is the last
significant one of that piece, and nothing in the second piece is significant. The mark stands in
front of the seam, so the cut behind it falls into the first piece. -/
theorem significant_of_lastMark {y : Text} {p : Nat} (hs : s.Settled)
    (hc : s.Coherent (a ++ (y ++ rest))) (hrest : s.atRest = true)
    (ha : s.run (y ++ rest) a = some t) (hy : t.run rest y = some u) (hu : u.atRest = true)
    (hp : s.lastMark pos none rest (a ++ y) = some p) (hlt : p < pos + a.length) :
    t.significant rest y = [] ∧ (p + 1 = pos + a.length → t.atRest = true) ∧
      ∃ l x, s.significant (y ++ rest) a = l ++ [x] ∧ a[p - pos]? = some x.1 ∧
        (x.2 = .code ∨ isDelimiter x.1 = true) := by
  have hrun : s.run rest (a ++ y) = some u := (runUntil_append_of ha).trans hy
  rcases exists_significant_of_lastMark hs hrest hrun hu pos with
    ⟨hnone, -⟩ | ⟨v, b, z, r, r', hcut, hr, hr', hat, hsig, hz, hlast⟩
  · simp [hp] at hnone
  · obtain rfl : p = pos + v.length := Option.some.inj (hp.symm.trans hlast)
    obtain ⟨m, rfl, rfl⟩ : ∃ m, a = v ++ b :: m ∧ z = m ++ y := by
      rcases List.append_eq_append_iff.mp hcut with ⟨m, rfl, hm⟩ | ⟨m, rfl, hm⟩
      · rw [List.length_append] at hlt
        omega
      · cases m with
        | nil => simp at hlt
        | cons d m =>
          rw [List.cons_append] at hm
          obtain ⟨rfl, rfl⟩ := List.cons.inj hm
          exact ⟨m, rfl, rfl⟩
    have hr₁ : s.run (b :: m ++ (y ++ rest)) v = some r := by simpa using hr
    have hread : r.read b (m ++ (y ++ rest)) = some r' := by simpa using hr'
    have hm : r'.run (y ++ rest) m = some t := by
      rw [run, runUntil_append_of hr₁, runUntil_cons_of_read hread rfl] at ha
      exact ha
    rw [significant_append hm, List.append_eq_nil_iff] at hz
    refine ⟨hz.2, fun hend => ?_, s.significant (b :: m ++ (y ++ rest)) v, (b, r'.region), ?_,
      ?_, ?_⟩
    · obtain rfl : m = [] := by
        simp only [List.length_append, List.length_cons] at hend
        exact List.eq_nil_of_length_eq_zero (by omega)
      obtain rfl := Option.some.inj hm
      exact hat
    · rw [significant_append hr₁, significant_cons_of_read hread, hsig, hz.1]
      rfl
    · simp
    · have hcoherent : r.Coherent (b :: (m ++ (y ++ rest))) := by
        refine Coherent.runUntil (w := v) ?_ hr₁
        simpa using hc
      cases hregion : r'.region with
      | code => exact Or.inl rfl
      | comment => simp [isSignificant, hregion] at hsig
      | string => exact Or.inr (isDelimiter_of_region_eq_string hcoherent hread hat hregion)

/-- Where no byte counts as code nothing is significant. -/
theorem significant_of_lastMark_eq_none {y : Text} (hs : s.Settled) (hrest : s.atRest = true)
    (ha : s.run (y ++ rest) a = some t) (hy : t.run rest y = some u) (hu : u.atRest = true)
    (hp : s.lastMark pos none rest (a ++ y) = none) :
    s.significant (y ++ rest) a = [] ∧ t.significant rest y = [] := by
  have hrun : s.run rest (a ++ y) = some u := (runUntil_append_of ha).trans hy
  rcases exists_significant_of_lastMark hs hrest hrun hu pos with
    ⟨-, hnil⟩ | ⟨_, _, _, _, _, _, _, _, _, _, _, h⟩
  · rwa [significant_append ha, List.append_eq_nil_iff] at hnil
  · simp [hp] at h

/-! ## The pieces of a bracket's contents -/

/-- Contents of the bracket that `c` closes, cut where a comma goes: the comma lacks when the last
byte that counts as code is another one, and then it goes behind that byte. -/
structure Contents (c : Byte) (tail a sep n layout : Text) (pos : Nat) : Prop where
  closed : (inside c).lengthToRest (a ++ (n ++ layout) ++ tail) =
    some ((a ++ (n ++ layout)).length + 1)
  isLayout_of_mem : ∀ b ∈ layout, isLayout b = true
  sep_spec : (sep = [] ∧ n = [] ∧ ∀ p, ({} : Reader).lastMark pos none tail (a ++ (n ++ layout)) =
      some p → (a ++ (n ++ layout))[p - pos]? = some (byte ',')) ∨
    (sep = [byte ','] ∧ ∃ p, ({} : Reader).lastMark pos none tail (a ++ (n ++ layout)) = some p ∧
      (a ++ (n ++ layout))[p - pos]? ≠ some (byte ',') ∧ pos + a.length = p + 1)

/-- Where the pieces of a bracket's contents take both readers: nothing behind the place of the
comma is significant, and the comma belongs to code that no further bracket encloses. -/
structure Pieces (c : Byte) (tail a sep n layout : Text) (s₁ u₁ s₂ u₂ : Reader)
    (l : List (Byte × Region)) : Prop where
  passes_code : Passes (n ++ layout ++ tail) a {} (inside c) s₁ u₁ l
  passes_content : Passes (layout ++ tail) n s₁ u₁ s₂ u₂ []
  level_or_inLine : Level c s₂ u₂ ∨ InLine c s₂ u₂
  significant : ({} : Reader).significant tail (a ++ (n ++ layout)) = l
  foldl_nesting : l.foldl nesting 0 = 0
  sep_spec : (sep = [] ∧ n = [] ∧ ∀ x ∈ l.getLast?, x = comma) ∨
    (sep = [byte ','] ∧ Level c s₁ u₁ ∧ (∀ b ∈ n.head?, b ≠ byte 'r') ∧
      ∃ x ∈ l.getLast?, x ≠ comma ∧ a.getLast? = some x.1 ∧
        (x.2 = .code ∨ isDelimiter x.1 = true))

/-- A reader in plain code that as many brackets enclose as at the start is at the level of the
bracket again. -/
theorem level_of_nesting (h : Within s u) (hs : s.atRest = true)
    (hlast : u.frames.getLast? = some (.bracket c)) (hdepth : s.depthIn u = 0) : Level c s u := by
  obtain ⟨outer, region, hne, -, rfl⟩ := h
  obtain ⟨hf, hp⟩ := atRest_iff.mp hs
  refine ⟨hs, ?_, hp⟩
  simp only [depthIn, hf, List.nil_append, List.length_nil] at hdepth hlast ⊢
  obtain ⟨frame, rfl⟩ : ∃ frame, outer = [frame] := by
    rw [← List.length_eq_one_iff]
    have := List.length_pos_of_ne_nil hne
    omega
  simpa using hlast

/-- The way of both readers through the contents of a bracket, piece by piece, up to the level of
the bracket in front of its closer. -/
structure Course (c : Byte) (tail a n layout : Text) (s₁ u₁ s₂ u₂ s₃ u₃ : Reader) : Prop where
  run : ({} : Reader).run (n ++ layout ++ tail) a = some s₁
  follow : (inside c).follow (n ++ layout ++ tail) a = some u₁
  run_content : s₁.run (layout ++ tail) n = some s₂
  follow_content : u₁.follow (layout ++ tail) n = some u₂
  run_layout : s₂.run tail layout = some s₃
  follow_layout : u₂.follow tail layout = some u₃
  level : Level c s₃ u₃

/-- Both readers go over the contents of a bracket. -/
theorem Contents.exists_course {sep : Text} (h : Contents c tail a sep n layout pos) :
    ∃ s₁ u₁ s₂ u₂ s₃ u₃, Course c tail a n layout s₁ u₁ s₂ u₂ s₃ u₃ := by
  obtain ⟨s₃, u₃, hs₃, hu₃, hlevel, -⟩ := exists_level_of_lengthToRest h.closed
  obtain ⟨u₁, hu₁, hu₁₃⟩ : ∃ u₁, (inside c).follow (n ++ layout ++ tail) a = some u₁ ∧
      u₁.follow tail (n ++ layout) = some u₃ := by
    rw [follow, runUntil_append] at hu₃
    exact Option.bind_eq_some_iff.mp hu₃
  obtain ⟨u₂, hu₂, hu₂₃⟩ : ∃ u₂, u₁.follow (layout ++ tail) n = some u₂ ∧
      u₂.follow tail layout = some u₃ := by
    rw [follow, runUntil_append] at hu₁₃
    exact Option.bind_eq_some_iff.mp hu₁₃
  obtain ⟨s₁, hs₁, hin₁⟩ := (within_inside c).follow hu₁
  obtain ⟨s₂, hs₂, hin₂⟩ := hin₁.follow hu₂
  obtain ⟨s₃', hs₃', -⟩ := hin₂.follow hu₂₃
  have hrun : ({} : Reader).run tail (a ++ (n ++ layout)) = some s₃' :=
    (runUntil_append_of hs₁).trans ((runUntil_append_of hs₂).trans hs₃')
  obtain rfl : s₃' = s₃ := Option.some.inj (hrun.symm.trans hs₃)
  exact ⟨s₁, u₁, s₂, u₂, s₃', u₃, hs₁, hu₁, hs₂, hu₂, hs₃', hu₂₃, hlevel⟩

namespace Course

variable {s₁ u₁ s₂ u₂ s₃ u₃ : Reader}

/-- The first reader goes over what follows the place of the comma. -/
theorem run_rest (h : Course c tail a n layout s₁ u₁ s₂ u₂ s₃ u₃) :
    s₁.run tail (n ++ layout) = some s₃ :=
  (runUntil_append_of h.run_content).trans h.run_layout

/-- The first reader was started within the brackets of the second one. -/
theorem within (h : Course c tail a n layout s₁ u₁ s₂ u₂ s₃ u₃) : Within s₁ u₁ := by
  obtain ⟨s, hs, hin⟩ := (within_inside c).follow h.follow
  rwa [← Option.some.inj (hs.symm.trans h.run)]

/-- In front of the layout both readers are at the level of the bracket, in code or in a line
comment. -/
theorem level_or_inLine (h : Course c tail a n layout s₁ u₁ s₂ u₂ s₃ u₃)
    (hlayout : ∀ b ∈ layout, isLayout b = true) : Level c s₂ u₂ ∨ InLine c s₂ u₂ := by
  have hin : Within s₂ u₂ := by
    obtain ⟨s, hs, hin⟩ := h.within.follow h.follow_content
    rwa [← Option.some.inj (hs.symm.trans h.run_content)]
  have hs : s₁.Coherent (n ++ (layout ++ tail)) := by
    simpa using (coherent_of_frames_eq_nil rfl rfl).runUntil h.run
  have hu : u₁.Coherent (n ++ (layout ++ tail)) := by
    simpa using (coherent_inside c _).runUntil h.follow
  exact Reader.level_or_inLine hin (hs.runUntil h.run_content) (hu.runUntil h.follow_content)
    (((stacked_inside c).runUntil h.follow).runUntil h.follow_content) hlayout h.follow_layout
    h.level.frames h.level.pending

/-- When nothing behind the place of the comma is significant, the significant bytes in front of it
are those of the whole contents, and no bracket is open behind them. -/
theorem significant (h : Course c tail a n layout s₁ u₁ s₂ u₂ s₃ u₃)
    (hnil : s₁.significant tail (n ++ layout) = []) :
    ({} : Reader).significant tail (a ++ (n ++ layout)) =
        ({} : Reader).significant (n ++ layout ++ tail) a ∧
      (({} : Reader).significant (n ++ layout ++ tail) a).foldl nesting 0 = 0 := by
  have hwhole : ({} : Reader).significant tail (a ++ (n ++ layout)) =
      ({} : Reader).significant (n ++ layout ++ tail) a := by
    rw [significant_append h.run, hnil, List.append_nil]
  have hrun : ({} : Reader).run tail (a ++ (n ++ layout)) = some s₃ :=
    (runUntil_append_of h.run).trans h.run_rest
  have hfollow : (inside c).follow tail (a ++ (n ++ layout)) = some u₃ :=
    (runUntil_append_of h.follow).trans
      ((runUntil_append_of h.follow_content).trans h.follow_layout)
  have hdepth := ((within_inside c).depthIn_follow (settled_of_atRest rfl) hrun hfollow).2
  rw [hwhole, depthIn, depthIn, h.level.frames, (atRest_iff.mp h.level.atRest).1] at hdepth
  exact ⟨hwhole, hdepth.symm⟩

/-- A comma that goes behind plain code stands at the level of the bracket, and no `r` follows. -/
theorem level_of_atRest (h : Course c tail a n layout s₁ u₁ s₂ u₂ s₃ u₃)
    (hnil : s₁.significant tail (n ++ layout) = []) (hrest : s₁.atRest = true) :
    Level c s₁ u₁ ∧ ∀ b ∈ n.head?, b ≠ byte 'r' := by
  constructor
  · exact level_of_nesting h.within hrest (getLast?_follow (c := c) h.follow rfl)
      (((within_inside c).depthIn_follow (settled_of_atRest rfl) h.run h.follow).2.trans
        (h.significant hnil).2)
  · rintro b hb rfl
    obtain ⟨m, rfl⟩ : ∃ m, n = byte 'r' :: m := ⟨_, List.eq_cons_of_mem_head? hb⟩
    obtain ⟨r, hr, -, -⟩ := exists_of_runUntil_cons h.run_content
    rw [significant_append h.run_content, List.append_eq_nil_iff, significant_cons_of_read hr,
      isSignificant_of_eq_r hrest hr] at hnil
    simp at hnil

/-- The pieces of contents whose last significant byte is a comma, or that have none. -/
theorem pieces_of_comma (h : Course c tail a [] layout s₁ u₁ s₂ u₂ s₃ u₃)
    (hlayout : ∀ b ∈ layout, isLayout b = true)
    (hlast : ∀ p, ({} : Reader).lastMark pos none tail (a ++ layout) = some p →
      (a ++ layout)[p - pos]? = some (byte ',')) :
    Pieces c tail a [] [] layout s₁ u₁ s₂ u₂ (({} : Reader).significant (layout ++ tail) a) := by
  have hrun : ({} : Reader).run (layout ++ tail) a = some s₁ := h.run
  have hrest : s₁.run tail layout = some s₃ := h.run_rest
  obtain ⟨hnil, hcomma⟩ : s₁.significant tail layout = [] ∧
      ∀ x ∈ (({} : Reader).significant (layout ++ tail) a).getLast?, x = comma := by
    cases hp : ({} : Reader).lastMark pos none tail (a ++ layout) with
    | none =>
      obtain ⟨ha, hnil⟩ := significant_of_lastMark_eq_none (settled_of_atRest rfl) rfl hrun hrest
        h.level.atRest hp
      exact ⟨hnil, by simp [ha]⟩
    | some p =>
      have hbyte := hlast p hp
      have hlt : p < pos + a.length := by
        by_contra hge
        rw [List.getElem?_append_right (by omega)] at hbyte
        exact absurd (hlayout _ (List.mem_of_getElem? hbyte)) (by decide)
      obtain ⟨hnil, -, l, x, hl, hx, hregion⟩ := significant_of_lastMark (settled_of_atRest rfl)
        (coherent_of_frames_eq_nil rfl rfl) rfl hrun hrest h.level.atRest hp hlt
      refine ⟨hnil, fun y hy => ?_⟩
      obtain rfl : x = y := by simpa [hl] using hy
      rw [List.getElem?_append_left (List.getElem?_eq_some_iff.mp hx).1, hx] at hbyte
      have hcomma : x.1 = byte ',' := Option.some.inj hbyte
      rw [hcomma] at hregion
      exact Prod.ext hcomma (hregion.resolve_right (by decide))
  obtain ⟨hwhole, hdepth⟩ := h.significant hnil
  exact ⟨⟨h.run, h.follow, rfl⟩, ⟨h.run_content, h.follow_content, rfl⟩,
    h.level_or_inLine hlayout, hwhole, hdepth, Or.inl ⟨rfl, rfl, hcomma⟩⟩

/-- The pieces of contents whose last significant byte is another one: the comma goes behind it. -/
theorem pieces_of_lastMark (h : Course c tail a n layout s₁ u₁ s₂ u₂ s₃ u₃)
    (hlayout : ∀ b ∈ layout, isLayout b = true) {p : Nat}
    (hp : ({} : Reader).lastMark pos none tail (a ++ (n ++ layout)) = some p)
    (hne : (a ++ (n ++ layout))[p - pos]? ≠ some (byte ',')) (hend : pos + a.length = p + 1) :
    Pieces c tail a [byte ','] n layout s₁ u₁ s₂ u₂
      (({} : Reader).significant (n ++ layout ++ tail) a) := by
  obtain ⟨hnil, hrest, l, x, hl, hx, hregion⟩ := significant_of_lastMark (settled_of_atRest rfl)
    (coherent_of_frames_eq_nil rfl rfl) rfl h.run h.run_rest h.level.atRest hp (by omega)
  obtain ⟨hwhole, hdepth⟩ := h.significant hnil
  obtain ⟨hlevel, hraw⟩ := h.level_of_atRest hnil (hrest hend.symm)
  have hlast : (({} : Reader).significant (n ++ layout ++ tail) a).getLast? = some x := by
    rw [hl, List.getLast?_concat]
  have hcontent : s₁.significant (layout ++ tail) n = [] := by
    rw [significant_append h.run_content, List.append_eq_nil_iff] at hnil
    exact hnil.1
  refine ⟨⟨h.run, h.follow, rfl⟩, ⟨h.run_content, h.follow_content, hcontent⟩,
    h.level_or_inLine hlayout, hwhole, hdepth,
    Or.inr ⟨rfl, hlevel, hraw, x, hlast, ?_, ?_, hregion⟩⟩
  · rintro rfl
    rw [List.getElem?_append_left (List.getElem?_eq_some_iff.mp hx).1] at hne
    exact hne hx
  · rw [List.getLast?_eq_getElem?, ← hx]
    congr 1
    omega

end Course

/-- The contents of a bracket are cut at the place of the comma. -/
theorem Contents.exists_pieces {sep : Text} (h : Contents c tail a sep n layout pos) :
    ∃ s₁ u₁ s₂ u₂ l, Pieces c tail a sep n layout s₁ u₁ s₂ u₂ l := by
  obtain ⟨s₁, u₁, s₂, u₂, s₃, u₃, hcourse⟩ := h.exists_course
  obtain ⟨-, hlayout, ⟨rfl, rfl, hlast⟩ | ⟨rfl, p, hp, hne, hend⟩⟩ := h
  · exact ⟨s₁, u₁, s₂, u₂, _, hcourse.pieces_of_comma hlayout hlast⟩
  · exact ⟨s₁, u₁, s₂, u₂, _, hcourse.pieces_of_lastMark hlayout hp hne hend⟩

/-- Behind plain code nothing is significant up to the end of a stretch that holds blanks only, or
blanks up to a comment. -/
theorem exists_spaces_of_significant_eq_nil (hs : s.atRest = true) (h : s.run rest w = some t)
    (hsig : s.significant rest w = []) :
    ∃ spaces v, w = spaces ++ v ∧ (∀ b ∈ spaces, Byte.isSpace b = true) ∧
      (v = [] ∨ ∃ d more, v ++ rest = Byte.slash :: d :: more ∧
        (d = Byte.slash ∨ d = byte '*')) := by
  induction w generalizing s with
  | nil => exact ⟨[], [], rfl, by simp, Or.inl rfl⟩
  | cons b w ih =>
    obtain ⟨r, hr, -, h⟩ := exists_of_runUntil_cons h
    obtain ⟨hb, hsig⟩ := significant_cons_eq_nil hr hsig
    obtain ⟨hf, hp⟩ := atRest_iff.mp hs
    obtain ⟨frames, pending, afterName, region⟩ := s
    subst hf hp
    simp only [read] at hr
    cases hopen : opening? afterName b (w ++ rest) with
    | none =>
      rw [hopen, Option.some.injEq] at hr
      subst hr
      obtain ⟨spaces, v, rfl, hspaces, hv⟩ := ih rfl h hsig
      exact ⟨b :: spaces, v, rfl, List.forall_mem_cons.mpr ⟨by simpa [isSignificant] using hb,
        hspaces⟩, hv⟩
    | some opened =>
      rw [hopen, Option.some.injEq] at hr
      subst hr
      have hcomment : opened.1.region ≠ .string := fun hstring => by
        simp [isSignificant, hstring] at hb
      obtain ⟨rfl, d, more, hhead, hd⟩ := (opening?_eq_slash_or hopen).resolve_right hcomment
      exact ⟨[], Byte.slash :: w, rfl, by simp,
        Or.inr ⟨d, more, by rw [List.cons_append, hhead], hd⟩⟩

/-- A comma that a list lacks goes behind no opening parenthesis, and only blanks stand between its
place and a comment or the layout in front of the closer. -/
theorem Contents.comma_spec (h : Contents c tail a [byte ','] n layout pos) :
    a.getLast? ≠ some (byte '(') ∧
      ∃ spaces v, n = spaces ++ v ∧ (∀ b ∈ spaces, Byte.isSpace b = true) ∧
        (v = [] ∨ ∃ d more, v ++ (layout ++ tail) = Byte.slash :: d :: more ∧
          (d = Byte.slash ∨ d = byte '*')) := by
  obtain ⟨s₁, u₁, s₂, u₂, l, hpieces⟩ := h.exists_pieces
  obtain ⟨hnil, -⟩ | ⟨-, hlevel, -, x, hx, -, hlast, hregion⟩ := hpieces.sep_spec
  · exact absurd hnil (by simp)
  refine ⟨fun hopen => ?_, exists_spaces_of_significant_eq_nil hlevel.atRest
    hpieces.passes_content.run hpieces.passes_content.significant⟩
  obtain ⟨init, rfl⟩ := List.getLast?_eq_some_iff.mp hx
  have hbyte : x.1 = byte '(' := Option.some.inj (hlast.symm.trans hopen)
  have hcode : x = (byte '(', .code) :=
    Prod.ext hbyte (hregion.resolve_right (by rw [hbyte]; decide))
  have hdepth := hpieces.foldl_nesting
  rw [hcode, List.foldl_append, List.foldl_cons, List.foldl_nil] at hdepth
  exact absurd hdepth (Nat.succ_ne_zero _)

/-! ## The new contents -/

section Append

variable {sep nl v closing : Text} {s₁ u₁ s₂ u₂ : Reader} {l : List (Byte × Region)}

/-- A line break is layout. -/
theorem isLayout_of_isLineBreak (hnl : Text.IsLineBreak nl) : ∀ b ∈ nl, isLayout b = true := by
  rcases hnl with rfl | rfl <;> exact List.all_eq_true.mp rfl

/-- No delimiter goes on with a line break. -/
theorem inert_lineBreak (hnl : Text.IsLineBreak nl) (w : Text) : Inert (nl ++ w) := by
  rcases hnl with rfl | rfl <;> exact inert_cons.mpr rfl

/-- The contents are passed as before when a comma and lines of their own follow. -/
theorem Pieces.passes_lineBreak (h : Pieces c tail a sep n layout s₁ u₁ s₂ u₂ l)
    (hnl : Text.IsLineBreak nl) (rest : Text) :
    ∃ s u, Passes rest (a ++ (sep ++ (n ++ nl))) {} (inside c) s u (l ++ sep.map (·, .code)) ∧
      Level c s u := by
  have hpending : s₂.pending = 0 ∧ u₂.pending = 0 := by
    rcases h.level_or_inLine with hlevel | hline
    · exact ⟨(atRest_iff.mp hlevel.atRest).2, hlevel.pending⟩
    · exact ⟨hline.pending_eq, hline.pending⟩
  have hinert := inert_lineBreak hnl rest
  have hcode (w : Text) : ({} : Reader).Coherent w := coherent_of_frames_eq_nil rfl rfl
  have hcontent : Passes (nl ++ rest) n s₁ u₁ s₂ u₂ [] :=
    h.passes_content.inert (by simpa using (hcode _).runUntil h.passes_code.run)
      (by simpa using (coherent_inside c _).runUntil h.passes_code.follow) hpending.1 hpending.2
        hinert
  rcases h.sep_spec with ⟨rfl, rfl, -⟩ | ⟨rfl, hlevel, hr, -⟩
  · obtain rfl : s₁ = s₂ := Option.some.inj h.passes_content.run
    obtain rfl : u₁ = u₂ := Option.some.inj h.passes_content.follow
    obtain ⟨s, u, hbreak, hs⟩ := exists_passes_lineBreak h.level_or_inLine hnl rest
    have hfirst := h.passes_code.inert (hcode _) (coherent_inside c _) hpending.1 hpending.2 hinert
    exact ⟨s, u, by simpa using hfirst.append hbreak, hs⟩
  · obtain ⟨s₃, u₃, hcomma, hsame, hempty⟩ := hlevel.passes_comma hr hcontent
    have hline : Level c s₃ u₃ ∨ InLine c s₃ u₃ := by
      by_cases hn : n = []
      · exact Or.inl (hempty hn)
      · obtain ⟨rfl, rfl⟩ := hsame hn
        exact h.level_or_inLine
    obtain ⟨s, u, hbreak, hs⟩ := exists_passes_lineBreak hline hnl rest
    have hfirst := h.passes_code.inert (z := byte ',' :: n ++ nl ++ rest) (hcode _)
      (coherent_inside c _) (atRest_iff.mp hlevel.atRest).2 hlevel.pending (inert_cons.mpr rfl)
    exact ⟨s, u, by simpa using hfirst.append (hcomma.append hbreak), hs⟩

/-- The new contents up to the comma of the element, and from there up to the closer. -/
theorem Pieces.passes_element (h : Pieces c tail a sep n layout s₁ u₁ s₂ u₂ l)
    (hnl : Text.IsLineBreak nl) (hv : Neutral v) (hsilent : ∀ b ∈ v, isSilent b = true)
    (hclosing : ∀ b ∈ closing ++ layout, isLayout b = true) :
    ∃ r q s u, Passes (byte ',' :: (closing ++ layout) ++ tail) (a ++ (sep ++ (n ++ (nl ++ v)))) {}
        (inside c) r q (l ++ (sep.map (·, .code) ++ codeOf v)) ∧ Level c r q ∧
      Passes tail (byte ',' :: (closing ++ layout)) r q s u [comma] ∧ Level c s u := by
  obtain ⟨s₃, u₃, hbreak, hlevel₃⟩ := h.passes_lineBreak hnl
    (v ++ (byte ',' :: (closing ++ layout) ++ tail))
  obtain ⟨r, q, hpass, hlevel⟩ := hlevel₃.passes_neutral
    (byte ',' :: (closing ++ layout) ++ tail) hv
    hsilent (fun _ b hb => by rw [← Option.some.inj hb]; rfl)
  obtain ⟨s₄, u₄, hlayout, hlevel₄⟩ := hlevel.passes_layout tail hclosing
  have hr : ∀ b ∈ (closing ++ layout).head?, b ≠ byte 'r' := by
    rintro b hb rfl
    exact absurd (hclosing _ (List.mem_of_head? hb)) (by decide)
  obtain ⟨s, u, hcomma, hsame, hempty⟩ := hlevel.passes_comma hr hlayout
  refine ⟨r, q, s, u, ?_, hlevel, hcomma, ?_⟩
  · simpa using hbreak.append hpass
  · by_cases hnil : closing ++ layout = []
    · exact hempty hnil
    · obtain ⟨rfl, rfl⟩ := hsame hnil
      exact hlevel₄

/-- Appending an element keeps the bracket closed where it was, adds the element to those that were
there, and makes its comma the last byte that counts as code. -/
theorem Contents.append_element (h : Contents c tail a sep n layout pos) (hnl : Text.IsLineBreak nl)
    (hv : Neutral v) (hsilent : ∀ b ∈ v, isSilent b = true)
    (hclosing : ∀ b ∈ closing ++ layout, isLayout b = true) {element : Text}
    (hdepth : (codeOf v).foldl nesting 0 = 0) (hsplit : splitElements 0 (codeOf v) = [element])
    {code contents : Text} (hcode : code = a ++ (sep ++ (n ++ (nl ++ v))))
    (hcontents : contents = code ++ byte ',' :: (closing ++ layout)) :
    (inside c).lengthToRest (contents ++ tail) = some (contents.length + 1) ∧
      elementsOf (({} : Reader).significant tail contents) =
        elementsOf (({} : Reader).significant tail (a ++ (n ++ layout))) ++ [element] ∧
      ({} : Reader).lastMark pos none tail contents = some (pos + code.length) := by
  obtain ⟨s₁, u₁, s₂, u₂, l, hpieces⟩ := h.exists_pieces
  obtain ⟨r, q, s, u, hpass, hr, hcomma, hlevel⟩ := hpieces.passes_element hnl hv hsilent hclosing
  rw [← hcode] at hpass
  have hall : Passes tail contents {} (inside c) s u _ := hcontents ▸ hpass.append hcomma
  obtain ⟨_, _, -, -, -, more, rfl, hc⟩ := exists_level_of_lengthToRest h.closed
  refine ⟨?_, ?_, ?_⟩
  · rw [lengthToRest_follow hall.follow, hlevel.lengthToRest hc, Option.map_some, Nat.add_comm]
  · rw [hall.significant, hpieces.significant, List.append_assoc, List.append_assoc]
    refine elementsOf_append hpieces.foldl_nesting hdepth hsplit ?_
    rcases hpieces.sep_spec with ⟨rfl, -, hlast⟩ | ⟨rfl, -, -, hlast⟩
    · exact Or.inl ⟨rfl, hlast⟩
    · obtain ⟨x, hx, hne, -⟩ := hlast
      exact Or.inr ⟨rfl, x, hx, hne⟩
  · have hread := read_comma hr.atRest (closing ++ layout ++ c :: more)
    obtain ⟨t, ht, -, hrest⟩ := exists_of_runUntil_cons hcomma.run
    obtain rfl := Option.some.inj (hread.symm.trans ht)
    have hmarks :
        ({ r with afterName := false, region := .code } : Reader).marks (byte ',') = true :=
      (Bool.and_eq_true _ _).mpr ⟨hr.atRest, rfl⟩
    have hcons : comma :: ({ r with afterName := false, region := .code } : Reader).significant
        (c :: more) (closing ++ layout) = [comma] :=
      (significant_cons_of_read hread).symm.trans hcomma.significant
    rw [hcontents, lastMark_append hpass.run, lastMark_cons_of_read hread, hmarks, if_pos rfl]
    exact lastMark_of_significant_eq_nil hrest (List.cons.inj hcons).2 _ _

end Append

end Reader

/-! ## The text around a bracket -/

section Text

variable {t before contents tail : Text} {b c : Byte}

/-- The bracket stands behind what precedes it. -/
theorem drop_bracket (ht : t = before ++ b :: (contents ++ tail)) :
    t.drop before.length = b :: (contents ++ tail) := by
  rw [ht, List.drop_left]

/-- A bracket is matched where the reader inside of it comes to rest. -/
theorem matchingBracket_eq_iff (ht : t = before ++ b :: (contents ++ tail))
    (hb : closerOf? b = some c) :
    matchingBracket t before.length = some (before.length + 1 + contents.length) ↔
      (Reader.inside c).lengthToRest (contents ++ tail) = some (contents.length + 1) := by
  simp only [matchingBracket, drop_bracket ht, hb, Option.bind_some, Option.map_eq_some_iff]
  constructor
  · rintro ⟨n, hn, hlen⟩
    rw [hn]
    congr 1
    omega
  · exact fun h => ⟨_, h, by omega⟩

/-- The last byte of code between the brackets is the last one that counts. -/
theorem lastCode?_eq_lastMark (ht : t = before ++ b :: (contents ++ tail))
    (hb : closerOf? b = some c)
    (h : (Reader.inside c).lengthToRest (contents ++ tail) = some (contents.length + 1)) :
    lastCode? t (before.length + 1) (before.length + 1 + contents.length) =
      ({} : Reader).lastMark (before.length + 1) none tail contents := by
  obtain ⟨s, _, hs, -, hlevel, -⟩ := Reader.exists_level_of_lengthToRest h
  rw [lastCode?_eq_of_drop (drop_bracket ht) hb, Reader.lastCode_eq_lastMark hs hlevel.atRest]

/-- The elements between the brackets are those of the significant bytes. -/
theorem elements_eq (ht : t = before ++ b :: (contents ++ tail)) :
    elements t (before.length + 1) (before.length + 1 + contents.length) =
      elementsOf (({} : Reader).significant tail contents) := by
  have hcut : t = (before ++ [b]) ++ contents ++ tail := by simp [ht]
  have hlen : before.length + 1 + contents.length = ((before ++ [b]) ++ contents).length := by
    rw [List.length_append, List.length_append, List.length_singleton]
  have hstart : before.length + 1 = (before ++ [b]).length := by simp
  rw [elements, hlen, hcut, List.drop_left, List.take_left, hstart, List.drop_left]

end Text

end FlutterScaffold.Dart
