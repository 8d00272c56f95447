import FlutterScaffold.Proofs.Dart.Appending
import FlutterScaffold.Proofs.Text.Pushing

/-!
# The regions of a text

A text that is read from its start has a region for each byte: code, comment or literal. An
insertion respects the regions (`Respects`) when it starts in code and every byte of the text that
is not blank keeps its region. Text does that where no delimiter is under way if it starts in code
and brings the reader to where it tells the same of what follows (`respects_of_run`), such as an
element behind the contents of a bracket that stands in code (`Contents.respectAll`).
-/

namespace FlutterScaffold

/-- Where the first byte of an insertion that is not blank stands in the text it is made into. -/
def Insertion.start (i : Insertion) : Nat :=
  i.offset + (i.text.takeWhile Byte.isSpace).length

namespace Dart

open Byte (isLayout)

namespace Reader

variable {s t s' t' : Reader} {b x : Byte} {rest u v w y z : Text} {region : Region}

/-! ## The regions of a stretch -/

/-- The regions of the bytes of a stretch that `rest` follows, up to a byte that is refused. -/
def regions (s : Reader) (rest w : Text) : List Region := (s.trace rest w).map (·.2.region)

theorem regions_cons_of_read (h : s.read b (w ++ rest) = some t) :
    s.regions rest (b :: w) = t.region :: t.regions rest w := by
  rw [regions, trace_cons_of_read h]
  rfl

/-- The regions of two stretches are those of the first and then those of the second. -/
theorem regions_append (h : s.run (v ++ rest) u = some t) :
    s.regions rest (u ++ v) = s.regions (v ++ rest) u ++ t.regions rest v := by
  rw [regions, trace_append h, List.map_append]
  rfl

/-- A stretch that is read to its end has a region for each of its bytes. -/
theorem length_regions (h : s.run rest w = some t) : (s.regions rest w).length = w.length := by
  induction w generalizing s with
  | nil => rfl
  | cons b w ih =>
    obtain ⟨r, hr, -, h⟩ := exists_of_runUntil_cons h
    rw [regions_cons_of_read hr, List.length_cons, List.length_cons, ih h]

/-- A byte that has a region is read, and the reader behind it tells the region. -/
theorem exists_of_regions (h : (s.regions rest (u ++ x :: w))[u.length]? = some region) :
    ∃ r t, s.run (x :: w ++ rest) u = some r ∧ r.read x (w ++ rest) = some t ∧
      t.region = region := by
  induction u generalizing s with
  | nil =>
    cases hread : s.read x (w ++ rest) with
    | none => simp [regions, trace, hread] at h
    | some t =>
      rw [List.nil_append, regions_cons_of_read hread] at h
      exact ⟨s, t, rfl, hread, Option.some.inj h⟩
  | cons b u ih =>
    cases hread : s.read b (u ++ x :: w ++ rest) with
    | none =>
      have htrace : s.trace rest (b :: (u ++ x :: w)) = [] := by rw [trace, hread]
      simp [regions, htrace] at h
    | some r =>
      rw [List.cons_append, regions_cons_of_read hread] at h
      obtain ⟨r', t, hrun, hlast, heq⟩ := ih h
      exact ⟨r', t, (runUntil_cons_of_read (by simpa using hread) rfl).trans hrun, hlast, heq⟩

/-! ## Readers in plain code -/

/-- Behind a byte of code a reader is in plain code and knows that byte only. -/
theorem Settled.eq_of_read (hs : s.Settled) (h : s.read b rest = some t) (ht : t.region = .code) :
    t = { afterName := Byte.isIdentifier b } := by
  have hrest : t.atRest = true := by
    cases hrest : t.atRest with
    | true => rfl
    | false => exact absurd ht (hs.read h hrest)
  rcases region_read h with ⟨hnot, heq⟩ | ⟨hf, hp, -⟩
  · exact absurd (heq ▸ ht) (hs (by simpa [atRest] using hnot))
  · obtain ⟨frames, pending, afterName, region⟩ := s
    subst hf hp
    simp only [Reader.read] at h
    split at h
    · obtain rfl := Option.some.inj h
      simp [atRest, enter] at hrest
    · exact (Option.some.inj h).symm

/-- In plain code only what an `r` starts depends on the byte before. -/
theorem read_eq_of_atRest (hs : s.atRest = true) (hs' : s'.atRest = true)
    (h : s'.afterName = s.afterName ∨ b ≠ byte 'r') : s'.read b rest = s.read b rest := by
  obtain ⟨frames, pending, afterName, region⟩ := s
  obtain ⟨frames', pending', afterName', region'⟩ := s'
  obtain ⟨hf, hp⟩ := atRest_iff.mp hs
  obtain ⟨hf', hp'⟩ := atRest_iff.mp hs'
  subst hf hp hf' hp'
  have hopen : opening? afterName' b rest = opening? afterName b rest := by
    rcases h with heq | hne
    · exact congrArg (opening? · b rest) heq
    · exact opening?_eq_of_ne hne _ _ _
  simp only [read, hopen]
  cases opening? afterName b rest <;> rfl

/-- A byte that no comment and no literal starts with is code. -/
theorem exists_read_code (hs : s.atRest = true) (hb : isSilent b = true) (hr : b ≠ byte 'r')
    (rest : Text) : ∃ t, s.read b rest = some t ∧ t.region = .code := by
  obtain ⟨frames, pending, afterName, region⟩ := s
  obtain ⟨hf, hp⟩ := atRest_iff.mp hs
  subst hf hp
  simp only [isSilent, Bool.and_eq_true, Bool.not_eq_true', bne_iff_ne] at hb
  have hnone : opening? afterName b rest = none := opening?_eq_none hb.2 hb.1 (absurd · hr)
  exact ⟨{ afterName := Byte.isIdentifier b }, by simp only [read, hnone], rfl⟩

/-- What is read in front of a place does not tell what follows the place, where no delimiter goes
over it. -/
theorem run_inert_append (hs : s.Coherent (u ++ w ++ y)) (h : s.run y (u ++ w) = some t)
    (ht : t.pending = 0) (hz : Inert z) : s.run (w ++ z) u = s.run (w ++ y) u := by
  induction u generalizing s with
  | nil => rfl
  | cons b u ih =>
    rw [List.cons_append] at hs h
    obtain ⟨r, hr, -, h⟩ := exists_of_runUntil_cons h
    rw [run, run, runUntil_cons, runUntil_cons, ← List.append_assoc, ← List.append_assoc]
    rcases read_inert hs hz with heq | ⟨r', hr', hlt⟩
    · rw [heq, hr, Option.bind_some, Option.bind_some, if_neg (by simp), if_neg (by simp)]
      exact ih (hs.read hr) h
    · obtain rfl := Option.some.inj (hr.symm.trans hr')
      have hpending := pending_runUntil h
      omega

/-! ## Readers that tell the same -/

/-- Two readers tell the same region for every byte of a text that is not blank. -/
def Alike (s s' : Reader) (w : Text) : Prop :=
  ∀ (pos : Nat) (b : Byte), w[pos]? = some b → Byte.isSpace b = false →
    (s'.regions [] w)[pos]? = (s.regions [] w)[pos]?

/-- Two readers in plain code are alike, unless a name ends in front of one of them and an `r`
follows. -/
theorem alike_of_atRest (hs : s.atRest = true) (hs' : s'.atRest = true)
    (h : s'.afterName = s.afterName ∨ ∀ b ∈ w.head?, b ≠ byte 'r') : s.Alike s' w := by
  intro pos b _ _
  cases w with
  | nil => rfl
  | cons x w =>
    have hread : s'.read x (w ++ []) = s.read x (w ++ []) :=
      read_eq_of_atRest hs hs' (h.imp_right fun h => h x rfl)
    rw [regions, regions, trace, trace, hread]

/-- Blanks in front of a text do not matter. -/
theorem alike_of_spaces (hw : ∀ b ∈ w, Byte.isSpace b = true) (h : s.run y w = some t)
    (h' : s'.run y w = some t') (halike : t.Alike t' y) : s.Alike s' (w ++ y) := by
  intro pos b hget hb
  have hlt : w.length ≤ pos := by
    by_contra hlt
    rw [List.getElem?_append_left (by omega)] at hget
    rw [hw b (List.mem_of_getElem? hget)] at hb
    exact absurd hb (by simp)
  rw [List.getElem?_append_right hlt] at hget
  have hrun : s.run (y ++ []) w = some t := by rwa [List.append_nil]
  have hrun' : s'.run (y ++ []) w = some t' := by rwa [List.append_nil]
  rw [regions_append hrun, regions_append hrun',
    List.getElem?_append_right (by rwa [length_regions hrun']),
    List.getElem?_append_right (by rwa [length_regions hrun]), length_regions hrun',
    length_regions hrun]
  exact halike _ b hget hb

end Reader

/-! ## The regions of a text -/

/-- The region of the byte at an offset, when a text is read from its start. -/
def regionAt? (t : Text) (pos : Nat) : Option Region := (({} : Reader).regions [] t)[pos]?

section Text

variable {a b v : Text} {s t : Reader} {x : Byte} {pos : Nat} {region : Region}

/-- The region of an offset is told in the piece that the offset lies in. -/
theorem regionAt?_append (h : ({} : Reader).run b a = some s) :
    regionAt? (a ++ b) pos = if pos < a.length then (({} : Reader).regions b a)[pos]?
      else (s.regions [] b)[pos - a.length]? := by
  have hrun : ({} : Reader).run (b ++ []) a = some s := by rwa [List.append_nil]
  have hlength := Reader.length_regions h
  rw [regionAt?, Reader.regions_append hrun, List.append_nil]
  split
  · exact List.getElem?_append_left (by omega)
  · rw [List.getElem?_append_right (by omega), hlength]

theorem coherent_start (t : Text) : ({} : Reader).Coherent t :=
  Reader.coherent_of_frames_eq_nil rfl rfl

/-- Behind a byte of code a reader that was started with the text is in plain code. -/
theorem run_of_regionAt?_code (h : regionAt? (a ++ x :: b) a.length = some .code) :
    ({} : Reader).run b (a ++ [x]) = some { afterName := Byte.isIdentifier x } := by
  obtain ⟨r, t, hrun, hread, hregion⟩ := Reader.exists_of_regions h
  rw [List.append_nil] at hrun hread
  have hsettled : r.Settled := (Reader.settled_of_atRest rfl).run hrun
  obtain rfl := hsettled.eq_of_read hread hregion
  exact (Reader.runUntil_append_of hrun).trans (Reader.runUntil_cons_of_read hread rfl)

end Text

/-! ## Insertions that respect the regions -/

/-- An insertion starts, behind its blanks, in code, and every byte of the text that is not blank
keeps its region. -/
structure Respects (i : Insertion) (t : Text) : Prop where
  offset_le : i.offset ≤ t.length
  starts : ∃ b, (i.into t)[i.start]? = some b ∧ Byte.isSpace b = false ∧
    regionAt? (i.into t) i.start = some .code
  keeps : ∀ (pos : Nat) (b : Byte), t[pos]? = some b → Byte.isSpace b = false →
    regionAt? (i.into t) (i.shift pos) = regionAt? t pos

/-- Text respects the regions where it starts in code and brings the reader to where it tells the
same of what follows. In front of the place the reader runs as before; behind it the two readers are
alike. -/
theorem respects_of_run {a b blanks w : Text} {x : Byte} {s r t : Reader}
    (hs : ({} : Reader).run b a = some s) (hp : s.pending = 0)
    (hinert : Inert (blanks ++ x :: w ++ b)) (hblanks : ∀ c ∈ blanks, Byte.isSpace c = true)
    (hx : Byte.isSpace x = false ∧ Reader.isSilent x = true ∧ x ≠ byte 'r')
    (hr : s.run (x :: w ++ b) blanks = some r) (hrest : r.atRest = true)
    (ht : s.run b (blanks ++ x :: w) = some t) (halike : s.Alike t b) :
    Respects ⟨a.length, blanks ++ x :: w⟩ (a ++ b) := by
  have hinto : Insertion.into ⟨a.length, blanks ++ x :: w⟩ (a ++ b) =
      a ++ (blanks ++ x :: w ++ b) := by
    rw [Insertion.into, List.take_left, List.drop_left]
  have hmoved : ({} : Reader).run (blanks ++ x :: w ++ b) a = some s :=
    Reader.runUntil_inert (coherent_start _) hs hp hinert
  have hrun : s.run (b ++ []) (blanks ++ x :: w) = some t := by rwa [List.append_nil]
  have hregions := Reader.regions_append hrun
  rw [List.append_nil] at hregions
  have hstart : Insertion.start ⟨a.length, blanks ++ x :: w⟩ = a.length + blanks.length := by
    rw [Insertion.start, List.takeWhile_append_of_pos hblanks,
      List.takeWhile_cons_of_neg (by simp [hx.1]), List.append_nil]
  refine ⟨by simp, ⟨x, ?_, hx.1, ?_⟩, fun pos c hget hc => ?_⟩
  · rw [hinto, hstart, List.getElem?_append_right (by omega), Nat.add_sub_cancel_left,
      List.append_assoc, List.getElem?_append_right (by omega), Nat.sub_self]
    rfl
  · obtain ⟨q, hread, hcode⟩ := Reader.exists_read_code hrest hx.2.1 hx.2.2 (w ++ b)
    rw [hinto, hstart, regionAt?_append hmoved, if_neg (by omega), Nat.add_sub_cancel_left,
      hregions, List.getElem?_append_left (by rw [Reader.length_regions ht]; simp),
      Reader.regions_append hr, List.getElem?_append_right (by rw [Reader.length_regions hr]),
      Reader.length_regions hr, Nat.sub_self, Reader.regions_cons_of_read hread, hcode]
    rfl
  · rw [hinto, Insertion.shift, regionAt?_append hmoved, regionAt?_append hs]
    dsimp only
    by_cases hpos : pos < a.length
    · rw [if_pos hpos, if_pos hpos, if_pos hpos, Reader.regions, Reader.regions,
        Reader.trace_inert (coherent_start _) hs hp hinert]
    · rw [if_neg hpos, if_neg (by omega), if_neg hpos, hregions,
        List.getElem?_append_right (by rw [Reader.length_regions ht]; omega),
        Reader.length_regions ht]
      rw [List.getElem?_append_right (by omega)] at hget
      rw [← halike _ c hget hc]
      congr 1
      omega

/-- Insertions into a text, made from the last to the first, each of which respects the regions of
the text it is made into. -/
inductive RespectAll (doc : Text) : List Insertion → Prop
  | nil : RespectAll doc []
  | cons {i l} (h : RespectAll doc l) (hi : Respects i (l.foldr Insertion.into doc)) :
      RespectAll doc (i :: l)

namespace RespectAll

variable {doc : Text} {l : List Insertion}

theorem append {more : List Insertion} (h : RespectAll doc l)
    (hmore : RespectAll (l.foldr Insertion.into doc) more) : RespectAll doc (more ++ l) := by
  induction hmore with
  | nil => exact h
  | cons _ hi ih => exact ih.cons (by rwa [List.foldr_append])

/-- Bytes that are not blank are moved and keep their regions. -/
theorem keeps (h : RespectAll doc l) {pos : Nat} {b : Byte} (hget : doc[pos]? = some b)
    (hb : Byte.isSpace b = false) :
    (l.foldr Insertion.into doc)[Insertion.place l pos]? = some b ∧
      regionAt? (l.foldr Insertion.into doc) (Insertion.place l pos) = regionAt? doc pos := by
  induction h with
  | nil => exact ⟨hget, rfl⟩
  | cons _ hi ih =>
    rw [List.foldr_cons, Insertion.place_cons, Insertion.getElem?_into hi.offset_le]
    exact ⟨ih.1, (hi.keeps _ b ih.1 hb).trans ih.2⟩

/-- Every insertion starts in code, and the later ones leave it there. -/
theorem starts (h : RespectAll doc l) {later earlier : List Insertion} {i : Insertion}
    (hl : l = later ++ i :: earlier) :
    ∃ b, (l.foldr Insertion.into doc)[Insertion.place later i.start]? = some b ∧
      Byte.isSpace b = false ∧
      regionAt? (l.foldr Insertion.into doc) (Insertion.place later i.start) = some .code := by
  induction h generalizing later with
  | nil => simp at hl
  | cons _ hi ih =>
    cases later with
    | nil =>
      obtain ⟨rfl, rfl⟩ := List.cons.inj hl
      exact hi.starts
    | cons j later =>
      obtain ⟨rfl, htail⟩ := List.cons.inj hl
      obtain ⟨b, hget, hb, hcode⟩ := ih htail
      rw [List.foldr_cons, Insertion.place_cons, Insertion.getElem?_into hi.offset_le]
      exact ⟨b, hget, hb, (hi.keeps _ b hget hb).trans hcode⟩

end RespectAll

/-! ## What is inserted -/

/-- Neutral text keeps a reader that was just started in plain code. -/
theorem Neutral.run {w : Text} (hw : Neutral w) (rest : Text) :
    ∃ t, ({} : Reader).run rest w = some t ∧ t.atRest = true := by
  obtain ⟨a, ha⟩ := hw.follow rest (s := Reader.inside (byte ')')) rfl rfl
  obtain ⟨t, ht, hwithin⟩ := (within_inside _).follow ha
  refine ⟨t, ht, hwithin.atRest_of_bracket ((Reader.settled_of_atRest rfl).run ht)
    ((coherent_start (w ++ rest)).runUntil ht) (fun frame hframe => ?_) rfl⟩
  rw [List.mem_singleton.mp hframe]
  exact ⟨_, rfl⟩

namespace Reader

/-- A reader knows the last byte of a stretch. -/
theorem afterName_run {s t : Reader} {rest w : Text} {x : Byte}
    (h : s.run rest (w ++ [x]) = some t) : t.afterName = Byte.isIdentifier x := by
  rw [run, runUntil_append] at h
  obtain ⟨r, -, h⟩ := Option.bind_eq_some_iff.mp h
  obtain ⟨q, hq, -, h⟩ := exists_of_runUntil_cons h
  obtain rfl := Option.some.inj h
  exact afterName_read hq

section Seams

variable {c x : Byte} {front tail a sep n layout nl indent w : Text} {pos : Nat}
  {s s₁ s₂ s₃ : Reader}

/-- Layout keeps a reader in plain code. -/
theorem exists_run_layout (hs : s.atRest = true) (hw : ∀ b ∈ w, isLayout b = true) (rest : Text) :
    ∃ t, s.run rest w = some t ∧ t.atRest = true := by
  have hlayout : ∀ b, isLayout b → isSilent b ∧ b ≠ byte 'r' := by decide +kernel
  have hlast : w.getLast? ≠ some (byte 'r') := fun hr =>
    (hlayout _ (hw _ (List.mem_of_getLast? hr))).2 rfl
  obtain ⟨t, ht, hrest, -⟩ := exists_run_silent hs (fun b hb => (hlayout b (hw b hb)).1)
    fun hr => absurd hr hlast
  exact ⟨t, ht, hrest⟩

/-- The readers in front of the comma of an inserted element, in front of its lines and in front of
the closer, when the text is read from its start. -/
structure Seams (c : Byte) (front tail a sep n layout : Text) (s₁ s₂ s₃ : Reader) : Prop where
  run_code : ({} : Reader).run (n ++ layout ++ tail) (front ++ a) = some s₁
  run_content : ({} : Reader).run (layout ++ tail) (front ++ a ++ n) = some s₂
  run_layout : s₂.run tail layout = some s₃
  pending_eq : s₂.pending = 0
  exists_run_lineBreak : ∀ nl, Text.IsLineBreak nl → ∀ rest,
    ∃ r, s₂.run rest nl = some r ∧ r.atRest = true
  atRest : s₃.atRest = true
  isLayout_of_mem : ∀ b ∈ layout, isLayout b = true
  head?_tail : ∀ b ∈ tail.head?, isCloser b = true
  sep_spec : sep = [] ∨ sep = [byte ','] ∧ s₁.atRest = true ∧ ∀ b ∈ n.head?, b ≠ byte 'r'

/-- The readers in a bracket that stands in code are those of the text. -/
theorem Contents.exists_seams (h : Contents c tail a sep n layout pos)
    (hfront : ({} : Reader).run (a ++ (n ++ layout) ++ tail) front = some {}) :
    ∃ s₁ s₂ s₃, Seams c front tail a sep n layout s₁ s₂ s₃ := by
  obtain ⟨s₁, u₁, s₂, u₂, l, hpieces⟩ := h.exists_pieces
  obtain ⟨s₃, u₃, hs₃, -, hlevel₃, more, rfl, hclose⟩ := exists_level_of_lengthToRest h.closed
  have hcode : ({} : Reader).run (n ++ layout ++ c :: more) (front ++ a) = some s₁ :=
    (runUntil_append_of (by simpa using hfront)).trans hpieces.passes_code.run
  refine ⟨s₁, s₂, s₃, hcode, (runUntil_append_of (by simpa using hcode)).trans
    hpieces.passes_content.run, ?_, ?_, fun nl hnl rest => ?_, hlevel₃.atRest, h.isLayout_of_mem,
    fun b hb => ?_, ?_⟩
  · rw [← hs₃, ← List.append_assoc]
    symm
    refine runUntil_append_of ((runUntil_append_of ?_).trans hpieces.passes_content.run)
    simpa using hpieces.passes_code.run
  · rcases hpieces.level_or_inLine with hlevel | hline
    · exact (atRest_iff.mp hlevel.atRest).2
    · exact hline.pending_eq
  · obtain ⟨r, _, hbreak, hlevel⟩ := exists_passes_lineBreak hpieces.level_or_inLine hnl rest
    exact ⟨r, hbreak.run, hlevel.atRest⟩
  · obtain rfl : c = b := Option.some.inj hb
    exact hclose
  · exact hpieces.sep_spec.imp And.left fun h => ⟨h.1, h.2.1.atRest, h.2.2.1⟩

/-- An element on lines of its own respects the regions. In front of the layout the readers may
differ, since one of them may be in a comment, but not behind it. -/
theorem Seams.respects_lines (h : Seams c front tail a sep n layout s₁ s₂ s₃)
    (hnl : Text.IsLineBreak nl) (hindent : ∀ b ∈ indent, isLayout b = true)
    (hx : Byte.isSpace x = false ∧ isSilent x = true ∧ x ≠ byte 'r')
    (hw : ∀ b ∈ w, isSilent b = true) (hlast : (x :: w).getLast? ≠ some (byte 'r')) :
    Respects ⟨(front ++ a ++ n).length, nl ++ indent ++ x :: w⟩
      (front ++ a ++ n ++ (layout ++ tail)) := by
  obtain ⟨r, hr, hrest⟩ := h.exists_run_lineBreak nl hnl (indent ++ (x :: w ++ (layout ++ tail)))
  obtain ⟨q, hq, hqrest⟩ := exists_run_layout hrest hindent (x :: w ++ (layout ++ tail))
  obtain ⟨t, ht, htrest, -⟩ : ∃ t, q.run (layout ++ tail) (x :: w) = some t ∧ t.atRest = true ∧ _ :=
    exists_run_silent hqrest (List.forall_mem_cons.mpr ⟨hx.2.1, hw⟩) fun hr => absurd hr hlast
  obtain ⟨t₃, ht₃, htrest₃⟩ := exists_run_layout htrest h.isLayout_of_mem tail
  have hbefore : s₂.run (x :: w ++ (layout ++ tail)) (nl ++ indent) = some q :=
    (runUntil_append_of hr).trans hq
  have hblanks : ∀ b ∈ nl ++ indent, isLayout b = true :=
    List.forall_mem_append.mpr ⟨isLayout_of_isLineBreak hnl, hindent⟩
  have hinert : Inert (nl ++ indent ++ x :: w ++ (layout ++ tail)) := by
    simpa using inert_lineBreak hnl _
  refine respects_of_run h.run_content h.pending_eq hinert
    (fun b hb => Byte.isSpace_of_isLayout b (hblanks b hb)) hx hbefore hqrest
    ((runUntil_append_of hbefore).trans ht) ?_
  refine alike_of_spaces (fun b hb => Byte.isSpace_of_isLayout b (h.isLayout_of_mem b hb))
    h.run_layout ht₃ (alike_of_atRest h.atRest htrest₃ (Or.inr fun b hb heq => ?_))
  have hcloser := h.head?_tail b hb
  rw [heq] at hcloser
  exact absurd hcloser (by decide)

/-- The comma that the last element lacks respects the regions of the text that has the lines of the
next one. -/
theorem Seams.respects_comma (h : Seams c front tail a [byte ','] n layout s₁ s₂ s₃)
    (hnl : Text.IsLineBreak nl) :
    Respects ⟨(front ++ a).length, [byte ',']⟩ (front ++ a ++ (n ++ (nl ++ w))) := by
  obtain ⟨-, hrest, hn⟩ := h.sep_spec.resolve_left (by simp)
  have hmoved : ({} : Reader).run (n ++ (nl ++ w)) (front ++ a) = some s₁ := by
    rw [run_inert_append (coherent_start _) h.run_content h.pending_eq (inert_lineBreak hnl w),
      ← List.append_assoc, h.run_code]
  have hcomma : Respects ⟨(front ++ a).length, [] ++ [byte ',']⟩ _ :=
    respects_of_run hmoved (atRest_iff.mp hrest).2 (inert_cons.mpr rfl) (by simp) (by decide) rfl
      hrest (runUntil_cons_of_read (read_comma hrest _) rfl)
      (alike_of_atRest hrest hrest (Or.inr fun b hb => ?_))
  · exact hcomma
  · cases n with
    | nil =>
      rcases hnl with rfl | rfl <;>
      · rw [← Option.some.inj hb]
        decide
    | cons d n => exact hn b hb

/-- An element on lines of its own, and the comma in front of it where one is lacking, respect the
regions of the text around a bracket that stands in code. -/
theorem Contents.respectAll (h : Contents c tail a sep n layout pos)
    (hfront : ({} : Reader).run (a ++ (n ++ layout) ++ tail) front = some {})
    (hnl : Text.IsLineBreak nl) (hindent : ∀ b ∈ indent, isLayout b = true)
    (hx : Byte.isSpace x = false ∧ isSilent x = true ∧ x ≠ byte 'r')
    (hw : ∀ b ∈ w, isSilent b = true) (hlast : (x :: w).getLast? ≠ some (byte 'r')) :
    RespectAll (front ++ a ++ n ++ (layout ++ tail))
      (sep.map (fun b => { offset := (front ++ a).length, text := [b] }) ++
        [{ offset := (front ++ a ++ n).length, text := nl ++ indent ++ x :: w }]) := by
  obtain ⟨s₁, s₂, s₃, hseams⟩ := h.exists_seams hfront
  refine .append (.cons .nil (hseams.respects_lines hnl hindent hx hw hlast)) ?_
  rcases hseams.sep_spec with rfl | ⟨rfl, -⟩
  · exact .nil
  · have hcomma := hseams.respects_comma hnl (w := indent ++ x :: w ++ (layout ++ tail))
    refine .cons .nil ?_
    rw [List.foldr_cons, List.foldr_nil, Insertion.into, List.take_left, List.drop_left]
    simpa using hcomma

end Seams

end Reader

end Dart

end FlutterScaffold
