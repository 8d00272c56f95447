import FlutterScaffold.Proofs.Dart.Stretch
import FlutterScaffold.Proofs.Registry.Placement
import FlutterScaffold.Proofs.Registry.Recognition

/-!
# Where an entry goes

The content of a list ends in front of the layout that precedes its closer. An entry is written
there, on lines of its own, and a comma goes right behind the last byte of code before it when there
is code that has none (`exists_site`). So an inserted entry is always recognized
(`declares_entryLines_mergeEntry`).
-/

namespace FlutterScaffold.Registry

open FlutterScaffold.Text (firstLine block splice IsLineBreak)
open Byte (newline isBlank isLayout isMargin)

/-- The indentation of an entry: that of the last line of code, or two blanks more than the line
that opens a list without code. -/
def entryIndent (doc : Text) (start closer : Nat) : Text :=
  match Dart.lastCode? doc start closer with
  | none => Text.lineIndent doc (beforeContent doc start) ++ lit "  "
  | some last => Text.lineIndent doc last

theorem isBlank_of_mem_entryIndent {doc : Text} {start closer : Nat} :
    ∀ x ∈ entryIndent doc start closer, isBlank x := by
  rw [entryIndent]
  split
  · exact List.forall_mem_append.mpr
      ⟨fun x => Text.isBlank_of_mem_lineIndent, List.all_eq_true.mp rfl⟩
  · exact fun x => Text.isBlank_of_mem_lineIndent

/-- The insertion that writes an entry behind the content of its list. -/
def entryInsertion (spec : AnchorSpec) (doc : Text) (start closer : Nat) (route : Route) :
    Insertion where
  offset := contentEnd doc start closer
  text := block (Text.lineBreak doc) (entryIndent doc start closer) (entryLines spec route) ++
    (if ((doc.take closer).drop (contentEnd doc start closer)).contains newline then []
      else Text.lineBreak doc ++ Text.lineIndent doc closer)

/-- A document cut where an entry is appended to the list between `start` and `closer`. -/
@[ext]
structure EntrySite (doc : Text) (start closer : Nat) where
  /-- Everything up to the place of the comma. -/
  code : Text
  /-- The comma, where the last element lacks one. -/
  comma : Text
  /-- The rest of the content. -/
  content : Text
  /-- The layout in front of the closer. -/
  layout : Text
  /-- The closer and what follows it. -/
  rest : Text
  /-- The indentation of the entry. -/
  indent : Text
  eq_append : doc = code ++ (content ++ (layout ++ rest))
  start_le : start ≤ (code ++ content).length
  length_eq : (code ++ content ++ layout).length = closer
  isLayout_of_mem : ∀ x ∈ layout, isLayout x
  isLayout_of_getLast : start < (code ++ content).length →
    ∀ x ∈ (code ++ content).getLast?, isLayout x = false
  indent_eq : indent = entryIndent doc start closer
  comma_spec : (comma = [] ∧ content = [] ∧
      ∀ last, Dart.lastCode? doc start closer = some last → doc[last]? = some (byte ',')) ∨
    (comma = [byte ','] ∧ ∃ last, Dart.lastCode? doc start closer = some last ∧
      doc[last]? ≠ some (byte ',') ∧ code.length = last + 1)

namespace EntrySite

variable {doc : Text} {start closer : Nat} (site : EntrySite doc start closer)

theorem isBlank_of_mem : ∀ x ∈ site.indent, isBlank x := by
  rw [site.indent_eq]
  exact isBlank_of_mem_entryIndent

/-- The line that the closer is moved to when it shared one with the content. -/
def closing : Text :=
  if newline ∈ site.layout then [] else Text.lineBreak doc ++ Text.lineIndent doc closer

/-- The document with an entry. -/
def entered (spec : AnchorSpec) (route : Route) : Text :=
  site.code ++ (site.comma ++ (site.content ++
    (block (Text.lineBreak doc) site.indent (entryLines spec route) ++
      (site.closing ++ (site.layout ++ site.rest)))))

/-- Nothing but blanks stands between the entry and the end of its line. -/
theorem isMargin_of_mem_firstLine :
    ∀ x ∈ firstLine (site.closing ++ (site.layout ++ site.rest)), isMargin x := by
  intro x hx
  rw [closing] at hx
  split at hx
  · rename_i hmem
    rw [List.nil_append, Text.firstLine_append_of_mem hmem] at hx
    have hlayout := site.isLayout_of_mem x ((List.takeWhile_prefix _).subset hx)
    have hne : x ≠ newline := fun h => Text.newline_not_mem_firstLine _ (h ▸ hx)
    exact Byte.isMargin_of_isLayout x hlayout hne
  · rcases Text.isLineBreak_lineBreak doc with h | h
    · rw [h] at hx
      simp [firstLine] at hx
    · rw [h] at hx
      have hcr : firstLine (Text.crlf ++ Text.lineIndent doc closer ++ (site.layout ++ site.rest)) =
          [Byte.carriageReturn] := rfl
      rw [hcr] at hx
      rw [List.mem_singleton.mp hx]
      rfl

/-- The content ends in front of all layout that precedes the closer. -/
theorem length_content : (site.code ++ site.content).length = contentEnd doc start closer := by
  have htake : doc.take closer = site.code ++ site.content ++ site.layout := by
    have hdoc : doc = site.code ++ site.content ++ site.layout ++ site.rest := by
      simpa only [List.append_assoc] using site.eq_append
    exact (congrArg (List.take closer) hdoc).trans (List.take_left' site.length_eq)
  have hbetween : ((doc.take closer).drop start).reverse.takeWhile isLayout =
      site.layout.reverse := by
    rw [htake, List.drop_append_of_le_length site.start_le, List.reverse_append,
      List.takeWhile_append_of_pos (by simpa using site.isLayout_of_mem)]
    rcases Nat.eq_or_lt_of_le site.start_le with heq | hlt
    · rw [List.drop_eq_nil_of_le heq.ge]
      simp
    · cases hlast : ((site.code ++ site.content).drop start).reverse with
      | nil => simp
      | cons x more =>
        have hx : (site.code ++ site.content).getLast? = some x := by
          rw [← List.take_append_drop start (site.code ++ site.content),
            List.getLast?_append_of_ne_nil _ (by simpa using hlt), List.getLast?_eq_head?_reverse,
            hlast]
          rfl
        simp [site.isLayout_of_getLast hlt x hx]
  have hlen := site.length_eq
  rw [List.length_append] at hlen
  rw [contentEnd, hbetween, List.length_reverse]
  omega

/-- An entry has one place. -/
instance : Subsingleton (EntrySite doc start closer) where
  allEq := by
    intro x y
    have hcut : x.code ++ x.content ++ (x.layout ++ x.rest) =
        y.code ++ y.content ++ (y.layout ++ y.rest) := by
      simpa only [List.append_assoc] using x.eq_append.symm.trans y.eq_append
    obtain ⟨hcontent, hrest⟩ := List.append_inj hcut (x.length_content.trans y.length_content.symm)
    obtain ⟨hlayout, hrest⟩ := List.append_inj hrest (by
      have hx := x.length_eq
      have hy := y.length_eq
      rw [hcontent] at hx
      rw [List.length_append] at hx hy
      omega)
    have hindent := x.indent_eq.trans y.indent_eq.symm
    obtain ⟨hcode, hcomma⟩ : x.code.length = y.code.length ∧ x.comma = y.comma := by
      rcases x.comma_spec with ⟨hx, hxnil, hxlast⟩ | ⟨hx, last, hlast, hne, hxlen⟩ <;>
        rcases y.comma_spec with ⟨hy, hynil, hylast⟩ | ⟨hy, last', hlast', hne', hylen⟩
      · refine ⟨?_, hx.trans hy.symm⟩
        rw [hxnil, hynil, List.append_nil, List.append_nil] at hcontent
        rw [hcontent]
      · exact absurd (hxlast _ hlast') hne'
      · exact absurd (hylast _ hlast) hne
      · obtain rfl := Option.some.inj (hlast.symm.trans hlast')
        exact ⟨hxlen.trans hylen.symm, hx.trans hy.symm⟩
    obtain ⟨hcode, hcontent⟩ := List.append_inj hcontent hcode
    exact EntrySite.ext hcode hcomma hcontent hlayout hrest hindent

end EntrySite

/-- The last byte of code in a list stands in front of its closer and is no layout. -/
theorem lastCode?_lt_of_listClose? {spec : AnchorSpec} {doc : Text} {o closer : Nat}
    (h : spec.listClose? doc o = some closer) :
    ∀ last, Dart.lastCode? doc (spec.listStart o) closer = some last →
      last < closer ∧ ∃ b, doc[last]? = some b ∧ isLayout b = false := by
  obtain ⟨opener, hopener, hmatch⟩ := exists_of_listClose? h
  rw [hopener]
  exact fun last => Dart.lastCode?_lt_of_matchingBracket hmatch

/-- The content of a list and the layout in front of its closer. The layout is read from the closer
backwards. -/
theorem exists_content {doc : Text} {start closer : Nat} (hstart : start ≤ closer)
    (hcloser : closer ≤ doc.length) :
    ∃ content layout rest, doc = content ++ (layout ++ rest) ∧
      (content ++ layout).length = closer ∧ content.length = contentEnd doc start closer ∧
      (∀ x ∈ layout, isLayout x) ∧
      (start < content.length → ∀ x ∈ content.getLast?, isLayout x = false) := by
  obtain ⟨between, hbetween⟩ : ∃ between, between = (doc.take closer).drop start := ⟨_, rfl⟩
  obtain ⟨layout, hlayout⟩ : ∃ layout, layout = (between.reverse.takeWhile isLayout).reverse :=
    ⟨_, rfl⟩
  obtain ⟨inner, hinner⟩ : ∃ inner, inner = (between.reverse.dropWhile isLayout).reverse := ⟨_, rfl⟩
  have hcut : between = inner ++ layout := by
    rw [hinner, hlayout, ← List.reverse_append, List.takeWhile_append_dropWhile,
      List.reverse_reverse]
  have htake : doc.take closer = doc.take start ++ (inner ++ layout) := by
    have h := List.take_append_drop start (doc.take closer)
    rw [List.take_take, Nat.min_eq_left hstart, ← hbetween, hcut] at h
    exact h.symm
  have hlen : (doc.take start ++ inner ++ layout).length = closer := by
    rw [List.append_assoc, ← htake, List.length_take, Nat.min_eq_left hcloser]
  refine ⟨doc.take start ++ inner, layout, doc.drop closer, ?_, hlen, ?_, ?_, ?_⟩
  · rw [← List.append_assoc, List.append_assoc (doc.take start), ← htake, List.take_append_drop]
  · have hlength := congrArg List.length hlayout
    rw [List.length_reverse] at hlength
    rw [List.length_append] at hlen
    rw [contentEnd, ← hbetween, ← hlength]
    omega
  · intro x hx
    rw [hlayout, List.mem_reverse] at hx
    exact List.all_eq_true.mp List.all_takeWhile x hx
  · intro hlt x hx
    have hne : inner ≠ [] := by
      rintro rfl
      rw [List.append_nil, List.length_take] at hlt
      omega
    rw [List.getLast?_append_of_ne_nil _ hne, hinner, List.getLast?_reverse] at hx
    have hhead := List.head?_dropWhile_not isLayout between.reverse
    rw [hx] at hhead
    simpa using hhead

/-- A byte in front of the closer that is no layout belongs to the content of the list. -/
theorem lt_contentEnd {doc : Text} {start closer p : Nat} {b : Byte} (hstart : start ≤ closer)
    (hcloser : closer ≤ doc.length) (hp : p < closer) (hb : doc[p]? = some b)
    (hbare : isLayout b = false) : p < contentEnd doc start closer := by
  obtain ⟨content, layout, rest, rfl, hlen, htail, hlayout, -⟩ := exists_content hstart hcloser
  rw [← htail]
  by_contra hge
  rw [List.length_append] at hlen
  rw [List.getElem?_append_right (by omega), List.getElem?_append_left (by omega)] at hb
  rw [hlayout b (List.mem_of_getElem? hb)] at hbare
  exact absurd hbare (by simp)

/-- An entry is inserted behind the content of its list, and a comma behind the last byte of code
that is none. -/
theorem appendEntry_insertions (spec : AnchorSpec) (doc : Text) (start closer : Nat) :
    ((∀ last, Dart.lastCode? doc start closer = some last → doc[last]? = some (byte ',')) ∧
        ∀ route, (appendEntry spec doc start closer route).insertions =
          [entryInsertion spec doc start closer route]) ∨
      ∃ last, Dart.lastCode? doc start closer = some last ∧ doc[last]? ≠ some (byte ',') ∧
        ∀ route, (appendEntry spec doc start closer route).insertions =
          [{ offset := last + 1, text := [byte ','] },
            entryInsertion spec doc start closer route] := by
  cases hcode : Dart.lastCode? doc start closer with
  | none =>
    refine Or.inl ⟨by simp, fun route => ?_⟩
    simp only [appendEntry, entryInsertion, entryIndent, hcode]
    rfl
  | some last =>
    by_cases hcomma : doc[last]? = some (byte ',')
    · refine Or.inl ⟨fun last' h => Option.some.inj h ▸ hcomma, fun route => ?_⟩
      simp only [appendEntry, entryInsertion, entryIndent, hcode, hcomma, if_true]
      rfl
    · refine Or.inr ⟨last, rfl, hcomma, fun route => ?_⟩
      simp only [appendEntry, entryInsertion, entryIndent, hcode, hcomma, if_false]
      rfl

namespace EntrySite

variable {doc : Text} {start closer : Nat} (site : EntrySite doc start closer)

/-- What is inserted where an entry goes. -/
def insertions (spec : AnchorSpec) (route : Route) : List Insertion :=
  site.comma.map (fun b => { offset := site.code.length, text := [b] }) ++
    [{ offset := (site.code ++ site.content).length
       text := block (Text.lineBreak doc) site.indent (entryLines spec route) ++ site.closing }]

theorem entryInsertion_eq (spec : AnchorSpec) (route : Route) :
    entryInsertion spec doc start closer route =
      { offset := (site.code ++ site.content).length
        text := block (Text.lineBreak doc) site.indent (entryLines spec route) ++
          site.closing } := by
  have hmoved : (doc.take closer).drop (contentEnd doc start closer) = site.layout := by
    have hdoc : doc = site.code ++ site.content ++ site.layout ++ site.rest := by
      simpa only [List.append_assoc] using site.eq_append
    have htake : doc.take closer = site.code ++ site.content ++ site.layout :=
      (congrArg (List.take closer) hdoc).trans (List.take_left' site.length_eq)
    rw [htake, ← site.length_content, List.drop_left]
  simp only [entryInsertion, hmoved, site.length_content, site.indent_eq, closing,
    List.contains_iff_mem]

/-- An entry is inserted at its place. -/
theorem appendEntry_insertions (spec : AnchorSpec) (route : Route) :
    (appendEntry spec doc start closer route).insertions = site.insertions spec route := by
  have hentry := site.entryInsertion_eq spec route
  rcases Registry.appendEntry_insertions spec doc start closer with
      ⟨hcomma, heq⟩ | ⟨last, hlast, hne, heq⟩ <;>
    rcases site.comma_spec with ⟨hsite, -, hcomma'⟩ | ⟨hsite, last', hlast', hne', hlen⟩
  · rw [heq, hentry, insertions, hsite]
    rfl
  · exact absurd (hcomma last' hlast') hne'
  · exact absurd (hcomma' last hlast) hne
  · obtain rfl := Option.some.inj (hlast.symm.trans hlast')
    rw [heq, hentry, insertions, hsite, hlen]
    rfl

/-- The document with an entry is spliced from its insertions. -/
theorem splice_insertions (spec : AnchorSpec) (route : Route) :
    splice doc (site.insertions spec route) = site.entered spec route := by
  obtain ⟨text, htext⟩ : ∃ text, text =
      block (Text.lineBreak doc) site.indent (entryLines spec route) ++ site.closing := ⟨_, rfl⟩
  have hdoc (l : List Insertion) : splice doc l =
      splice (site.code ++ (site.content ++ (site.layout ++ site.rest))) l := by
    rw [← site.eq_append]
  rw [entered, insertions, ← htext, hdoc]
  rcases site.comma_spec with ⟨hcomma, hcontent, -⟩ | ⟨hcomma, -⟩
  · rw [hcomma, hcontent, List.map_nil, List.nil_append, List.append_nil, List.nil_append,
      Text.splice_singleton, htext]
    simp
  · have hahead : ({ offset := (site.code ++ site.content).length, text } : Insertion) =
        Insertion.ahead site.code.length { offset := site.content.length, text } := by
      rw [Insertion.ahead, List.length_append]
    have htwo := Text.splice_cons_ahead site.code (site.content ++ (site.layout ++ site.rest))
      [byte ','] [{ offset := site.content.length, text }]
    rw [Text.splice_singleton] at htwo
    rw [hcomma, hahead]
    refine htwo.trans ?_
    simp [htext]

end EntrySite

/-- Every entry is appended at a place of this kind, whichever it is. -/
theorem exists_site (spec : AnchorSpec) {doc : Text} {start closer : Nat} (hstart : start ≤ closer)
    (hcloser : closer ≤ doc.length)
    (hlast : ∀ last, Dart.lastCode? doc start closer = some last →
      last < closer ∧ ∃ b, doc[last]? = some b ∧ isLayout b = false) :
    ∃ site : EntrySite doc start closer, ∀ route,
      splice doc (appendEntry spec doc start closer route).insertions =
        site.entered spec route := by
  suffices hsite : Nonempty (EntrySite doc start closer) by
    obtain ⟨site⟩ := hsite
    exact ⟨site, fun route => by rw [site.appendEntry_insertions, site.splice_insertions]⟩
  obtain ⟨content, layout, rest, hdoc, hlen, htail, hlayout, hend⟩ := exists_content hstart hcloser
  have hstart' : start ≤ content.length := htail ▸ (contentEnd_bounds doc hstart).1
  rcases appendEntry_insertions spec doc start closer with ⟨hcomma, -⟩ | ⟨last, hcode, hcomma, -⟩
  · exact ⟨⟨content, [], [], layout, rest, _, hdoc, by simpa using hstart', by simpa using hlen,
      hlayout, by simpa using hend, rfl, Or.inl ⟨rfl, rfl, hcomma⟩⟩⟩
  · obtain ⟨hlt, b, hb, hbare⟩ := hlast last hcode
    have hle : last + 1 ≤ content.length := htail ▸ lt_contentEnd hstart hcloser hlt hb hbare
    obtain ⟨code, more, rfl, hlength⟩ : ∃ code more, content = code ++ more ∧
        code.length = last + 1 :=
      ⟨content.take (last + 1), content.drop (last + 1), (List.take_append_drop _ _).symm, by
        rw [List.length_take, Nat.min_eq_left hle]⟩
    exact ⟨⟨code, [byte ','], more, layout, rest, _, by rw [hdoc, List.append_assoc], hstart', hlen,
      hlayout, hend, rfl, Or.inr ⟨rfl, last, hcode, hcomma, hlength⟩⟩⟩

/-! ## The entry is recognized -/

section Recognized

variable {spec : AnchorSpec} {doc : Text} {route : Route}

/-- An entry that is inserted goes between the brackets of the list. -/
theorem exists_of_mergeEntry (h : (mergeEntry spec doc (spec.scan doc) route).insertions ≠ []) :
    ∃ o closer, spec.listOpen? doc = some o ∧ spec.listClose? doc o = some closer ∧
      mergeEntry spec doc (spec.scan doc) route =
        appendEntry spec doc (spec.listStart o) closer route := by
  simp only [mergeEntry, AnchorSpec.scan] at h ⊢
  split at h
  · simp [Step.insertions] at h
  · rename_i hnot
    rw [if_neg hnot]
    split at h
    · rename_i o closer hopen hclose
      rw [hopen, Option.bind_some] at hclose
      exact ⟨o, closer, hopen, hclose, rfl⟩
    · simp [Step.insertions] at h

/-- An inserted entry is written at such a place. -/
theorem exists_site_of_mergeEntry
    (h : (mergeEntry spec doc (spec.scan doc) route).insertions ≠ []) :
    ∃ o closer, spec.listOpen? doc = some o ∧ spec.listClose? doc o = some closer ∧
      ∃ site : EntrySite doc (spec.listStart o) closer,
        splice doc (mergeEntry spec doc (spec.scan doc) route).insertions =
          site.entered spec route := by
  obtain ⟨o, closer, hopen, hclose, heq⟩ := exists_of_mergeEntry h
  obtain ⟨site, hsite⟩ := exists_site spec (listStart_le_of_listClose? hclose).1
    (listStart_le_of_listClose? hclose).2.le (lastCode?_lt_of_listClose? hclose)
  exact ⟨o, closer, hopen, hclose, site, heq ▸ hsite route⟩

theorem mergeEntry_insertions_eq_nil_iff {anchors : Anchors} :
    ((mergeEntry spec doc anchors route).insertions = [] ∧
      (mergeEntry spec doc anchors route).status ≠ .missing) ↔
      declares doc (entryLines spec route) := by
  rw [mergeEntry]
  split
  · simp_all [Step.insertions, Step.status]
  · split
    · rename_i hnot _ _ o closer _ _
      refine iff_of_false ?_ (by simpa using hnot)
      rintro ⟨hnil, -⟩
      obtain ⟨-, heq⟩ | ⟨_, -, -, heq⟩ :=
        appendEntry_insertions spec doc (spec.listStart o) closer
      · rw [heq] at hnil
        exact absurd hnil (by simp)
      · rw [heq] at hnil
        exact absurd hnil (by simp)
    · simp_all [Step.insertions, Step.status]

/-- An entry is recognized wherever it is inserted. -/
theorem declares_entryLines_mergeEntry (hs : spec.Accepted) (hr : route.Regular)
    (hstep : (mergeEntry spec doc (spec.scan doc) route).status ≠ .missing) :
    declares (splice doc (mergeEntry spec doc (spec.scan doc) route).insertions)
      (entryLines spec route) = true := by
  by_cases hnil : (mergeEntry spec doc (spec.scan doc) route).insertions = []
  · rw [hnil, Text.splice_nil]
    exact mergeEntry_insertions_eq_nil_iff.mp ⟨hnil, hstep⟩
  · obtain ⟨o, closer, -, -, site, hsite⟩ := exists_site_of_mergeEntry hnil
    have hlines : ∀ l ∈ entryLines spec route, newline ∉ l := fun l hl hmem =>
      absurd (isEntryByte_of_mem_entryLines hs hr l hl _ hmem) (by decide)
    have hentry : entryLines spec route = (entryLines spec route).dropLast ++ [lit "),"] := rfl
    have hdeclares := declares_insert_of_margin (Text.isLineBreak_lineBreak doc)
      site.isBlank_of_mem (a := site.code ++ (site.comma ++ site.content))
      (fun l hl => hlines l (List.dropLast_subset _ hl)) (hlines (lit "),") (by simp [entryLines]))
      site.isMargin_of_mem_firstLine
    rw [← hentry] at hdeclares
    rw [hsite, EntrySite.entered]
    simpa only [List.append_assoc] using hdeclares

end Recognized

end FlutterScaffold.Registry
