import FlutterScaffold.Proofs.Registry.Breaks
import FlutterScaffold.Proofs.Registry.Clean
import FlutterScaffold.Proofs.Registry.Settling

/-!
# A list with an entry

When an entry is written, the next one goes right behind it, with the same indentation and without a
comma or a line for the closer (`EntrySite.exists_entered`). The entry starts no import and changes
nothing in front of it, so a clean registry with an entry is clean (`CleanAt.addEntry`).
-/

namespace FlutterScaffold.Registry

open FlutterScaffold.Text (bareLines block firstLine lastLine IsLineBreak trim)
open FlutterScaffold.Dart (Reader)
open Byte (newline isBlank isLayout isMargin quote)

/-- The class is found in what stands in front of its closing brace. -/
theorem containerBraces?_append_inert {spec : AnchorSpec} {a y z : Text}
    {opener closer : Nat} (h : spec.containerBraces? (a ++ y) = some (opener, closer))
    (hc : closer < a.length) (hz : Dart.Inert z) :
    spec.containerBraces? (a ++ z) = some (opener, closer) ∧
      spec.constantEnd? (a ++ z) = spec.constantEnd? (a ++ y) := by
  obtain ⟨o, ho, -, hopener, hmatch⟩ := exists_of_containerBraces_eq h
  have hlt := (Dart.matchingBracket_bounds hmatch).1
  have hfound : spec.containerOpen? (a ++ z) = some o :=
    Text.indexOf?_append_of_le ho (by omega) z
  have hstart : o + spec.signature.length - 1 = opener := by omega
  have hbraces : spec.containerBraces? (a ++ z) = some (opener, closer) := by
    simp only [AnchorSpec.containerBraces?, hfound, Option.bind_eq_bind, Option.bind_some,
      hstart, Dart.matchingBracket_append_inert hmatch hc hz]
    rfl
  refine ⟨hbraces, ?_⟩
  have hbody (x : Text) : ((a ++ x).drop (opener + 1)).take (closer - (opener + 1)) =
      (a.drop (opener + 1)).take (closer - (opener + 1)) := by
    rw [List.drop_append_of_le_length (by omega), List.take_append_of_le_length (by
      rw [List.length_drop]
      omega)]
  simp only [AnchorSpec.constantEnd?, hbraces, h, Option.bind_eq_bind, Option.bind_some,
    hbody]

/-- A text whose first line is a margin does not affect what is read in front of it. -/
theorem inert_of_isMargin {t : Text} (h : ∀ y ∈ firstLine t, isMargin y) : Dart.Inert t := by
  intro b hb
  have hdelimiter : ∀ x, isMargin x → Dart.isDelimiter x = false := by decide +kernel
  by_cases hnewline : b = newline
  · rw [hnewline]
    rfl
  · refine hdelimiter b (h b ?_)
    rw [List.eq_cons_of_mem_head? hb, firstLine, List.takeWhile_cons,
      if_pos (by simpa using hnewline)]
    exact List.mem_cons_self ..

namespace EntrySite

section
variable {doc : Text} {start closer opener : Nat}

theorem closed (site : EntrySite doc start closer) (hstart : start = opener + 1)
    (h : Dart.matchingBracket doc opener = some closer) (hopen : doc[opener]? = some (byte '[')) :
    site.Closed := by
  subst hstart
  obtain ⟨before, b, c, a, rfl, hb, hcode, -, hcontents⟩ := site.exists_contents h
  obtain ⟨-, -, -, -, -, more, htail, -⟩ :=
    Dart.Reader.exists_level_of_lengthToRest hcontents.closed
  have hdoc : doc = before ++ b :: (a ++ (site.content ++ (site.layout ++ site.rest))) :=
    site.eq_append.trans (by simp [hcode])
  rw [hdoc, List.getElem?_append_right le_rfl] at hopen
  obtain rfl : b = byte '[' := by simpa using hopen
  rw [Closed, htail, List.head?_cons, Option.some.inj (hb.symm.trans rfl)]

end

/-- An addition to the text in front of a list keeps the indentation of its entries. -/
theorem entryIndent_insert {a i b : Text} {start closer : Nat} (h : Addition a i b)
    (hstart : a.length < start) :
    entryIndent (a ++ (i ++ b)) (i.length + start) (i.length + closer) =
      entryIndent (a ++ b) start closer := by
  have hbefore : beforeContent (a ++ (i ++ b)) (i.length + start) =
      i.length + beforeContent (a ++ b) start := by
    rw [beforeContent, if_neg (by omega), beforeContent, if_neg (by omega)]
    omega
  rw [entryIndent, entryIndent, Dart.lastCode?_insert hstart, hbefore]
  cases hlast : Dart.lastCode? (a ++ b) start closer with
  | none =>
    have hlt : a.length ≤ beforeContent (a ++ b) start := by
      rw [beforeContent, if_neg (by omega)]
      omega
    simp only [Option.map_none, h.lineIndent hlt]
  | some last =>
    have := (Dart.lastCode?_bounds hlast).1
    simp only [Option.map_some, h.lineIndent (o := last) (by omega)]

/-- The place of an entry behind an addition to the text in front of its list. That text reaches
past the opening bracket, so its last byte is the old one. -/
theorem exists_insert {a i b w : Text} {start closer : Nat} (h : Addition a i b)
    (site : EntrySite (a ++ b) start closer) (hstart : a.length < start)
    (hcode : site.code = a ++ w) :
    ∃ site' : EntrySite (a ++ (i ++ b)) (i.length + start) (i.length + closer),
      site'.code = a ++ (i ++ w) ∧ site'.comma = site.comma ∧ site'.content = site.content ∧
      site'.layout = site.layout ∧ site'.rest = site.rest ∧ site'.indent = site.indent ∧
      site'.closing = site.closing := by
  have hb : b = w ++ (site.content ++ (site.layout ++ site.rest)) := by
    have hcut := site.eq_append
    rwa [hcode, List.append_assoc, List.append_cancel_left_eq] at hcut
  have hlen := site.start_le
  have hclose := site.length_eq
  have hlast := site.isLayout_of_getLast
  simp only [hcode, List.length_append] at hlen hclose
  have hne : w ++ site.content ≠ [] := by
    intro hnil
    have := congrArg List.length hnil
    simp only [List.length_append, List.length_nil] at this
    omega
  refine ⟨⟨a ++ (i ++ w), site.comma, site.content, site.layout, site.rest, site.indent, ?_, ?_, ?_,
    site.isLayout_of_mem, ?_, ?_, ?_⟩, rfl, rfl, rfl, rfl, rfl, rfl, ?_⟩
  · exact (congrArg (fun x => a ++ (i ++ x)) hb).trans (by simp)
  · simp only [List.length_append]
    omega
  · simp only [List.length_append]
    omega
  · intro hlt x hx
    refine hlast ?_ x ?_
    · simp only [hcode, List.length_append] at hlt ⊢
      omega
    · rw [hcode]
      rw [List.append_assoc, List.append_assoc, ← List.append_assoc,
        List.getLast?_append_of_ne_nil _ hne] at hx
      rwa [List.append_assoc, List.getLast?_append_of_ne_nil _ hne]
  · exact site.indent_eq.trans (entryIndent_insert h hstart).symm
  · rw [Dart.lastCode?_insert hstart]
    rcases site.comma_spec with ⟨hcomma, hcontent, hlast⟩ | ⟨hcomma, last, hlast, hne, hlength⟩
    · refine Or.inl ⟨hcomma, hcontent, fun n hn => ?_⟩
      obtain ⟨last, hcode, rfl⟩ := Option.map_eq_some_iff.mp hn
      have := (Dart.lastCode?_bounds hcode).1
      rw [Text.getElem?_insert (by omega)]
      exact hlast last hcode
    · have := (Dart.lastCode?_bounds hlast).1
      refine Or.inr ⟨hcomma, i.length + last, by rw [hlast, Option.map_some], ?_, ?_⟩
      · rwa [Text.getElem?_insert (by omega)]
      · simp only [hcode, List.length_append] at hlength ⊢
        omega
  · rw [closing, closing, h.lineBreak, h.lineIndent (by omega)]

/-! ## The list with an entry -/

section Entered

variable {spec : AnchorSpec} {doc : Text} {start closer opener : Nat} {route : Route}

/-- What stands in front of an entry ends with a byte that is no layout, unless the list is
empty. -/
theorem isLayout_of_mem_getLast? (site : EntrySite doc start closer) (hstart : start = opener + 1)
    (hopen : doc[opener]? = some (byte '[')) :
    ∀ x ∈ (site.code ++ site.content).getLast?, isLayout x = false := by
  rcases Nat.eq_or_lt_of_le site.start_le with heq | hlt
  · have hdoc : doc = (site.code ++ site.content) ++ (site.layout ++ site.rest) := by
      simpa only [List.append_assoc] using site.eq_append
    have hlast : (site.code ++ site.content).getLast? = some (byte '[') := by
      have hlen : (site.code ++ site.content).length = opener + 1 := heq.symm.trans hstart
      rw [List.getLast?_eq_getElem?, hlen, Nat.add_sub_cancel, ← hopen, congrArg (·[opener]?) hdoc]
      exact (List.getElem?_append_left (hlen ▸ Nat.lt_succ_self opener)).symm
    rw [hlast]
    rintro x hx
    obtain rfl := Option.mem_some_iff.mp hx
    decide
  · exact site.isLayout_of_getLast hlt

/-- The code that ends with an entry ends with a comma, behind the line of its closing
parenthesis. -/
theorem exists_code_entered (site : EntrySite doc start closer) (spec : AnchorSpec)
    (route : Route) :
    ∃ front, site.code ++ (site.comma ++ (site.content ++
        block (Text.lineBreak doc) site.indent (entryLines spec route))) = front ++ [byte ','] ∧
      lastLine front = site.indent ++ lit ")" := by
  have hnl := Text.isLineBreak_lineBreak doc
  obtain ⟨init, hinit⟩ : ∃ init, entryLines spec route = init ++ [lit ")" ++ [byte ',']] :=
    ⟨_, (List.dropLast_concat_getLast (l := entryLines spec route) (by simp [entryLines])).symm⟩
  obtain ⟨front, hfront⟩ : ∃ front, site.code ++ (site.comma ++ (site.content ++
      block (Text.lineBreak doc) site.indent (entryLines spec route))) = front ++ [byte ','] := by
    refine ⟨site.code ++ (site.comma ++ (site.content ++
      (block (Text.lineBreak doc) site.indent init ++
      (Text.lineBreak doc ++ site.indent ++ lit ")")))), ?_⟩
    rw [hinit, Text.block_append, Text.block_cons, Text.block_nil]
    simp only [List.append_assoc, List.append_nil]
  refine ⟨front, hfront, ?_⟩
  have hrow := Text.lastLine_block hnl site.isBlank_of_mem (lit ")" ++ [byte ','])
    (by decide) (site.code ++ (site.comma ++ site.content)) init
  rwa [← hinit, List.append_assoc, List.append_assoc, hfront, Text.lastLine_append (by decide),
    ← List.append_assoc, List.append_cancel_right_eq] at hrow

/-- The closing parenthesis of an entry stands right behind its indentation. -/
theorem lineIndent_entered (site : EntrySite doc start closer) {front more : Text} {b : Byte}
    (h : lastLine front = site.indent ++ lit ")") :
    Text.lineIndent (front ++ b :: more) front.length = site.indent := by
  have hblank := Text.lineIndent_add front (b :: more) 0
  have hstop (x : Text) : (site.indent ++ lit ")" ++ x).takeWhile isBlank = site.indent := by
    rw [List.append_assoc, List.takeWhile_append_of_pos site.isBlank_of_mem]
    exact List.append_nil _
  rwa [Nat.add_zero, List.take_zero, List.append_nil, List.drop_zero, h, hstop] at hblank

/-- The place of the next entry: right behind this one. The last byte that counts as code is the
comma of the entry. -/
theorem exists_entered (site : EntrySite doc start closer) (hs : spec.Accepted) (hr : route.Regular)
    (hstart : start = opener + 1) (h : Dart.matchingBracket doc opener = some closer) :
    ∃ closer', Dart.matchingBracket (site.entered spec route) opener = some closer' ∧
      ∃ next : EntrySite (site.entered spec route) start closer',
        next.code = site.code ++ (site.comma ++ (site.content ++
          block (Text.lineBreak doc) site.indent (entryLines spec route))) ∧
        next.comma = [] ∧ next.content = [] ∧ next.layout = site.closing ++ site.layout ∧
        next.rest = site.rest ∧ next.indent = site.indent ∧ next.closing = [] := by
  obtain ⟨closer', last, hclose, hlen, -, hlast, hlength⟩ :=
    site.entered_spec hstart h hr (isIdentifier_of_mem_routerClass hs)
  obtain ⟨front, hfront, hrow⟩ := site.exists_code_entered spec route
  obtain ⟨code, hcode⟩ : ∃ code, code = site.code ++ (site.comma ++ (site.content ++
      block (Text.lineBreak doc) site.indent (entryLines spec route))) := ⟨_, rfl⟩
  rw [← hcode] at hfront hlength
  have hentered : site.entered spec route = code ++ (site.closing ++ site.layout ++ site.rest) := by
    rw [hcode, entered]
    simp only [List.append_assoc]
  have hsplit : site.entered spec route =
      front ++ byte ',' :: (site.closing ++ site.layout ++ site.rest) := by
    rw [hentered, hfront, List.append_assoc, List.singleton_append]
  obtain rfl : last = front.length := by
    rw [hfront, List.length_append, List.length_singleton] at hlength
    omega
  have hcomma : (site.entered spec route)[front.length]? = some (byte ',') := by
    rw [hsplit, List.getElem?_append_right le_rfl, Nat.sub_self]
    rfl
  have hdoc := congrArg List.length site.eq_append
  have hlen' := congrArg List.length hentered
  have hsite := site.length_eq
  have hle := site.start_le_code
  have hcodelen := congrArg List.length hcode
  simp only [List.length_append] at hdoc hlen' hsite hcodelen
  refine ⟨closer', hclose, ⟨code, [], [], site.closing ++ site.layout, site.rest, site.indent,
    hentered.trans (by simp), ?_, ?_, site.isLayout_of_mem_closing, ?_, ?_, ?_⟩, hcode, rfl,
      rfl, rfl,
    rfl, rfl, ?_⟩
  · simp only [List.append_nil]
    omega
  · simp only [List.append_nil, List.length_append]
    omega
  · intro _ x hx
    rw [List.append_nil, hfront, List.getLast?_concat, Option.mem_some_iff] at hx
    rw [← hx]
    rfl
  · rw [entryIndent, hlast, hsplit]
    exact (site.lineIndent_entered hrow).symm
  · refine Or.inl ⟨rfl, rfl, fun n hn => ?_⟩
    rw [← Option.some.inj (hlast.symm.trans hn), hcomma]
  · have hmem : newline ∈ site.closing ++ site.layout := by
      rw [closing]
      split
      · assumption
      · rcases Text.isLineBreak_lineBreak doc with h | h <;> rw [h] <;> simp [Text.crlf]
    rw [closing, if_pos hmem]

/-- Neither a comma nor an entry is written behind a carriage return. -/
theorem carriageReturn_not_mem_getLast? (site : EntrySite doc start closer)
    (hstart : start = opener + 1) (hopen : doc[opener]? = some (byte '[')) :
    Byte.carriageReturn ∉ (site.code ++ (site.comma ++ site.content)).getLast? := by
  have hlast := site.isLayout_of_mem_getLast? hstart hopen
  rcases site.comma_spec with ⟨hcomma, -, -⟩ | ⟨hcomma, -⟩
  · rw [hcomma, List.nil_append]
    exact fun h => absurd (hlast _ h) (by decide)
  · rw [hcomma]
    by_cases hnil : site.content = []
    · rw [hnil, List.append_nil, List.getLast?_concat]
      decide
    · rw [← List.append_assoc, List.getLast?_append_of_ne_nil _ hnil]
      rw [List.getLast?_append_of_ne_nil _ hnil] at hlast
      exact fun h => absurd (hlast _ h) (by decide)

/-- An entry brings a two-byte line break only where the document has one already. A two-byte break
of the result lies in the new text or in the old one: no seam makes one, since neither piece ends in
a carriage return. -/
theorem lineBreak_entered (site : EntrySite doc start closer) (hs : spec.Accepted)
    (hr : route.Regular) (hstart : start = opener + 1) (hopen : doc[opener]? = some (byte '[')) :
    Text.lineBreak (site.entered spec route) = Text.lineBreak doc := by
  obtain ⟨new, hnew⟩ : ∃ new, new =
      block (Text.lineBreak doc) site.indent (entryLines spec route) ++ site.closing := ⟨_, rfl⟩
  have hentered : site.entered spec route = site.code ++ (site.comma ++ site.content) ++
      (new ++ (site.layout ++ site.rest)) := by
    rw [hnew, entered]
    simp only [List.append_assoc]
  by_cases hcrlf : Text.crlf <:+: doc
  · refine Text.lineBreak_eq_of_infix_iff (iff_of_true ?_ hcrlf)
    have hnl : Text.lineBreak doc = Text.crlf := by
      rw [Text.lineBreak, if_pos (Text.hasInfix_iff.mpr hcrlf)]
    rw [hentered, hnew, hnl, entryLines, Text.block_cons]
    refine List.infix_append_of_infix_right (List.IsPrefix.isInfix ?_)
    simp only [List.append_assoc]
    exact List.prefix_append _ _
  · refine Text.lineBreak_eq_of_infix_iff (iff_of_false (fun h => hcrlf ?_) hcrlf)
    have hsuits : Text.Suits doc new := by
      have htext := suits_text_entryInsertion route doc start closer fun l hl =>
        Text.oneLine_of_forall (isEntryByte_of_mem_entryLines hs hr l hl) (by decide) (by decide)
      rwa [site.entryInsertion_eq, ← hnew] at htext
    rw [hentered, Text.crlf_infix_append_iff (site.carriageReturn_not_mem_getLast? hstart hopen),
      Text.crlf_infix_append_iff hsuits.last] at h
    have h : Text.crlf <:+: site.code ++ (site.comma ++ site.content) ++
        (site.layout ++ site.rest) := by
      rcases h with h | h | h
      · exact List.infix_append_of_infix_left h
      · exact absurd (h.subset (List.mem_cons_self ..)) (hsuits.plain hcrlf)
      · exact List.infix_append_of_infix_right h
    rw [site.eq_append]
    rcases site.comma_spec with ⟨hcomma, -, -⟩ | ⟨hcomma, -⟩
    · simpa only [hcomma, List.nil_append, List.append_assoc] using h
    · simp only [hcomma, List.append_assoc, List.singleton_append] at h
      rcases (Text.infix_append_cons_iff (by decide)).mp h with h | h
      · exact List.infix_append_of_infix_left h
      · exact List.infix_append_of_infix_right h

/-- What is put behind the code of the list does not affect how that is read. -/
theorem inert_entered (site : EntrySite doc start closer) (spec : AnchorSpec) (route : Route)
    (w : Text) : Dart.Inert (site.comma ++ (site.content ++
      (block (Text.lineBreak doc) site.indent (entryLines spec route) ++ w))) := by
  rcases site.comma_spec with ⟨hcomma, hcontent, -⟩ | ⟨hcomma, -⟩
  · rw [hcomma, hcontent, entryLines, Text.block_cons]
    rcases Text.isLineBreak_lineBreak doc with hnl | hnl <;> rw [hnl] <;>
      exact Dart.inert_cons.mpr rfl
  · rw [hcomma]
    exact Dart.inert_cons.mpr rfl

/-- What stands behind the place of a comma does not start with a quote. -/
theorem CommaPlace.head?_ne_quote {site : EntrySite doc start closer} (h : site.CommaPlace)
    (hclosed : site.Closed) : (site.content ++ (site.layout ++ site.rest)).head? ≠ some quote := by
  obtain ⟨spaces, v, hcontent, hspaces, hv⟩ := h.content_spec
  have hlayout := site.isLayout_of_mem
  rw [hcontent, List.append_assoc]
  intro hhead
  cases spaces with
  | cons b spaces =>
    obtain rfl : b = quote := by simpa using hhead
    exact absurd (hspaces quote (List.mem_cons_self ..)) (by decide)
  | nil =>
    rw [List.nil_append] at hhead
    rcases hv with rfl | ⟨d, more, hv, -⟩
    · rw [List.nil_append] at hhead
      cases hcut : site.layout with
      | nil =>
        rw [hcut, List.nil_append, hclosed] at hhead
        exact absurd (Option.some.inj hhead) (by decide)
      | cons b layout =>
        rw [hcut] at hlayout hhead
        obtain rfl : b = quote := by simpa using hhead
        exact absurd (hlayout quote (List.mem_cons_self ..)) (by decide)
    · rw [hv] at hhead
      exact absurd (Option.some.inj hhead) (by decide)

/-- The bracket starts no import. -/
theorem not_startsImport_closer (site : EntrySite doc start closer) (hclosed : site.Closed)
    (h : newline ∉ site.layout) : ¬ StartsImport (firstLine (site.layout ++ site.rest)) := by
  have hrest := List.eq_cons_of_mem_head? hclosed
  have hmargin : ∀ x ∈ site.layout, isMargin x := fun x hx =>
    Byte.isMargin_of_isLayout x (site.isLayout_of_mem x hx) fun hx' => h (hx' ▸ hx)
  rw [Text.firstLine_append h, ← startsImport_trim_iff, Text.trim_append_left hmargin,
    startsImport_trim_iff, hrest, firstLine, List.takeWhile_cons, if_pos (by decide)]
  exact not_startsImport_of_cons rfl (by decide) (by decide)

/-- An entry starts no import, and neither do the comma and the line for the closer. -/
theorem importless_entered (site : EntrySite doc start closer) (hs : spec.Accepted)
    (hr : route.Regular) (hclosed : site.Closed)
    (hcases : (site.comma = [] ∧ site.content = []) ∨ site.CommaPlace) {b : Text}
    (hb : newline ∈ b) (h : Importless (b ++ (site.content ++ (site.layout ++ site.rest)))) :
    Importless (b ++ (site.comma ++ (site.content ++
      (block (Text.lineBreak doc) site.indent (entryLines spec route) ++
        (site.closing ++ (site.layout ++ site.rest)))))) := by
  have hnl := Text.isLineBreak_lineBreak doc
  have hcomma : Importless (b ++ (site.comma ++ (site.content ++ (site.layout ++ site.rest)))) := by
    rcases hcases with ⟨hnil, -⟩ | hplace
    · rwa [hnil, List.nil_append]
    · rw [hplace.comma_eq]
      exact h.insert_comma hb (hplace.head?_ne_quote hclosed)
  have hsettled : Importless (b ++ (site.comma ++ site.content) ++
      (site.closing ++ (site.layout ++ site.rest))) := by
    rw [closing]
    split
    · simpa only [List.append_assoc, List.nil_append] using hcomma
    · rename_i hnot
      rw [List.append_assoc (Text.lineBreak doc)]
      refine Importless.insert_lineBreak (by simpa only [List.append_assoc] using hcomma)
        (List.mem_append_left _ hb) hnl (fun x => Text.isBlank_of_mem_lineIndent)
        (site.not_startsImport_closer hclosed hnot)
  have hentry := hsettled.insert_block hnl site.isBlank_of_mem site.isMargin_of_mem_firstLine
    (fun l (hl : l ∈ entryLines spec route) hmem =>
      absurd (isEntryByte_of_mem_entryLines hs hr l hl _ hmem) (by decide))
    fun l hl => ?_
  · simpa only [List.append_assoc] using hentry
  · rintro ⟨m, hm, himport⟩
    obtain ⟨m', rfl⟩ := exists_append_of_isImport himport
    have hmem := hm.subset (List.mem_append_right m' (List.mem_singleton_self (byte ';')))
    exact absurd (isEntryByte_of_mem_entryLines hs hr l hl _ hmem) (by decide)

end Entered

end EntrySite

namespace CleanAt

variable {spec : AnchorSpec} {doc : Text} {p : Places} {route : Route}

/-- A clean registry with another entry is clean. The lines of both anchors end in front of the
list, so their margins are the old ones. -/
theorem addEntry (h : CleanAt spec doc p) (hs : spec.Accepted) (hr : route.Regular)
    (site : EntrySite doc (spec.listStart p.listOpen) p.listClose) {closer : Nat}
    (hclose : spec.listClose? (site.entered spec route) p.listOpen = some closer) :
    CleanAt spec (site.entered spec route) { p with listClose := closer } := by
  obtain ⟨opener, hstart, hmatch, hopen⟩ := h.exists_list hs
  obtain ⟨z, hz⟩ : ∃ z, z = site.comma ++ (site.content ++
      (block (Text.lineBreak doc) site.indent (entryLines spec route) ++
        (site.closing ++ (site.layout ++ site.rest)))) := ⟨_, rfl⟩
  obtain ⟨code, hcode⟩ : ∃ code, code = site.code := ⟨_, rfl⟩
  obtain ⟨y, hy⟩ : ∃ y, y = site.content ++ (site.layout ++ site.rest) := ⟨_, rfl⟩
  have hentered : site.entered spec route = code ++ z := by rw [hz, hcode, EntrySite.entered]
  have hdoc : doc = code ++ y := by rw [hcode, hy]; exact site.eq_append
  have hlen : spec.listStart p.listOpen ≤ code.length := hcode ▸ site.start_le_code
  have hinert : Dart.Inert z := hz ▸ site.inert_entered spec route _
  have hle := h.importEnd_le
  have hbounds := h.constantEnd_bounds
  have hopener := h.opener_spec.1
  have hlt := h.closer_lt
  have hlist := listClose?_bounds hs h.listClose_eq
  obtain ⟨himport, hconstant⟩ := h.newline_mem_drop hs hdoc hlen
  have hless := site.importless_entered hs hr (site.closed hstart hmatch hopen)
    (site.comma_cases hstart hmatch) himport
  rw [← hz, ← hy] at hless
  have hscan := h
  rw [hdoc] at hscan
  obtain ⟨hbraces, hend⟩ := containerBraces?_append_inert hscan.braces_eq (by omega) hinert
  have hle₁ : p.importEnd ≤ code.length := by omega
  have hle₂ : p.constantEnd ≤ code.length := by omega
  have hfirst {e : Nat} {x w : Text} (he : e ≤ code.length) (hmem : newline ∈ code.drop e) :
      firstLine ((code ++ x).drop e) = firstLine ((code ++ w).drop e) := by
    rw [List.drop_append_of_le_length he, List.drop_append_of_le_length he,
      Text.firstLine_append_of_mem hmem, Text.firstLine_append_of_mem hmem]
  have hmargin : ∀ x ∈ firstLine ((code ++ z).drop p.constantEnd), isMargin x := by
    rw [hfirst (w := y) hle₂ hconstant]
    exact hscan.constant_margin
  refine ⟨scan_eq_anchors ?_ ?_ ?_ ?_ hclose, ?_, hle, hlt, ?_, ?_, ?_⟩ <;> rw [hentered]
  · exact importEnd?_append_of_importless hscan.importEnd_eq hle₁ hless
  · exact Text.indexOf?_append_of_le hscan.containerOpen_eq (by have := h.opener_spec.2.1; omega) z
  · exact hend.trans hscan.constantEnd_eq
  · exact Text.indexOf?_append_of_le hscan.listOpen_eq hlen z
  · exact hbraces
  · rw [hfirst (w := y) hle₁ himport]
    exact hscan.import_margin
  · exact hmargin
  · have hcode := hscan.constant_code
    rw [List.take_append_of_le_length hle₂, Option.any_eq_true] at hcode ⊢
    obtain ⟨s, hrun, hrest⟩ := hcode
    exact ⟨s, Reader.runUntil_inert (Reader.coherent_of_frames_eq_nil rfl rfl) hrun
      (Reader.atRest_iff.mp hrest).2 (inert_of_isMargin hmargin), hrest⟩

end CleanAt

end FlutterScaffold.Registry
