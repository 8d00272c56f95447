import FlutterScaffold.Proofs.Registry.Frame

/-!
# What a filled frame declares

The gaps of a frame cut no declaration: the line in front of the first gap is an import, behind the
second gap no name constant follows, and behind the third there is a blank line or the bracket of
the list. So a filled frame declares what the frame declares and what it was filled with, and
nothing else (`Framing.declares_add`); with a new entry, it is the settled frame that counts.
-/

namespace FlutterScaffold.Registry

open FlutterScaffold.Text (bareLines block firstLine lastLine IsLineBreak trim)
open Byte (newline isBlank isLayout isMargin)

/-- A declaration of a plain route. -/
def IsDeclaration (spec : AnchorSpec) (d : List Text) : Prop :=
  ∃ route : Route, route.Plain ∧ d ∈ declarations spec route

namespace IsDeclaration

variable {spec : AnchorSpec} {route : Route} {d : List Text}

/-- The import of a plain route is a declaration. -/
theorem importLines (spec : AnchorSpec) (hr : route.Plain) :
    IsDeclaration spec (importLines route) :=
  ⟨route, hr, List.mem_cons_self ..⟩

/-- The constants of a plain route are a declaration. -/
theorem constantLines (spec : AnchorSpec) (hr : route.Plain) :
    IsDeclaration spec (constantLines route) :=
  ⟨route, hr, List.mem_cons_of_mem _ (List.mem_cons_self ..)⟩

/-- The entry of a plain route is a declaration. -/
theorem entryLines (spec : AnchorSpec) (hr : route.Plain) :
    IsDeclaration spec (entryLines spec route) :=
  ⟨route, hr, List.mem_cons_of_mem _ (List.mem_cons_of_mem _ (List.mem_cons_self ..))⟩

/-- No line of a declaration is blank or holds the bracket that closes a list. -/
theorem apart (h : IsDeclaration spec d) (hs : spec.Accepted) : Apart d := by
  obtain ⟨route, hr, hd⟩ := h
  simp only [declarations, List.mem_cons, List.not_mem_nil, or_false] at hd
  rcases hd with rfl | rfl | rfl
  · exact apart_importLines hr.importPath_plain
  · exact apart_constantLines hr.toRegular
  · exact apart_entryLines hs hr.toRegular

/-- The lines of a declaration are lines. -/
theorem newline_not_mem (h : IsDeclaration spec d) (hs : spec.Accepted) : ∀ l ∈ d, newline ∉ l := by
  obtain ⟨route, hr, hd⟩ := h
  simp only [declarations, List.mem_cons, List.not_mem_nil, or_false] at hd
  rcases hd with rfl | rfl | rfl
  · exact newline_not_mem_importLines fun hmem => absurd (hr.importPath_plain _ hmem) (by decide)
  · exact newline_not_mem_constantLines hr.toRegular
  · exact fun l hl hmem =>
      absurd (isEntryByte_of_mem_entryLines hs hr.toRegular l hl _ hmem) (by decide)

/-- Two declarations overlap nowhere. -/
theorem separate {d' : List Text} (h : IsDeclaration spec d) (h' : IsDeclaration spec d') :
    Separate (wanted d) (wanted d') := by
  obtain ⟨route, hr, hd⟩ := h
  obtain ⟨route', hr', hd'⟩ := h'
  exact separate_declarations hr.toRegular hr'.toRegular hd hd'

/-- Declarations that look alike without margins are the same. -/
theorem wanted_inj {d' : List Text} (h : IsDeclaration spec d) (h' : IsDeclaration spec d') :
    wanted d = wanted d' ↔ d = d' := by
  obtain ⟨route, -, hd⟩ := h
  obtain ⟨route', -, hd'⟩ := h'
  exact Registry.wanted_inj hd hd'

end IsDeclaration

/-- A block of lines written between two lines makes only its own declaration present. -/
theorem declares_insert_iff {nl indent a b : Text} (hnl : IsLineBreak nl)
    (hindent : ∀ x ∈ indent, isBlank x) (hb : ∀ x ∈ firstLine b, isMargin x) {d content : List Text}
    (hcontent : ∀ l ∈ content, newline ∉ l) (hseparate : Separate (wanted d) (wanted content))
    (hcut : Uncut (wanted d) (bareLines a) (bareLines b).tail) :
    declares (a ++ (block nl indent content ++ b)) d = true ↔
      declares (a ++ b) d = true ∨ wanted d = wanted content := by
  rw [declares_iff, declares_iff, Text.bareLines_insert_of_margin hnl hindent hb a hcontent,
    Text.bareLines_append_of_margin hb]
  exact hseparate.infix_insert_iff_of_uncut hcut

namespace Framing

variable {spec : AnchorSpec} {f : Frame} {p : Places} {route : Route} {d : List Text}
  (h : Framing spec f p)

include h

/-! ## The gaps -/

/-- The line break of a frame is one of the two. -/
theorem isLineBreak : IsLineBreak f.lineBreak := h.lineBreak_eq ▸ Text.isLineBreak_lineBreak _

/-- Imports are indented by blanks. -/
theorem isBlank_of_mem_importIndent : ∀ x ∈ f.importIndent, isBlank x := by
  rw [← h.importIndent_eq]
  exact fun x => Text.isBlank_of_mem_lineIndent

/-- Constants are indented by blanks. -/
theorem isBlank_of_mem_constantIndent : ∀ x ∈ f.constantIndent, isBlank x := by
  rw [← h.constantIndent_eq]
  exact fun x => Text.isBlank_of_mem_lineIndent

/-- Entries are indented by blanks. -/
theorem isBlank_of_mem_entryIndent : ∀ x ∈ f.entryIndent, isBlank x := by
  obtain ⟨site, hcuts⟩ := h.exists_site
  exact hcuts.indent_eq ▸ site.isBlank_of_mem

/-- Nothing but a margin follows an entry on its last line. -/
theorem isMargin_of_mem_closing : ∀ x ∈ firstLine (f.closing ++ f.rest), isMargin x := by
  obtain ⟨site, hcuts⟩ := h.exists_site
  rw [← hcuts.closing_eq, ← hcuts.rest_eq]
  exact site.isMargin_of_mem_firstLine

/-- The line in front of the first gap starts no declaration but an import. The last line in front
starts with a space or with the first letter of an import. -/
theorem uncut_front (hd : IsDeclaration spec d) (x : List Text) :
    Uncut (wanted d) (bareLines f.front) x := by
  obtain ⟨a, m, hfront, ha, hnewline, hm⟩ := h.exists_front
  obtain ⟨b, u, htrim, hb⟩ := head?_trim_of_isImport hm []
  have hlast : (bareLines f.front).getLast? = some (b :: u) := by
    rw [Text.bareLines_eq_dropLast_append, List.getLast?_concat, hfront,
      Text.lastLine_append hnewline, ha, List.nil_append, ← htrim, List.append_nil]
  obtain ⟨route, hr, hd⟩ := hd
  obtain ⟨himport, hconstants, hentry⟩ := head?_wanted spec route
  have hother {heads : List (Option Byte)} (hheads : (wanted d).map List.head? = heads)
      (hnot : ∀ c ∈ heads, ∃ e, c = some e ∧ Byte.isSpace e = false ∧ e ≠ byte 'i') :
      Uncut (wanted d) (bareLines f.front) x := by
    refine uncut_of_getLast? fun l hl hmem => ?_
    obtain rfl := Option.some.inj (hlast.symm.trans hl)
    obtain ⟨e, he, hspace, hne⟩ := hnot _ (hheads ▸ List.mem_map_of_mem hmem)
    obtain rfl := Option.some.inj he
    rcases hb with hb | hb
    · exact absurd (hb.symm.trans hspace) (by decide)
    · exact hne hb
  simp only [declarations, List.mem_cons, List.not_mem_nil, or_false] at hd
  rcases hd with rfl | rfl | rfl
  · refine uncut_of_head? fun l _ hmem => ?_
    have hlen := congrArg List.length himport
    rw [List.length_map, List.length_singleton] at hlen
    obtain ⟨line, hline⟩ := List.length_eq_one_iff.mp hlen
    rw [hline] at hmem
    exact absurd hmem List.not_mem_nil
  · refine hother hconstants ?_
    simp only [List.forall_mem_cons, List.not_mem_nil, false_implies, implies_true, and_true]
    exact ⟨⟨_, rfl, by decide, by decide⟩, _, rfl, by decide, by decide⟩
  · refine hother hentry ?_
    simp only [List.forall_mem_cons, List.not_mem_nil, false_implies, implies_true, and_true]
    exact ⟨⟨_, rfl, by decide, by decide⟩, ⟨_, rfl, by decide, by decide⟩,
      ⟨_, rfl, by decide, by decide⟩, ⟨_, rfl, by decide, by decide⟩, _, rfl, by decide, by decide⟩

/-- The line behind the second gap holds no name constant, or a closer of the class. -/
theorem head?_lines_code (x : Text) : ∀ l ∈ (bareLines (f.code ++ x)).tail.head?,
    ¬ HoldsConstant l ∨ ∃ c ∈ l, Dart.isCloser c = true := by
  obtain ⟨-, -, body, c, v, -, -, -, hcode, hless, hc⟩ := h.exists_class
  have hcloser : ∀ b, Dart.isCloser b → isMargin b = false ∧ b ≠ newline := by decide +kernel
  have hmargin := h.isMargin_of_mem_code x
  rw [hcode, List.append_assoc] at hmargin ⊢
  have hnewline : newline ∈ body := by
    have hmem := Text.newline_mem_of_isMargin (a := body ++ [c]) (b := v ++ x) (x := c)
      (by simpa using hmargin) (by simp) (hcloser c hc).1
    rcases List.mem_append.mp hmem with hmem | hmem
    · exact hmem
    · exact absurd (List.mem_singleton.mp hmem).symm (hcloser c hc).2
  obtain ⟨y, z, hbody, hy⟩ := List.eq_append_cons_of_mem hnewline
  rw [Constantless, hbody, Text.bareLines_append_cons, Text.bareLines_of_not_mem hy,
    List.singleton_append, List.tail_cons] at hless
  rw [hbody, List.append_assoc, List.cons_append, Text.bareLines_append_cons,
    Text.bareLines_of_not_mem hy, List.singleton_append, List.tail_cons,
    Text.bareLines_eq_cons_tail, List.head?_cons]
  intro l hl
  obtain rfl := Option.mem_some_iff.mp hl
  by_cases hz : newline ∈ z
  · refine Or.inl (hless _ ?_)
    rw [Text.firstLine_append_of_mem hz, Text.bareLines_eq_cons_tail z]
    exact List.mem_cons_self ..
  · refine Or.inr ⟨c, Text.mem_trim_of_mem ?_ (hcloser c hc).1, hc⟩
    rw [Text.firstLine_append hz, List.cons_append, firstLine, List.takeWhile_cons,
      if_pos (by simpa using (hcloser c hc).2)]
    simp

/-- No declaration goes over the second gap. -/
theorem uncut_middle (hs : spec.Accepted) (hd : IsDeclaration spec d) (x : Text) :
    Uncut (wanted d) (bareLines (f.front ++ f.middle)) (bareLines (f.code ++ x)).tail := by
  obtain ⟨a, m, -, -, -, hmiddle, hnewline, hm, -⟩ := h.exists_class
  obtain ⟨m', hm'⟩ := exists_append_of_isNameConstant hm
  obtain ⟨route, hr, hd⟩ := hd
  simp only [declarations, List.mem_cons, List.not_mem_nil, or_false] at hd
  rcases hd with rfl | rfl | rfl
  · refine uncut_of_head? fun l _ hmem => ?_
    obtain ⟨line, hline⟩ : ∃ line, importLines route = [line] := ⟨_, rfl⟩
    rw [hline] at hmem
    exact absurd hmem List.not_mem_nil
  · refine uncut_of_head? fun l hl hmem => ?_
    rw [wanted_constantLines, constantLines, List.tail_cons, List.mem_singleton] at hmem
    rcases h.head?_lines_code x l hl with hnot | ⟨c, hc, hcloser⟩
    · exact hnot ⟨l, List.infix_rfl, hmem ▸ CleanAt.isNameConstant_constantLine hr.toRegular⟩
    · have hplain : ∀ b, Dart.isCloser b → isStatementByte b = false := by decide +kernel
      have hbyte := isStatementByte_of_mem_constantLines hr.toRegular l
        (hmem ▸ List.mem_cons_of_mem _ (List.mem_cons_self ..)) c hc
      rw [hplain c hcloser] at hbyte
      exact absurd hbyte (by decide)
  · refine uncut_of_getLast? fun l hl hmem => ?_
    rw [Text.bareLines_eq_dropLast_append, List.getLast?_concat] at hl
    obtain rfl := Option.mem_some_iff.mp hl
    refine semicolon_not_mem_of_mem_wanted_entryLines hs hr.toRegular hmem
      (Text.mem_trim_of_mem ?_ (by decide))
    rw [hmiddle, ← List.append_assoc, Text.lastLine_append hnewline, hm']
    simp

/-- No declaration goes over the third gap. -/
theorem uncut_closing (hs : spec.Accepted) (hd : IsDeclaration spec d) (x : List Text) :
    Uncut (wanted d) x (bareLines (f.closing ++ f.rest)).tail := by
  obtain ⟨opener, hstart, hmatch, hopen⟩ := h.clean.exists_list hs
  obtain ⟨site, hcuts⟩ := h.exists_site
  have hclosed := site.closed hstart hmatch hopen
  rw [← hcuts.closing_eq, ← hcuts.rest_eq]
  refine uncut_of_head? fun l hl hmem => ?_
  rcases EntrySite.head?_lines_closing hclosed l hl with rfl | hbracket
  · exact (hd.apart hs _ (List.mem_of_mem_tail hmem)).1 rfl
  · exact (hd.apart hs _ (List.mem_of_mem_tail hmem)).2 hbracket

/-! ## One addition -/

/-- Another import adds itself to what is declared, and nothing else. -/
theorem declares_addImport (hs : spec.Accepted) (hr : route.Plain) (hd : IsDeclaration spec d) :
    declares (f.add { imports := [importLines route] }).text d = true ↔
      declares f.text d = true ∨ d = importLines route := by
  have hown := IsDeclaration.importLines spec hr
  have htext : (f.add { imports := [importLines route] }).text = f.front ++
      (block f.lineBreak f.importIndent (importLines route) ++
        (f.middle ++ (f.code ++ (f.content ++ f.rest)))) := by
    simp [Frame.add_of_entries_eq_nil, Frame.text]
  rw [htext, ← hd.wanted_inj hown]
  exact declares_insert_iff h.isLineBreak h.isBlank_of_mem_importIndent
    (h.isMargin_of_mem_middle _) (hown.newline_not_mem hs) (hd.separate hown) (h.uncut_front hd _)

/-- Another pair of constants adds itself to what is declared, and nothing else. -/
theorem declares_addConstants (hs : spec.Accepted) (hr : route.Plain) (hd : IsDeclaration spec d) :
    declares (f.add { constants := [constantLines route] }).text d = true ↔
      declares f.text d = true ∨ d = constantLines route := by
  have hown := IsDeclaration.constantLines spec hr
  have htext : (f.add { constants := [constantLines route] }).text = f.front ++ f.middle ++
      (block f.lineBreak f.constantIndent (constantLines route) ++
        (f.code ++ (f.content ++ f.rest))) := by
    simp [Frame.add_of_entries_eq_nil, Frame.text]
  rw [htext, ← hd.wanted_inj hown, Frame.text, ← List.append_assoc f.front]
  exact declares_insert_iff h.isLineBreak h.isBlank_of_mem_constantIndent
    (h.isMargin_of_mem_code _) (hown.newline_not_mem hs) (hd.separate hown)
    (h.uncut_middle hs hd _)

/-- Another entry adds itself to what a settled list declares, and nothing else. -/
theorem declares_addEntry (hs : spec.Accepted) (hr : route.Plain) (hd : IsDeclaration spec d) :
    declares (f.add { entries := [entryLines spec route] }).text d = true ↔
      declares f.settled.text d = true ∨ d = entryLines spec route := by
  have hown := IsDeclaration.entryLines spec hr
  have htext : (f.add { entries := [entryLines spec route] }).text =
      f.front ++ (f.middle ++ (f.code ++ (f.comma ++ f.content))) ++
        (block f.lineBreak f.entryIndent (entryLines spec route) ++ (f.closing ++ f.rest)) := by
    simp [Frame.add_of_entries_ne_nil, Frame.text]
  have hsettled : f.settled.text =
      f.front ++ (f.middle ++ (f.code ++ (f.comma ++ f.content))) ++ (f.closing ++ f.rest) := by
    simp [Frame.text_settled]
  rw [htext, hsettled, ← hd.wanted_inj hown]
  exact declares_insert_iff h.isLineBreak h.isBlank_of_mem_entryIndent h.isMargin_of_mem_closing
    (hown.newline_not_mem hs) (hd.separate hown) (h.uncut_closing hs hd _)

end Framing

/-! ## The settled frame -/

namespace Framing

variable {spec : AnchorSpec} {f : Frame} {p : Places} {route : Route} {d : List Text}
  (h : Framing spec f p)

include h

/-- All imports stand in front of the list, so its comma falls into none of them. -/
theorem codeLine_not_mem (hr : route.Plain)
    {site : EntrySite f.text (spec.listStart p.listOpen) p.listClose} (hcuts : f.Cuts site) :
    trim isMargin site.codeLine ∉ wanted (importLines route) := by
  obtain ⟨a, m, r, hcut, -, -, -, hlen, hless⟩ :=
    importEnd?_eq_some_iff_bare.mp (h.importEnd_eq ▸ h.clean.importEnd_eq)
  rw [Frame.text, ← List.append_assoc a] at hcut
  obtain ⟨-, rfl⟩ := List.append_inj hcut hlen
  obtain ⟨hmiddle, hcode⟩ := h.newline_mem
  obtain ⟨x, l, hl, hnewline⟩ := (Text.exists_lastLine f.code).resolve_left (not_not.mpr hcode)
  have hline : site.codeLine =
      lastLine (f.middle ++ f.code) ++ firstLine (f.content ++ f.rest) := by
    rw [EntrySite.codeLine, hcuts.code_eq, hcuts.content_eq, hcuts.rest_eq, hl, ← List.append_assoc,
      ← List.append_assoc, Text.lastLine_append_cons hnewline, ← List.append_assoc,
      Text.lastLine_append_cons hnewline]
  rw [wanted_importLines]
  intro hmem
  refine hless (trim isMargin site.codeLine) ?_
    ⟨_, List.prefix_rfl, CleanAt.isImport_of_mem_importLines hr hmem⟩
  rw [← List.append_assoc, Text.bareLines_append, hline, List.tail_append_of_ne_nil
    (dropLast_bareLines_ne_nil (List.mem_append_left _ hmiddle))]
  simp

/-- Settling a list keeps all imports and entries, and the constants that its comma does not fall
into. -/
theorem declares_settled (hs : spec.Accepted) (hr : route.Plain) (hd : d ∈ declarations spec route)
    (hconstants : d = constantLines route → declares f.settled.text d = true)
    (hdeclares : declares f.text d = true) : declares f.settled.text d = true := by
  obtain ⟨opener, hstart, hmatch, hopen⟩ := h.clean.exists_list hs
  obtain ⟨site, hcuts⟩ := h.exists_site
  have hclosed := site.closed hstart hmatch hopen
  have hapart : Apart d := IsDeclaration.apart ⟨route, hr, hd⟩ hs
  have hkeep (hline : site.CommaPlace → trim isMargin site.codeLine ∉ wanted d) :
      declares f.settled.text d = true := by
    rw [← hcuts.settled_eq]
    exact site.declares_settled hclosed hapart (site.comma_cases hstart hmatch) hline hdeclares
  simp only [declarations, List.mem_cons, List.not_mem_nil, or_false] at hd
  rcases hd with rfl | rfl | rfl
  · exact hkeep fun _ => h.codeLine_not_mem hr hcuts
  · exact hconstants rfl
  · exact hkeep fun hplace => hplace.codeLine_not_mem hclosed hs hr.toRegular

end Framing

/-! ## All additions -/

/-- Additions of one kind are made one after the other. -/
private theorem Framing.add_list {spec : AnchorSpec} (part : List (List Text) → Additions)
    (hnil : part [] = {}) (hcons : ∀ d ds, part (d :: ds) = part [d] ++ part ds)
    (hentries : (∀ ds, (part ds).entries = []) ∨ ∀ ds, (part ds).entries = ds)
    {P : List Text → Prop}
    (hstep : ∀ {f p d}, Framing spec f p → P d → (∃ p', Framing spec (f.add (part [d])) p') ∧
      ∀ x, IsDeclaration spec x → (declares (f.add (part [d])).text x = true ↔
        declares (f.ready (part [d]).entries).text x = true ∨ x = d))
    {f : Frame} {p : Places} (h : Framing spec f p) {ds : List (List Text)} (hds : ∀ d ∈ ds, P d) :
    (∃ p', Framing spec (f.add (part ds)) p') ∧
      ∀ x, IsDeclaration spec x → (declares (f.add (part ds)).text x = true ↔
        declares (f.ready (part ds).entries).text x = true ∨ x ∈ ds) := by
  induction ds generalizing f p with
  | nil =>
    rw [hnil, Frame.add_nil]
    exact ⟨⟨p, h⟩, fun x _ => by simp [Frame.ready]⟩
  | cons d ds ih =>
    obtain ⟨hd, hds⟩ := List.forall_mem_cons.mp hds
    obtain ⟨⟨p', hframing⟩, hone⟩ := hstep h hd
    obtain ⟨hmore, hall⟩ := ih hframing hds
    rw [hcons, Frame.add_append]
    refine ⟨hmore, fun x hx => ?_⟩
    have hready : (f.add (part [d])).ready (part ds).entries = f.add (part [d]) ∧
        f.ready (part [d] ++ part ds).entries = f.ready (part [d]).entries := by
      rcases hentries with hnone | hsome
      · exact ⟨Frame.ready_add f (Or.inl (hnone ds)), by simp [hnone]⟩
      · exact ⟨Frame.ready_add f (Or.inr (by simp [hsome])), by simp [hsome, Frame.ready]⟩
    rw [hall x hx, hready.1, hready.2, hone x hx, List.mem_cons, or_assoc]

namespace Framing

variable {spec : AnchorSpec} {f : Frame} {p : Places} {A : Additions}

/-- A clean registry stays clean when declarations of plain routes fill its gaps, and then it
declares them beside what it declares anyway. -/
theorem add (h : Framing spec f p) (hs : spec.Plain) (hA : A.Plain spec) :
    (∃ p', Framing spec (f.add A) p') ∧
      ∀ d, IsDeclaration spec d → (declares (f.add A).text d = true ↔
        declares (f.ready A.entries).text d = true ∨ d ∈ A.all) := by
  obtain ⟨⟨p₁, h₁⟩, hentries⟩ := add_list (fun ds => { entries := ds }) rfl
    (fun _ _ => rfl) (Or.inr fun _ => rfl) (fun {f p d} h ⟨route, hr, hd⟩ => by
      rw [hd]
      exact ⟨h.addEntry hs.toAccepted hr.toRegular, fun x hx =>
        h.declares_addEntry hs.toAccepted hr hx⟩) h hA.entries
  obtain ⟨⟨p₂, h₂⟩, himports⟩ := add_list (fun ds => { imports := ds }) rfl
    (fun _ _ => rfl) (Or.inl fun _ => rfl) (fun {f p d} h ⟨route, hr, hd⟩ => by
      rw [hd]
      exact ⟨h.addImport hs hr, fun x hx => h.declares_addImport hs.toAccepted hr hx⟩) h₁ hA.imports
  obtain ⟨h₃, hconstants⟩ := add_list (fun ds => { constants := ds }) rfl
    (fun _ _ => rfl) (Or.inl fun _ => rfl) (fun {f p d} h ⟨route, hr, hd⟩ => by
      rw [hd]
      exact ⟨h.addConstants hs hr.toRegular, fun x hx =>
        h.declares_addConstants hs.toAccepted hr hx⟩) h₂ hA.constants
  rw [Frame.add_eq]
  refine ⟨h₃, fun d hd => ?_⟩
  have hready (g : Frame) : g.ready [] = g := rfl
  rw [hconstants d hd, hready, himports d hd, hready, hentries d hd]
  simp only [Additions.all, List.mem_append]
  tauto

end Framing

end FlutterScaffold.Registry
