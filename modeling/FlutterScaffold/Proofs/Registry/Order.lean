import FlutterScaffold.Proofs.Registry.Run

/-!
# The order of registrations

What a route adds to a clean registry depends on an earlier one only where the two share a
declaration. So two routes make the same additions in either order, and the registries that result
differ in nothing but the order of their lines (`registerAll_comm`). Two things show the order:
blanks behind the last import or name constant stay at the end of the line, behind what is written
last; and with its first entry the list gets its comma and its closer a line of its own, which may
hide a declaration of the later route or bring one out.
-/

namespace FlutterScaffold.Registry

open FlutterScaffold.Text (block)
open Byte (newline)

/-- The same additions in another order. -/
structure Additions.Perm (A B : Additions) : Prop where
  imports : A.imports.Perm B.imports
  constants : A.constants.Perm B.constants
  entries : A.entries.Perm B.entries

/-! ## Filled frames up to order -/

section Filled

variable {spec : AnchorSpec} {f : Frame} {p : Places} {A B : Additions}

theorem length_block {nl indent : Text} {l m : List (List Text)} (h : l.Perm m) :
    (block nl indent l.flatten).length = (block nl indent m.flatten).length :=
  (h.flatten.flatMap_right _).length_eq

/-- The order of additions does not matter to the length of a filled frame. -/
theorem length_text_add (f : Frame) (h : A.Perm B) :
    (f.add A).text.length = (f.add B).text.length := by
  have hready : f.ready A.entries = f.ready B.entries := by
    simp only [Frame.ready, ← List.isEmpty_iff, h.entries.isEmpty_eq]
  simp only [Frame.text_add, Frame.list, List.length_append, hready, length_block h.imports,
    length_block h.constants, length_block h.entries]

theorem Additions.Plain.newline_not_mem (hA : A.Plain spec) (hs : spec.Accepted) :
    (∀ l ∈ A.imports.flatten, newline ∉ l) ∧ (∀ l ∈ A.constants.flatten, newline ∉ l) ∧
      ∀ l ∈ A.entries.flatten, newline ∉ l := by
  have hflatten {ds : List (List Text)} (h : ∀ d ∈ ds, IsDeclaration spec d) :
      ∀ l ∈ ds.flatten, newline ∉ l := fun l hl => by
    obtain ⟨d, hd, hmem⟩ := List.mem_flatten.mp hl
    exact (h d hd).newline_not_mem hs l hmem
  refine ⟨hflatten fun d hd => ?_, hflatten fun d hd => ?_, hflatten fun d hd => ?_⟩
  · obtain ⟨route, hr, rfl⟩ := hA.imports d hd
    exact IsDeclaration.importLines spec hr
  · obtain ⟨route, hr, rfl⟩ := hA.constants d hd
    exact IsDeclaration.constantLines spec hr
  · obtain ⟨route, hr, rfl⟩ := hA.entries d hd
    exact IsDeclaration.entryLines spec hr

/-- All entries end with the same line. -/
theorem Additions.Plain.exists_entries_eq_concat (hA : A.Plain spec) (hne : A.entries ≠ []) :
    ∃ init, A.entries.flatten = init ++ [lit "),"] := by
  obtain ⟨before, d, hentries⟩ := List.eq_nil_or_concat A.entries |>.resolve_left hne
  obtain ⟨route, -, rfl⟩ := hA.entries d (by simp [hentries])
  refine ⟨before.flatten ++ (entryLines spec route).dropLast, ?_⟩
  rw [hentries, List.concat_eq_append, List.flatten_concat, List.append_assoc]
  rfl

/-! ## Tidy frames -/

/-- A frame with nothing but its line break behind the last import and the last name constant. -/
structure Frame.Tidy (f : Frame) : Prop where
  isLineBreak : Text.IsLineBreak f.lineBreak
  newline_not_mem_importIndent : newline ∉ f.importIndent
  newline_not_mem_constantIndent : newline ∉ f.constantIndent
  newline_not_mem_entryIndent : newline ∉ f.entryIndent
  middle : f.lineBreak <+: f.middle
  code : f.lineBreak <+: f.code

/-- The lines of a list with entries. Whatever follows them on their last line, that line is the
same for all entries. -/
theorem Frame.Tidy.exists_lines_list (h : f.Tidy) (hs : spec.Accepted) (hA : A.Plain spec)
    {ending code : Text} (hnl : f.lineBreak = ending ++ [newline]) (hending : newline ∉ ending)
    (hcode : f.lineBreak ++ code = f.code) {init : List Text}
    (hinit : A.entries.flatten = init ++ [lit "),"]) :
    ∃ l, f.list A.entries = f.lineBreak ++ l ∧
      Text.lines l = Text.lines (code ++ (f.comma ++ f.content) ++ ending) ++
        (init.map (fun l => f.entryIndent ++ (l ++ ending)) ++
          Text.lines (f.entryIndent ++ (lit ")," ++ (f.closing ++ f.rest)))) := by
  have hne : A.entries ≠ [] := fun hnil => by simp [hnil] at hinit
  have hlines : ∀ l ∈ init, newline ∉ f.entryIndent ++ (l ++ ending) := by
    intro l hl
    have hmem := (hA.newline_not_mem hs).2.2 l (by rw [hinit]; exact List.mem_append_left _ hl)
    exact List.not_mem_append h.newline_not_mem_entryIndent (List.not_mem_append hmem hending)
  refine ⟨code ++ (f.comma ++ f.content) ++
    (block f.lineBreak f.entryIndent (init ++ [lit "),"]) ++ (f.closing ++ f.rest)), ?_, ?_⟩
  · rw [Frame.list, Frame.ready_of_ne_nil hne, hinit]
    simp only [Frame.settled, ← hcode, List.nil_append, List.append_assoc]
  · rw [hnl]
    exact Text.lines_append_block_concat hlines _ _ _

/-- The order of entries does not matter to the lines of the list that they are written into. -/
theorem Frame.Tidy.perm_lines_list (h : f.Tidy) (hs : spec.Accepted) (hA : A.Plain spec)
    (hB : B.Plain spec) (hperm : A.entries.Perm B.entries) :
    ∃ l m, f.list A.entries = f.lineBreak ++ l ∧ f.list B.entries = f.lineBreak ++ m ∧
      (Text.lines l).Perm (Text.lines m) := by
  obtain ⟨code, hcode⟩ := h.code
  by_cases hnil : A.entries = []
  · rw [hnil] at hperm
    rw [hnil, ← hperm.nil_eq]
    have hlist : f.list [] = f.lineBreak ++ (code ++ (f.content ++ f.rest)) := by
      rw [Frame.list, Frame.ready, if_pos rfl, ← hcode]
      simp
    exact ⟨_, _, hlist, hlist, .refl _⟩
  · have hnil' : B.entries ≠ [] := fun hB => hnil (hB ▸ hperm).eq_nil
    obtain ⟨ending, hnl, hending⟩ := h.isLineBreak.exists_eq
    obtain ⟨init, hinit⟩ := hA.exists_entries_eq_concat hnil
    obtain ⟨init', hinit'⟩ := hB.exists_entries_eq_concat hnil'
    have hflatten := hperm.flatten
    rw [hinit, hinit', List.perm_append_right_iff] at hflatten
    obtain ⟨l, hl, hlines⟩ := h.exists_lines_list hs hA hnl hending hcode hinit
    obtain ⟨m, hm, hlines'⟩ := h.exists_lines_list hs hB hnl hending hcode hinit'
    refine ⟨l, m, hl, hm, ?_⟩
    rw [hlines, hlines']
    exact ((hflatten.map _).append_right _).append_left _

/-- The order of additions does not matter to the lines of a tidy frame but for their order. -/
theorem Frame.Tidy.perm_lines (h : f.Tidy) (hs : spec.Accepted) (hA : A.Plain spec)
    (hB : B.Plain spec) (hperm : A.Perm B) :
    (Text.lines (f.add A).text).Perm (Text.lines (f.add B).text) := by
  obtain ⟨middle, hmiddle⟩ := h.middle
  obtain ⟨ending, hnl, hending⟩ := h.isLineBreak.exists_eq
  obtain ⟨l, m, hl, hm, hlist⟩ := h.perm_lines_list hs hA hB hperm.entries
  have hlines {A : Additions} (hA : A.Plain spec) {l : Text}
      (hl : f.list A.entries = f.lineBreak ++ l) : Text.lines (f.add A).text =
        Text.lines (f.front ++ ending) ++
          (A.imports.flatten.map (fun l => f.importIndent ++ (l ++ ending)) ++
            (Text.lines (middle ++ ending) ++
              (A.constants.flatten.map (fun l => f.constantIndent ++ (l ++ ending)) ++
                Text.lines l))) := by
    obtain ⟨himports, hconstants, -⟩ := hA.newline_not_mem hs
    rw [← Text.lines_append_block fun l hl => List.not_mem_append h.newline_not_mem_constantIndent
        (List.not_mem_append (hconstants l hl) hending),
      ← Text.lines_append_block fun l hl => List.not_mem_append h.newline_not_mem_importIndent
        (List.not_mem_append (himports l hl) hending),
      Frame.text_add, hl, ← hmiddle, hnl]
    simp only [List.append_assoc, List.cons_append, List.nil_append]
  rw [hlines hA hl, hlines hB hm]
  exact ((hperm.imports.flatten.map _).append (((hperm.constants.flatten.map _).append
    hlist).append_left _)).append_left _

/-! ## Tidying up -/

/-- A registry with its line break right behind its last import and its last name constant, in place
of the blanks and the line break that stand there. -/
def AnchorSpec.tidied (spec : AnchorSpec) (doc : Text) : Text :=
  let anchors := spec.scan doc
  (anchors.constantEnd.toList ++ anchors.importEnd.toList).foldl
    (Text.endLineAt (Text.lineBreak doc).dropLast) doc

/-- A frame with its line break right behind the last import and the last name constant. -/
def Frame.tidied (f : Frame) : Frame :=
  { f with
    middle := f.lineBreak.dropLast ++ Text.fromNewline f.middle
    code := f.lineBreak.dropLast ++ Text.fromNewline f.code }

section Tidied

variable (h : Framing spec f p)
include h

/-- The document of a frame is tidied where the frame is cut. -/
theorem Framing.tidied_text : spec.tidied f.text = f.tidied.text := by
  obtain ⟨hmiddle, hcode⟩ := h.newline_mem
  have hconstants : Text.endLineAt f.lineBreak.dropLast f.text p.constantEnd =
      f.front ++ (f.middle ++ (f.tidied.code ++ (f.content ++ f.rest))) := by
    rw [h.constantEnd_eq, Frame.text, ← List.append_assoc, Text.endLineAt_append,
      Text.fromNewline_append_of_mem hcode]
    simp only [Frame.tidied, List.append_assoc]
  rw [AnchorSpec.tidied, h.clean.scan_eq, h.lineBreak_eq]
  change Text.endLineAt _ (Text.endLineAt _ f.text p.constantEnd) p.importEnd = _
  rw [hconstants, h.importEnd_eq, Text.endLineAt_append, Text.fromNewline_append_of_mem hmiddle]
  simp only [Frame.tidied, Frame.text, List.append_assoc]

/-- Additions are made behind what is tidied up. -/
theorem Framing.tidied_add (A : Additions) : (f.add A).tidied = f.tidied.add A := by
  obtain ⟨hmiddle, hcode⟩ := h.newline_mem
  by_cases hnil : A.entries = []
  · simp [Frame.add_of_entries_eq_nil hnil, Frame.tidied, Text.fromNewline_append_of_mem hmiddle]
  · simp [Frame.add_of_entries_ne_nil hnil, Frame.tidied, Text.fromNewline_append_of_mem hmiddle,
      Text.fromNewline_append_of_mem hcode]

theorem Framing.newline_not_mem_indents :
    newline ∉ f.importIndent ∧ newline ∉ f.constantIndent ∧ newline ∉ f.entryIndent := by
  have hnot {indent : Text} (hindent : ∀ x ∈ indent, Byte.isBlank x) : newline ∉ indent :=
    fun hmem => absurd (hindent newline hmem) (by decide)
  exact ⟨hnot h.isBlank_of_mem_importIndent, hnot h.isBlank_of_mem_constantIndent,
    hnot h.isBlank_of_mem_entryIndent⟩

theorem Framing.tidy_tidied : f.tidied.Tidy := by
  obtain ⟨himport, hconstant, hentry⟩ := h.newline_not_mem_indents
  obtain ⟨hmiddle, hcode⟩ := h.newline_mem
  exact ⟨h.isLineBreak, himport, hconstant, hentry, h.isLineBreak.prefix_ending_append hmiddle,
    h.isLineBreak.prefix_ending_append hcode⟩

/-- A frame is tidy when the line break of its document follows both statements. -/
theorem Framing.tidy (himports : Text.lineBreak f.text <+: f.text.drop p.importEnd)
    (hconstants : Text.lineBreak f.text <+: f.text.drop p.constantEnd) : f.Tidy := by
  obtain ⟨himport, hconstant, hentry⟩ := h.newline_not_mem_indents
  obtain ⟨hmiddle, hcode⟩ := h.newline_mem
  rw [h.lineBreak_eq, h.importEnd_eq, Frame.text, List.drop_left] at himports
  rw [h.lineBreak_eq, h.constantEnd_eq, Frame.text, ← List.append_assoc,
    List.drop_left] at hconstants
  exact ⟨h.isLineBreak, himport, hconstant, hentry, h.isLineBreak.prefix_of_append hmiddle himports,
    h.isLineBreak.prefix_of_append hcode hconstants⟩

end Tidied

end Filled

/-! ## Two routes -/

/-- Of two declarations the second is lacking unless the first is the same, in either order. -/
theorem perm_lacking {doc doc₁ doc₂ : Text} {x y : List Text}
    (h₁ : declares doc₁ y = true ↔ declares doc y = true ∨ y = x)
    (h₂ : declares doc₂ x = true ↔ declares doc x = true ∨ x = y) :
    (lacking doc x ++ lacking doc₁ y).Perm (lacking doc y ++ lacking doc₂ x) := by
  by_cases hxy : x = y
  · subst hxy
    simp [lacking, h₁.mpr (Or.inr rfl), h₂.mpr (Or.inr rfl)]
  · have h₁ : lacking doc₁ y = lacking doc y := by
      simp only [lacking, h₁, Ne.symm hxy, or_false]
    have h₂ : lacking doc₂ x = lacking doc x := by
      simp only [lacking, h₂, hxy, or_false]
    rw [h₁, h₂]
    exact List.perm_append_comm

section Routes

variable {spec : AnchorSpec} {f : Frame} {p : Places} {a b : Route}

/-- What a registry declares once a route is registered, when settling its list changes nothing. -/
theorem Framing.declares_missing (h : Framing spec f p) (hs : spec.Plain) (ha : a.Plain)
    {d : List Text} (hd : IsDeclaration spec d)
    (hsettled : declares f.settled.text d = true ↔ declares f.text d = true) :
    declares (f.add (missing spec f.text a)).text d = true ↔
      declares f.text d = true ∨ d ∈ declarations spec a := by
  have hready : declares (f.ready (missing spec f.text a).entries).text d = true ↔
      declares f.text d = true := by
    rw [Frame.ready]
    split
    · exact Iff.rfl
    · exact hsettled
  rw [(h.add hs (plain_missing spec f.text ha)).2 d hd, hready, mem_all_missing]
  cases declares f.text d <;> simp

/-- Declarations of different kinds have different numbers of lines. -/
theorem mem_declarations_iff (spec : AnchorSpec) (a b : Route) :
    (importLines b ∈ declarations spec a ↔ importLines b = importLines a) ∧
      (constantLines b ∈ declarations spec a ↔ constantLines b = constantLines a) ∧
      (entryLines spec b ∈ declarations spec a ↔ entryLines spec b = entryLines spec a) := by
  have hne {d d' : List Text} (h : d.length ≠ d'.length) : d ≠ d' := fun heq => h (heq ▸ rfl)
  have himport : importLines b ≠ constantLines a ∧ importLines b ≠ entryLines spec a :=
    ⟨hne (by simp [importLines, constantLines]), hne (by simp [importLines, entryLines])⟩
  have hconstants : constantLines b ≠ importLines a ∧ constantLines b ≠ entryLines spec a :=
    ⟨hne (by simp [importLines, constantLines]), hne (by simp [constantLines, entryLines])⟩
  have hentry : entryLines spec b ≠ importLines a ∧ entryLines spec b ≠ constantLines a :=
    ⟨hne (by simp [importLines, entryLines]), hne (by simp [constantLines, entryLines])⟩
  simp [declarations, himport, hconstants, hentry]

/-- Two routes make the same additions in either order, when settling the list changes nothing for
them. -/
theorem Framing.perm_additions (h : Framing spec f p) (hs : spec.Plain) (ha : a.Plain)
    (hb : b.Plain)
    (hsettled : ∀ d ∈ declarations spec a ++ declarations spec b,
      declares f.settled.text d = true ↔ declares f.text d = true) :
    (f.additions spec [a, b]).Perm (f.additions spec [b, a]) := by
  obtain ⟨hA, hB⟩ := List.forall_mem_append.mp hsettled
  have hab (d : List Text) (hd : d ∈ declarations spec b) :=
    h.declares_missing hs ha ⟨b, hb, hd⟩ (hB d hd)
  have hba (d : List Text) (hd : d ∈ declarations spec a) :=
    h.declares_missing hs hb ⟨a, ha, hd⟩ (hA d hd)
  have htwo (r r' : Route) : f.additions spec [r, r'] = missing spec f.text r ++
      missing spec (f.add (missing spec f.text r)).text r' := by
    have hnil (A : Additions) : {} ++ A = A := Additions.ext rfl rfl rfl
    simp only [Frame.additions, List.foldl_cons, List.foldl_nil, Frame.add_nil, hnil]
  obtain ⟨himport, hconstants, hentry⟩ := mem_declarations_iff spec a b
  obtain ⟨himport', hconstants', hentry'⟩ := mem_declarations_iff spec b a
  rw [htwo, htwo]
  refine ⟨perm_lacking ?_ ?_, perm_lacking ?_ ?_, perm_lacking ?_ ?_⟩
  · exact (hab _ (by simp [declarations])).trans (or_congr_right himport)
  · exact (hba _ (by simp [declarations])).trans (or_congr_right himport')
  · exact (hab _ (by simp [declarations])).trans (or_congr_right hconstants)
  · exact (hba _ (by simp [declarations])).trans (or_congr_right hconstants')
  · exact (hab _ (by simp [declarations])).trans (or_congr_right hentry)
  · exact (hba _ (by simp [declarations])).trans (or_congr_right hentry')

end Routes

/-- Two routes registered in a clean registry in either order, under any policies, give documents of
the same length that both declare both routes; provided that the presence of none of their
declarations hangs on the comma and the line break that the list gets with its first entry. With the
line break of the registry right behind their last imports and name constants they have the same
lines, and where it stands there from the start they have the same lines as they are. -/
theorem registerAll_comm {spec : AnchorSpec} (hs : spec.Plain) {doc : Text} {p : Places}
    (h : CleanAt spec doc p) {a b : Route} (ha : IsPlainFeature a) (hb : IsPlainFeature b)
    (hsettled : ∀ site : EntrySite doc (spec.listStart p.listOpen) p.listClose,
      ∀ d ∈ declarations spec a ++ declarations spec b,
        declares site.settled d = true ↔ declares doc d = true)
    (first second first' second' : Policy) :
    let text := registerAll spec doc [(first, a), (second, b)]
    let text' := registerAll spec doc [(first', b), (second', a)]
    text.length = text'.length ∧
      (Text.lines (spec.tidied text)).Perm (Text.lines (spec.tidied text')) ∧
      (Text.lineBreak doc <+: doc.drop p.importEnd → Text.lineBreak doc <+: doc.drop p.constantEnd →
        (Text.lines text).Perm (Text.lines text')) ∧
      ∀ d ∈ declarations spec a ++ declarations spec b,
        declares text d = true ∧ declares text' d = true := by
  obtain ⟨f, rfl, hf⟩ := h.exists_framing
  obtain ⟨site, hcuts⟩ := hf.exists_site
  have hsettled := hsettled site
  rw [hcuts.settled_eq] at hsettled
  have hplain : ∀ r ∈ [a, b], r.Plain :=
    List.forall_mem_cons.mpr ⟨ha.plain, List.forall_mem_singleton.mpr hb.plain⟩
  have hplain' : ∀ r ∈ [b, a], r.Plain :=
    List.forall_mem_cons.mpr ⟨hb.plain, List.forall_mem_singleton.mpr ha.plain⟩
  have htext := hf.registerAll hs [(first, a), (second, b)] (List.forall_mem_map.mp hplain)
  have htext' := hf.registerAll hs [(first', b), (second', a)] (List.forall_mem_map.mp hplain')
  have hA := plain_additions spec f hplain
  have hB := plain_additions spec f hplain'
  obtain ⟨⟨q, hq⟩, -⟩ := hf.add hs hA
  obtain ⟨⟨q', hq'⟩, -⟩ := hf.add hs hB
  have hperm := hf.perm_additions hs ha.plain hb.plain hsettled
  intro text text'
  rw [show text = (f.add (f.additions spec [a, b])).text from htext,
    show text' = (f.add (f.additions spec [b, a])).text from htext']
  refine ⟨length_text_add f hperm, ?_, fun himports hconstants =>
    (hf.tidy himports hconstants).perm_lines hs.toAccepted hA hB hperm, fun d hd => ?_⟩
  · rw [hq.tidied_text, hq'.tidied_text, hf.tidied_add, hf.tidied_add]
    exact hf.tidy_tidied.perm_lines hs.toAccepted hA hB hperm
  have hspares (earlier : List Route) {r : Route}
      (hr : constantLines r ∈ declarations spec a ++ declarations spec b) :
      f.Spares spec earlier r := fun _ hold => (hsettled _ hr).mpr hold
  have hsparesA (earlier : List Route) : f.Spares spec earlier a :=
    hspares earlier (by simp [declarations])
  have hsparesB (earlier : List Route) : f.Spares spec earlier b :=
    hspares earlier (by simp [declarations])
  rcases List.mem_append.mp hd with hd | hd
  · exact ⟨hf.declares_additions hs [] rfl hplain (hsparesA _) d hd,
      hf.declares_additions hs [b] rfl hplain' (hsparesA _) d hd⟩
  · exact ⟨hf.declares_additions hs [a] rfl hplain (hsparesB _) d hd,
      hf.declares_additions hs [] rfl hplain' (hsparesB _) d hd⟩

/-- Two features in a registry whose list lacks its comma and shares the line of its brackets, and
whose lines end in different ways. -/
theorem registerAll_comm_shared_line :
    let home := Route.ofFeature ⟨[lit "home"]⟩ (lit "../home.dart")
    let user := Route.ofFeature ⟨[lit "user"]⟩ (lit "user.dart")
    let doc := lit "import 'a.dart';  \r\nclass Router \x7b\n  static const String aName = 'a'; \n\x7d\n" ++
      lit "final r = G(routes: [A() /* home */]);"
    let text := registerAll {} doc [(.atomic, home), (.bestEffort, user)]
    let text' := registerAll {} doc [(.bestEffort, user), (.bestEffort, home)]
    text.length = text'.length ∧
      (Text.lines (AnchorSpec.tidied {} text)).Perm (Text.lines (AnchorSpec.tidied {} text')) := by
  repeat rw [lit_ofList]
  intro home user doc text text'
  have hs : AnchorSpec.Plain {} :=
    ⟨⟨by decide, by decide, by decide⟩, by decide⟩
  have h : CleanAt {} doc ⟨16, 20, 33, 71, 69, 85, 108⟩ := by
    refine ⟨?_, ?_, ?_, ?_, ?_, ?_, ?_⟩ <;> decide +kernel
  have hhome : IsPlainFeature home :=
    ⟨lit "home", _, _, rfl, by decide, List.all_eq_true.mp rfl, rfl⟩
  have huser : IsPlainFeature user :=
    ⟨lit "user", _, _, rfl, by decide, List.all_eq_true.mp rfl, rfl⟩
  obtain ⟨cut, hsettled⟩ : ∃ cut : EntrySite doc 94 108,
      ∀ d ∈ declarations {} home ++ declarations {} user,
        declares cut.settled d = true ↔ declares doc d = true := by
    refine ⟨⟨doc.take 97, lit ",", lit " /* home */", [], lit "]);", entryIndent doc 94 108, ?_,
      ?_, ?_, by simp, ?_, rfl, Or.inr ⟨rfl, 96, ?_, ?_, ?_⟩⟩, ?_⟩ <;> decide +kernel
  obtain ⟨hlength, hperm, -⟩ := registerAll_comm hs h hhome huser
    (fun site => Subsingleton.elim cut site ▸ hsettled) .atomic .bestEffort .bestEffort .bestEffort
  exact ⟨hlength, hperm⟩

/-- The order shows where the list lacks a comma behind the entry of `b`, which counts as present
once `a` is registered and is written again otherwise; and where blanks follow the last import, as
they end up behind the import that is written last. -/
theorem registerAll_order_shows :
    let a := Route.ofFeature ⟨[lit "a"]⟩ (lit "a.dart")
    let b := Route.ofFeature ⟨[lit "b"]⟩ (lit "b.dart")
    let doc := lit "import 'a';\nclass Router \x7b\n  static const String aName = 'a';\n\x7d\n" ++
      lit "routes: [\n  GoRoute(\n    path: Router.b,\n    name: Router.bName,\n" ++
      lit "    builder: (context, state) => const BPage(),\n  )\n]\n"
    let blanks := lit "import 'a';  \nclass Router \x7b\n  static const String aName = 'a';\n\x7d\n" ++
      lit "routes: [\n]\n"
    CleanAt {} doc ⟨11, 12, 25, 62, 61, 64, 181⟩ ∧
      (registerAll {} doc [(.atomic, a), (.atomic, b)]).length = 460 ∧
      (registerAll {} doc [(.atomic, b), (.atomic, a)]).length = 568 ∧
      CleanAt {} blanks ⟨11, 14, 27, 64, 63, 66, 76⟩ ∧
      ¬ (Text.lines (registerAll {} blanks [(.atomic, a), (.atomic, b)])).Perm
        (Text.lines (registerAll {} blanks [(.atomic, b), (.atomic, a)])) := by
  repeat rw [lit_ofList]
  intro a b doc blanks
  refine ⟨⟨?_, ?_, ?_, ?_, ?_, ?_, ?_⟩, ?_, ?_, ⟨?_, ?_, ?_, ?_, ?_, ?_, ?_⟩, ?_⟩ <;> decide +kernel

end FlutterScaffold.Registry
