import FlutterScaffold.Proofs.Registry.Declaring
import FlutterScaffold.Proofs.Registry.Entered
import FlutterScaffold.Proofs.Registry.Idempotency

/-!
# The constants that a registry declares

Each route brings two constants, one called by its identifier and one by its identifier and `Name`.
A patch adds to the constants that a document declares those of its route or none, and changes no
others (`exists_perm_constantsIn_patch`): what is inserted stands on lines of its own, and no line
loses or gains a constant at the places where the document is cut. So a run declares a constant
twice only when the identifier of one feature is that of another followed by `Name`
(`disjoint_constants_iff`).
-/

namespace FlutterScaffold.Registry

open FlutterScaffold.Text (block firstLine splice)
open Byte (newline isBlank isIdentifier isSpace)

section Merges

variable {spec : AnchorSpec} {doc : Text} {route : Route}

/-- The constants that the lines of a route declare. -/
def constants (route : Route) : List Text := (constantLines route).filterMap declaredConstant?

/-- A constant declares its name. -/
theorem declaredConstant?_constantLine {name : Text} (hne : name ≠ [])
    (hname : ∀ c ∈ name, isIdentifier c) (value : Text) :
    declaredConstant? (constantLine name value) = some name := by
  obtain ⟨b, more, rfl⟩ := List.exists_cons_of_ne_nil hne
  obtain ⟨t, ht⟩ : ∃ t, t = b :: more ++ lit " = " ++ Dart.stringLiteral value ++ lit ";" :=
    ⟨_, rfl⟩
  have hline : constantLine (b :: more) value = lit "static const String " ++ t := by
    simp [constantLine, ht]
  have hspace : skipSpace t = t := by
    simp [ht, skipSpace, Byte.not_isSpace_of_isIdentifier b (hname b (List.mem_cons_self ..))]
  have hword : t.takeWhile isIdentifier = b :: more := by
    rw [ht, List.append_assoc, List.append_assoc, List.takeWhile_append_of_pos hname]
    exact List.append_nil _
  have hrest : declaredConstant? (lit "static const String " ++ t) =
      if ((skipSpace t).takeWhile isIdentifier).isEmpty then none
        else some ((skipSpace t).takeWhile isIdentifier) := rfl
  rw [hline, hrest, hspace, hword]
  rfl

/-- The constants of a route are its symbol and the symbol with `Name` behind it. -/
theorem constants_eq (hr : route.Regular) :
    constants route = [route.symbol, route.symbol ++ lit "Name"] := by
  have halnum : ∀ b, Byte.isAlnum b → isIdentifier b := by decide +kernel
  have hsymbol : ∀ b ∈ route.symbol, isIdentifier b := fun b hb => halnum b (hr.symbol_alnum b hb)
  obtain ⟨b, rest, hstart, -⟩ := hr.symbol_start
  have hne : route.symbol ≠ [] := by simp [hstart]
  have hname : ∀ b ∈ route.symbol ++ lit "Name", isIdentifier b :=
    List.forall_mem_append.mpr ⟨hsymbol, List.all_eq_true.mp rfl⟩
  simp [constants, constantLines, declaredConstant?_constantLine hne hsymbol,
    declaredConstant?_constantLine (List.append_ne_nil_of_left_ne_nil hne _) hname]

theorem ended_semicolon (t : Text) : Ended (t ++ [byte ';']) :=
  ⟨t, byte ';', rfl, by decide, by decide⟩

/-- What the import's merge inserts declares no constant. -/
theorem additive_mergeImport (spec : AnchorSpec) (doc : Text) (hpath : newline ∉ route.importPath) :
    ∀ i ∈ (mergeImport doc (spec.scan doc) route).insertions,
      Additive doc i ∧ constantsIn i.text = [] := by
  intro i hi
  obtain ⟨a, m, b, nl, indent, rfl, -, -, hm, hnl, hindent, heq⟩ :=
    exists_of_mergeImport (List.ne_nil_of_mem hi)
  rw [heq, List.mem_singleton] at hi
  obtain ⟨m', rfl⟩ := exists_append_of_isImport hm
  have hended : Ended (a ++ (m' ++ [byte ';'])) := List.append_assoc a m' _ ▸ ended_semicolon _
  have hline : ∃ last ∈ (importLines route).getLast?, Ended last := ⟨_, rfl, ended_semicolon _⟩
  obtain ⟨hadditive, hperm⟩ := additive_block (b := b) (Or.inl hended) hnl hindent
    (newline_not_mem_importLines hpath) hline (Or.inl rfl)
  have hnone : (importLines route).filterMap declaredConstant? = [] := rfl
  rw [List.append_nil] at hadditive hperm
  rw [hnone] at hperm
  rw [hi]
  exact ⟨hadditive, hperm.eq_nil⟩

/-- What the constants' merge inserts declares constants of the route alone. -/
theorem additive_mergeConstants (spec : AnchorSpec) (doc : Text) (hr : route.Regular) :
    (∀ i ∈ (mergeConstants doc (spec.scan doc) route).insertions, Additive doc i) ∧
      ∃ added, added.Sublist (constants route) ∧
        ((mergeConstants doc (spec.scan doc) route).insertions.flatMap
          fun i => constantsIn i.text).Perm added := by
  by_cases hnil : (mergeConstants doc (spec.scan doc) route).insertions = []
  · rw [hnil]
    exact ⟨by simp, [], List.nil_sublist _, .nil⟩
  obtain ⟨a, m, b, nl, indent, rfl, -, hm, hnl, hindent, heq⟩ := exists_of_mergeConstants hnil
  obtain ⟨m', rfl⟩ := exists_append_of_isNameConstant hm
  have hended : Ended (a ++ (m' ++ [byte ';'])) := List.append_assoc a m' _ ▸ ended_semicolon _
  have hline : ∃ last ∈ (constantLines route).getLast?, Ended last := ⟨_, rfl, ended_semicolon _⟩
  obtain ⟨hadditive, hperm⟩ := additive_block (b := b) (Or.inl hended) hnl hindent
    (newline_not_mem_constantLines hr) hline (Or.inl rfl)
  rw [List.append_nil] at hadditive hperm
  rw [heq]
  exact ⟨List.forall_mem_singleton.mpr hadditive, constants route, List.Sublist.refl _,
    by simpa [constants] using hperm⟩

/-- The layout in front of the closer and the closer itself go on with nothing. -/
theorem EntrySite.idle_layout {start closer : Nat} {site : EntrySite doc start closer}
    (hclosed : site.Closed) : Idle (firstLine (site.layout ++ site.rest)) := by
  have hlayout : ∀ x ∈ site.layout, isSpace x := fun x hx =>
    Byte.isSpace_of_isLayout x (site.isLayout_of_mem x hx)
  by_cases hnewline : newline ∈ site.layout
  · rw [Text.firstLine_append_of_mem hnewline]
    exact idle_of_isSpace fun x hx => hlayout x ((List.takeWhile_prefix _).subset hx)
  · rw [Text.firstLine_append hnewline, List.eq_cons_of_mem_head? hclosed, firstLine,
      List.takeWhile_cons, if_pos (by decide)]
    exact (idle_cons (by decide) (by decide) _).append_left hlayout

/-- What follows the place of a comma goes on with nothing. -/
theorem EntrySite.CommaPlace.idle_content {start closer : Nat} {site : EntrySite doc start closer}
    (h : site.CommaPlace) (hclosed : site.Closed) :
    Idle (firstLine (site.content ++ (site.layout ++ site.rest))) := by
  obtain ⟨spaces, v, hcontent, hspaces, hv⟩ := h.content_spec
  rw [hcontent, List.append_assoc]
  by_cases hnewline : newline ∈ spaces
  · rw [Text.firstLine_append_of_mem hnewline]
    exact idle_of_isSpace fun x hx => hspaces x ((List.takeWhile_prefix _).subset hx)
  · rw [Text.firstLine_append hnewline]
    refine Idle.append_left hspaces ?_
    rcases hv with rfl | ⟨d, more, hv, -⟩
    · exact EntrySite.idle_layout hclosed
    · rw [hv, firstLine, List.takeWhile_cons, if_pos (by decide)]
      exact idle_cons (by decide) (by decide) _

/-- Every line of an entry is written on one line. -/
theorem newline_not_mem_entryLines (hs : spec.Accepted) (hr : route.Regular) :
    ∀ l ∈ entryLines spec route, newline ∉ l := fun l hl hmem =>
  absurd (isEntryByte_of_mem_entryLines hs hr l hl _ hmem) (by decide)

/-- An entry declares no constants and touches no declaration. -/
theorem additive_entryInsertion {start closer : Nat} (site : EntrySite doc start closer)
    (hclosed : site.Closed) (hs : spec.Accepted) (hr : route.Regular) :
    Additive doc (entryInsertion spec doc start closer route) ∧
      constantsIn (entryInsertion spec doc start closer route).text = [] := by
  obtain ⟨closing, hclosing, htext⟩ : ∃ closing,
      Closing (Text.lineBreak doc) closing (site.layout ++ site.rest) ∧
      entryInsertion spec doc start closer route =
        ⟨(site.code ++ site.content).length, block (Text.lineBreak doc)
          (entryIndent doc start closer) (entryLines spec route) ++ closing⟩ := by
    rw [entryInsertion, site.length_content]
    split
    · exact ⟨[], Or.inl rfl, rfl⟩
    · exact ⟨_, Or.inr ⟨EntrySite.idle_layout hclosed, _, fun x =>
        Text.isBlank_of_mem_lineIndent, rfl⟩,
        rfl⟩
  have hlast : ∃ last ∈ (entryLines spec route).getLast?, Ended last :=
    ⟨lit "),", rfl, lit ")", byte ',', rfl, by decide, by decide⟩
  obtain ⟨hadditive, hperm⟩ := additive_block (Or.inr (EntrySite.idle_layout hclosed))
    (Text.isLineBreak_lineBreak doc) isBlank_of_mem_entryIndent
    (newline_not_mem_entryLines hs hr) hlast hclosing
  have hnone : (entryLines spec route).filterMap declaredConstant? = [] := rfl
  rw [hnone] at hperm
  rw [List.append_assoc, ← site.eq_append] at hadditive
  rw [htext]
  exact ⟨hadditive, hperm.eq_nil⟩

/-- What the entry's merge inserts declares no constant. The comma goes behind the last byte of
code, and what follows it there declares nothing. -/
theorem additive_mergeEntry (doc : Text) (hs : spec.Accepted) (hr : route.Regular) :
    ∀ i ∈ (mergeEntry spec doc (spec.scan doc) route).insertions,
      Additive doc i ∧ constantsIn i.text = [] := by
  intro i hi
  obtain ⟨o, closer, hopen, hclose, hmerge⟩ := exists_of_mergeEntry (List.ne_nil_of_mem hi)
  obtain ⟨opener, hopener, hmatch⟩ := exists_of_listClose? hclose
  have hbracket := getElem?_of_listOpen? hs hopen
  rw [hopener, Nat.add_sub_cancel] at hbracket
  obtain ⟨site, -⟩ := exists_site spec (listStart_le_of_listClose? hclose).1
    (listStart_le_of_listClose? hclose).2.le (lastCode?_lt_of_listClose? hclose)
  have hclosed : site.Closed := site.closed hopener hmatch hbracket
  have hentry := additive_entryInsertion site hclosed hs hr
  rw [hmerge] at hi
  rcases appendEntry_insertions spec doc (spec.listStart o) closer with
    ⟨-, heq⟩ | ⟨last, hlast, hne, heq⟩
  · rw [heq, List.mem_singleton] at hi
    exact hi ▸ hentry
  · rw [heq] at hi
    rcases List.mem_cons.mp hi with rfl | hi
    · obtain ⟨-, -, hcomma⟩ | ⟨hcomma, last', hlast', -, hlength⟩ := site.comma_spec
      · exact absurd (hcomma last hlast) hne
      · obtain rfl := Option.some.inj (hlast.symm.trans hlast')
        obtain ⟨hnil, -⟩ | hplace := site.comma_cases hopener hmatch
        · rw [hnil] at hcomma
          exact absurd hcomma (by simp)
        · have hadditive := additive_comma (a := site.code) (hplace.idle_content hclosed)
          rw [← site.eq_append, hlength] at hadditive
          exact ⟨hadditive, rfl⟩
    · exact List.mem_singleton.mp hi ▸ hentry

/-! ## Whole patches -/

/-- Insertions that declare nothing keep the constants of a document. -/
theorem perm_constantsIn_splice_of_nil {l : List Insertion}
    (h : ∀ i ∈ l, Additive doc i ∧ constantsIn i.text = []) :
    (constantsIn (splice doc l)).Perm (constantsIn doc) := by
  have hnone : (l.flatMap fun i => constantsIn i.text) = [] :=
    List.flatMap_eq_nil_iff.mpr fun i hi => (h i hi).2
  simpa [hnone] using perm_constantsIn_splice fun i hi => (h i hi).1

/-- A patch adds to the constants of a document those of its route or none. -/
theorem exists_perm_constantsIn_patch (hs : spec.Accepted) (hr : route.Regular)
    (hpath : newline ∉ route.importPath) (policy : Policy) (doc : Text) :
    ∃ added, added.Sublist (constants route) ∧
      (constantsIn (patch spec policy doc route).text).Perm (constantsIn doc ++ added) := by
  have hunchanged : ∃ added, added.Sublist (constants route) ∧
      (constantsIn doc).Perm (constantsIn doc ++ added) :=
    ⟨[], List.nil_sublist _, by simp⟩
  cases policy with
  | atomic =>
    rcases text_patchAtomic spec doc route with htext | htext <;> rw [patch, htext]
    · exact hunchanged
    · have himport := additive_mergeImport spec doc hpath
      obtain ⟨hconstants, added, hsub, hadded⟩ :=
        additive_mergeConstants spec doc hr
      have hentry := additive_mergeEntry doc hs hr
      have hperm := perm_constantsIn_splice (List.forall_mem_append.mpr
        ⟨List.forall_mem_append.mpr ⟨fun i hi => (himport i hi).1, hconstants⟩,
          fun i hi => (hentry i hi).1⟩)
      rw [List.flatMap_append, List.flatMap_append,
        List.flatMap_eq_nil_iff.mpr fun i hi => (himport i hi).2,
        List.flatMap_eq_nil_iff.mpr fun i hi => (hentry i hi).2, List.nil_append,
        List.append_nil] at hperm
      exact ⟨added, hsub, hperm.trans (hadded.append_left _)⟩
  | bestEffort =>
    obtain ⟨seen, done, hseen, hdone, htext⟩ := text_patchBestEffort spec doc route
    have himport : (constantsIn seen).Perm (constantsIn doc) :=
      hseen ▸ perm_constantsIn_splice_of_nil (additive_mergeImport spec doc hpath)
    rcases htext with htext | htext | htext <;> rw [patch, htext]
    · exact hunchanged
    · exact ⟨[], List.nil_sublist _, by simpa using himport⟩
    · obtain ⟨hconstants, added, hsub, hadded⟩ := additive_mergeConstants spec seen hr
      have hperm := perm_constantsIn_splice hconstants
      rw [hdone] at hperm
      have hentry := perm_constantsIn_splice_of_nil (additive_mergeEntry done hs hr)
      refine ⟨added, hsub, ?_⟩
      exact hentry.trans (hperm.trans ((hadded.append_left _).trans (himport.append_right _)))

end Merges

/-! ## Runs -/

/-- A document with routes registered in it one after the other. -/
def registerAll (spec : AnchorSpec) (doc : Text) (registrations : List (Policy × Route)) : Text :=
  registrations.foldl (fun doc r => (patch spec r.1 doc r.2).text) doc

/-- The route to the page of a feature with a usable name, whose import is written on one line. -/
def IsFeature (route : Route) : Prop :=
  ∃ text name importPath, Name.validate text = .ok name ∧ newline ∉ importPath ∧
    route = Route.ofFeature name importPath

/-- Neither identifier is the other one followed by `Name`. -/
def Unrelated (route route' : Route) : Prop :=
  route.symbol ≠ route'.symbol ++ lit "Name" ∧ route'.symbol ≠ route.symbol ++ lit "Name"

section Runs

variable {spec : AnchorSpec} {route route' : Route} {registrations : List (Policy × Route)}

/-- A run adds to the constants of a document some of those of its routes. -/
theorem exists_perm_constantsIn_registerAll (hs : spec.Accepted)
    (h : ∀ r ∈ registrations, r.2.Regular ∧ newline ∉ r.2.importPath) (doc : Text) :
    ∃ added, added.Sublist (registrations.flatMap fun r => constants r.2) ∧
      (constantsIn (registerAll spec doc registrations)).Perm (constantsIn doc ++ added) := by
  induction registrations generalizing doc with
  | nil => exact ⟨[], List.nil_sublist _, by simp [registerAll]⟩
  | cons r registrations ih =>
    obtain ⟨⟨hr, hpath⟩, hmore⟩ := List.forall_mem_cons.mp h
    obtain ⟨first, hfirst, hpatch⟩ := exists_perm_constantsIn_patch hs hr hpath r.1 doc
    obtain ⟨rest, hrest, hperm⟩ := ih hmore (patch spec r.1 doc r.2).text
    refine ⟨first ++ rest, hfirst.append hrest, hperm.trans ?_⟩
    rw [← List.append_assoc]
    exact hpatch.append_right rest

/-- Two routes with different identifiers declare different constants, unless the identifier of one
is the name constant of the other. -/
theorem disjoint_constants_iff (hr : route.Regular) (hr' : route'.Regular)
    (hne : route.symbol ≠ route'.symbol) :
    (constants route).Disjoint (constants route') ↔ Unrelated route route' := by
  rw [constants_eq hr, constants_eq hr', Unrelated]
  have hnames : route.symbol ++ lit "Name" ≠ route'.symbol ++ lit "Name" := fun heq =>
    hne (List.append_left_injective _ heq)
  simp [hne, hnames, eq_comm, and_comm]

theorem nodup_constants (hr : route.Regular) : (constants route).Nodup := by
  rw [constants_eq hr]
  simp [lit]

end Runs

/-- Registering features with different identifiers declares a constant twice only where the
identifier of one feature is that of another followed by `Name`. -/
theorem registerAll_declares_once {spec : AnchorSpec} (hs : spec.Accepted)
    {registrations : List (Policy × Route)} (h : ∀ r ∈ registrations, IsFeature r.2)
    (hdistinct : registrations.Pairwise fun r r' => r.2.symbol ≠ r'.2.symbol) (doc : Text) :
    (registrations.Pairwise fun r r' =>
      (constants r.2).Disjoint (constants r'.2) ↔ Unrelated r.2 r'.2) ∧
    ∃ added, added.Sublist (registrations.flatMap fun r => constants r.2) ∧
      (constantsIn (registerAll spec doc registrations)).Perm (constantsIn doc ++ added) ∧
      ((registrations.Pairwise fun r r' => Unrelated r.2 r'.2) → added.Nodup) := by
  have hroutes : ∀ r ∈ registrations, r.2.Regular ∧ newline ∉ r.2.importPath := by
    intro r hr
    obtain ⟨text, name, importPath, hname, hpath, heq⟩ := h r hr
    rw [heq]
    exact ⟨Route.regular_ofFeature hname importPath, hpath⟩
  have hpairs : registrations.Pairwise fun r r' =>
      (constants r.2).Disjoint (constants r'.2) ↔ Unrelated r.2 r'.2 :=
    hdistinct.imp_of_mem fun hr hr' hne =>
      disjoint_constants_iff (hroutes _ hr).1 (hroutes _ hr').1 hne
  obtain ⟨added, hsub, hperm⟩ := exists_perm_constantsIn_registerAll hs hroutes doc
  refine ⟨hpairs, added, hsub, hperm, fun hunrelated => hsub.nodup ?_⟩
  exact List.nodup_flatMap.mpr ⟨fun r hr => nodup_constants (hroutes r hr).1,
    hpairs.imp₂ (fun _ _ => Iff.mpr) hunrelated⟩

/-- The features of `user` and `user_page` declare their constants once, under any policies. -/
theorem registerAll_declares_once_user_page :
    let user := Route.ofFeature ⟨[lit "user"]⟩ (lit "user.dart")
    let userPage := Route.ofFeature ⟨[lit "user", lit "page"]⟩ (lit "user_page.dart")
    let doc := lit "import 'a';\nclass Router \x7b\n  static const String bName = 'b';\n\x7d\n" ++
      lit "routes: [\n]\n"
    let registered := registerAll {} doc [(.atomic, user), (.bestEffort, userPage)]
    (constants user).Disjoint (constants userPage) ∧
      ∃ added, (constantsIn registered).Perm (constantsIn doc ++ added) ∧ added.Nodup := by
  intro user userPage doc registered
  have h : ∀ r ∈ [(Policy.atomic, user), (Policy.bestEffort, userPage)], IsFeature r.2 :=
    List.forall_mem_cons.mpr ⟨⟨lit "user", _, lit "user.dart", rfl, by decide, rfl⟩,
      List.forall_mem_singleton.mpr
        ⟨lit "user_page", _, lit "user_page.dart", rfl, by decide, rfl⟩⟩
  have hunrelated : Unrelated user userPage := ⟨by decide, by decide⟩
  obtain ⟨hpairs, added, -, hperm, hnodup⟩ := registerAll_declares_once
    (⟨by decide, by decide, by decide⟩ : AnchorSpec.Accepted {}) h (by decide) doc
  refine ⟨(List.pairwise_pair.mp hpairs).mpr hunrelated, added, hperm, hnodup ?_⟩
  exact List.pairwise_pair.mpr hunrelated

/-- The features of `user` and `user_name` have different identifiers, and a registry with both
declares `userName` twice. -/
theorem registerAll_declares_twice :
    let name : Name := ⟨[lit "user"]⟩
    let name' : Name := ⟨[lit "user", lit "name"]⟩
    let route := Route.ofFeature name (lit "u.dart")
    let route' := Route.ofFeature name' (lit "n.dart")
    let doc := lit "import 'a';\nclass Router \x7b\n  static const String bName = 'b';\n\x7d\n" ++
      lit "routes: [\n]\n"
    let registered := registerAll {} doc [(.atomic, route), (.atomic, route')]
    Name.validate (lit "user") = .ok name ∧ Name.validate (lit "user_name") = .ok name' ∧
      name.identifier ≠ name'.identifier ∧
      lit "userName" ∈ constants route ∧ lit "userName" ∈ constants route' ∧
      (constantsIn doc).count (lit "userName") = 0 ∧
      (constantsIn registered).count (lit "userName") = 2 := by
  decide +kernel

end FlutterScaffold.Registry
