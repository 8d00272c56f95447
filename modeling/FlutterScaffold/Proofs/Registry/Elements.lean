import FlutterScaffold.Proofs.Dart.Appending
import FlutterScaffold.Proofs.Registry.Entry
import FlutterScaffold.Proofs.Registry.Neutrality

/-!
# The elements of the route list

An entry that is inserted is one element more for the list, behind those that it had
(`mergeEntry_appends_element`). The list still starts at the same place and is closed by the same
bracket, and the comma that ends the entry is the last byte of code in front of it.
-/

namespace FlutterScaffold.Registry

open FlutterScaffold.Dart (Region comma elements nesting push splitElements)
open FlutterScaffold.Dart.Reader (codeOf isSilent)
open FlutterScaffold.Text (block splice IsLineBreak)
open Byte (isBlank isLayout)

/-- The entry of a route as an element of the list. -/
def entryElement (spec : AnchorSpec) (route : Route) : Text :=
  lit "GoRoute(path:" ++ spec.routerClass ++ lit "." ++ route.symbol ++ lit ",name:" ++
    spec.routerClass ++ lit "." ++ route.symbol ++
    lit "Name,builder:(context,state)=>const" ++ route.widget ++ lit "(),)"

section Code

variable {spec : AnchorSpec} {route : Route} {nl indent : Text}

theorem isSilent_of_isLayout (b : Byte) (h : isLayout b) : isSilent b := by
  simp only [isLayout, Byte.isMargin, isBlank, Bool.or_eq_true, beq_iff_eq] at h
  rcases h with ((rfl | rfl) | rfl) | rfl <;> rfl

theorem isSilent_of_isIdentifier : ∀ b, Byte.isIdentifier b → isSilent b := by
  decide +kernel

private theorem not_bracket_of_isIdentifier :
    ∀ b, Byte.isIdentifier b → Dart.closerOf? b = none ∧ Dart.isCloser b = false := by
  decide +kernel

/-- The code of two stretches is the code of the first and then that of the second. -/
private theorem codeOf_append (v w : Text) : codeOf (v ++ w) = codeOf v ++ codeOf w := by
  simp [codeOf]

/-- Layout holds no code. -/
private theorem codeOf_of_isLayout {w : Text} (hw : ∀ b ∈ w, isLayout b) : codeOf w = [] := by
  simpa [codeOf] using fun b hb => Byte.isSpace_of_isLayout b (hw b hb)

/-- All bytes of an identifier are code. -/
private theorem codeOf_of_isIdentifier {w : Text} (hw : ∀ b ∈ w, Byte.isIdentifier b) :
    codeOf w = w.map (·, .code) := by
  rw [codeOf, List.filter_eq_self.mpr]
  intro b hb
  simp [Byte.not_isSpace_of_isIdentifier b (hw b hb)]

/-- The brackets of an entry, and what stands between them. -/
theorem entryElement_eq (spec : AnchorSpec) (route : Route) : entryElement spec route =
    lit "GoRoute" ++ byte '(' :: (lit "path:" ++ spec.routerClass ++ lit "." ++ route.symbol ++
      lit "," ++ (lit "name:" ++ spec.routerClass ++ lit "." ++ route.symbol ++ lit "Name,") ++
      lit "builder:" ++ byte '(' :: (lit "context,state" ++ byte ')' :: (lit "=>const" ++
        route.widget ++ byte '(' :: byte ')' :: (lit "," ++ [byte ')'])))) := by
  have hpath : lit "GoRoute(path:" = lit "GoRoute" ++ byte '(' :: lit "path:" := by decide
  have hname : lit ",name:" = lit "," ++ lit "name:" := by decide
  have hbuilder : lit "Name,builder:(context,state)=>const" = lit "Name," ++ (lit "builder:" ++
      byte '(' :: (lit "context,state" ++ byte ')' :: lit "=>const")) := by decide
  have hend : lit "(),)" = byte '(' :: byte ')' :: (lit "," ++ [byte ')']) := by decide
  simp only [entryElement, hpath, hname, hbuilder, hend, List.append_assoc, List.cons_append]

/-- What is significant of an entry. -/
theorem codeOf_entryCode (hr : route.Regular) (hclass : ∀ b ∈ spec.routerClass, Byte.isIdentifier b)
    (hnl : IsLineBreak nl) (hindent : ∀ b ∈ indent, isBlank b) :
    codeOf (entryCode nl indent spec route) = (entryElement spec route).map (·, .code) := by
  have hlines : codeOf nl = [] := by rcases hnl with rfl | rfl <;> rfl
  have hblanks : codeOf indent = [] := codeOf_of_isLayout fun b hb =>
    Byte.isLayout_of_isBlank b (hindent b hb)
  have hname := codeOf_of_isIdentifier hclass
  have hsymbol := codeOf_of_isIdentifier fun b hb =>
    Byte.isIdentifier_of_isAlnum b (hr.symbol_alnum b hb)
  have hwidget := codeOf_of_isIdentifier fun b hb =>
    Byte.isIdentifier_of_isAlnum b (hr.widget_alnum b hb)
  have hopen (w : Text) : codeOf (byte '(' :: w) = (byte '(', .code) :: codeOf w := rfl
  have hclose (w : Text) : codeOf (byte ')' :: w) = (byte ')', .code) :: codeOf w := rfl
  simp only [entryCode, entryElement_eq, codeOf_append, hopen, hclose, hlines, hblanks, hname,
    hsymbol, hwidget, List.nil_append, List.map_append, List.map_cons, List.append_assoc,
    List.cons_append]
  rfl

/-- An entry is one element: its commas stand within its parentheses. What stands between the
brackets of an entry holds none, so its parentheses alone set the depth at which its commas
stand. -/
theorem splitElements_entryElement (hr : route.Regular)
    (hclass : ∀ b ∈ spec.routerClass, Byte.isIdentifier b) :
    splitElements 0 ((entryElement spec route).map (·, Region.code)) = [entryElement spec route] ∧
      ((entryElement spec route).map (·, Region.code)).foldl nesting 0 = 0 := by
  have hlit (w : Text) (h : w.all fun b => (Dart.closerOf? b).isNone && !Dart.isCloser b) :
      ∀ b ∈ w, Dart.closerOf? b = none ∧ Dart.isCloser b = false := by
    simpa using h
  have hname : ∀ b ∈ spec.routerClass, Dart.closerOf? b = none ∧ Dart.isCloser b = false :=
    fun b hb => not_bracket_of_isIdentifier b (hclass b hb)
  have hsymbol : ∀ b ∈ route.symbol, Dart.closerOf? b = none ∧ Dart.isCloser b = false :=
    fun b hb => not_bracket_of_isIdentifier b
      (Byte.isIdentifier_of_isAlnum b (hr.symbol_alnum b hb))
  have hwidget : ∀ b ∈ route.widget, Dart.closerOf? b = none ∧ Dart.isCloser b = false :=
    fun b hb => not_bracket_of_isIdentifier b
      (Byte.isIdentifier_of_isAlnum b (hr.widget_alnum b hb))
  obtain ⟨fields, hfields⟩ : ∃ fields, fields = lit "path:" ++ spec.routerClass ++ lit "." ++
      route.symbol ++ lit "," ++ (lit "name:" ++ spec.routerClass ++ lit "." ++ route.symbol ++
        lit "Name,") ++ lit "builder:" := ⟨_, rfl⟩
  have hplain : ∀ b ∈ fields, Dart.closerOf? b = none ∧ Dart.isCloser b = false := by
    simp only [hfields, List.forall_mem_append]
    exact ⟨⟨⟨⟨⟨⟨hlit _ rfl, hname⟩, hlit _ rfl⟩, hsymbol⟩, hlit _ rfl⟩,
      ⟨⟨⟨hlit _ rfl, hname⟩, hlit _ rfl⟩, hsymbol⟩, hlit _ rfl⟩, hlit _ rfl⟩
  obtain ⟨body, hbody⟩ : ∃ body, body = lit "=>const" ++ route.widget := ⟨_, rfl⟩
  have hplain' : ∀ b ∈ body, Dart.closerOf? b = none ∧ Dart.isCloser b = false :=
    hbody ▸ List.forall_mem_append.mpr ⟨hlit _ rfl, hwidget⟩
  have hstart := hlit (lit "GoRoute") rfl
  have harguments := hlit (lit "context,state") rfl
  have hcomma := hlit (lit ",") rfl
  rw [entryElement_eq, ← hfields, ← hbody]
  refine ⟨?_, ?_⟩
  · have hclosed : splitElements 0 ([] : List (Byte × Region)) = [[]] := rfl
    simp only [List.map_append, List.map_cons, List.map_nil]
    rw [Dart.splitElements_plain_append hstart (fun _ => by decide), Dart.splitElements_open,
      Dart.splitElements_plain_append hplain (by simp), Dart.splitElements_open,
      Dart.splitElements_plain_append harguments (by simp), Dart.splitElements_close,
      Dart.splitElements_plain_append hplain' (by simp), Dart.splitElements_open,
      Dart.splitElements_close, Dart.splitElements_plain_append hcomma (by simp),
      Dart.splitElements_close, hclosed]
    simp [push]
  · simp only [List.map_append, List.map_cons, List.map_nil, List.foldl_append, List.foldl_cons,
      List.foldl_nil, Dart.foldl_nesting_plain hstart, Dart.foldl_nesting_plain hplain,
      Dart.foldl_nesting_plain harguments, Dart.foldl_nesting_plain hplain',
      Dart.foldl_nesting_plain hcomma]
    rfl

end Code

/-! ## The list with an entry -/

variable {spec : AnchorSpec} {doc : Text} {opener closer : Nat}

/-- The code of a site reaches as far as the start of its list. -/
theorem EntrySite.start_le_code {start : Nat} (site : EntrySite doc start closer) :
    start ≤ site.code.length := by
  rcases site.comma_spec with ⟨-, hcontent, -⟩ | ⟨-, last, hlast, -, hlength⟩
  · simpa [hcontent] using site.start_le
  · have := (Dart.lastCode?_bounds hlast).1
    omega

/-- The contents of a list, cut where an entry goes. The opener is a byte of the site's code, and
what follows it there belongs to the contents. -/
theorem EntrySite.exists_contents (site : EntrySite doc (opener + 1) closer)
    (h : Dart.matchingBracket doc opener = some closer) :
    ∃ before b c a, before.length = opener ∧ Dart.closerOf? b = some c ∧
      site.code = before ++ b :: a ∧
      closer = opener + 1 + (a ++ (site.content ++ site.layout)).length ∧
      Dart.Reader.Contents c site.rest a site.comma site.content site.layout (opener + 1) := by
  obtain ⟨b, c, n, rest, hd, hb, hn, rfl⟩ := Dart.exists_of_matchingBracket h
  have hcode := site.start_le_code
  obtain ⟨before, x, a, hcut, hlen⟩ : ∃ before x a, site.code = before ++ x :: a ∧
      before.length = opener := by
    obtain ⟨x, a, ha⟩ := List.exists_cons_of_length_pos
      (show 0 < (site.code.drop opener).length by rw [List.length_drop]; omega)
    refine ⟨site.code.take opener, x, a, ?_, by rw [List.length_take]; omega⟩
    rw [← ha, List.take_append_drop]
  obtain ⟨contents, hcontents⟩ : ∃ contents, contents = a ++ (site.content ++ site.layout) :=
    ⟨_, rfl⟩
  have hdoc : doc = before ++ x :: (contents ++ site.rest) :=
    site.eq_append.trans (by simp [hcut, hcontents])
  obtain ⟨rfl, rfl⟩ : b = x ∧ rest = contents ++ site.rest := by
    have hdrop := Dart.drop_bracket hdoc
    rw [hlen] at hdrop
    exact List.cons.inj (hd.symm.trans hdrop)
  have hclose := site.length_eq
  obtain rfl : n = contents.length + 1 := by
    simp only [hcut, hcontents, List.length_append, List.length_cons] at hclose ⊢
    omega
  have hlast := Dart.lastCode?_eq_lastMark hdoc hb hn
  rw [hlen, Nat.add_assoc, Nat.add_comm 1] at hlast
  have hget {p : Nat}
      (hp : Dart.lastCode? doc (opener + 1) (opener + (contents.length + 1)) = some p) :
      doc[p]? = contents[p - (opener + 1)]? := by
    have hlo := (Dart.lastCode?_bounds hp).1
    have hhi := (Dart.lastCode?_lt_of_matchingBracket h hp).1
    rw [hdoc, ← List.singleton_append, ← List.append_assoc, List.getElem?_append_right
      (by simp; omega),
      List.getElem?_append_left (by simp; omega), List.length_append, List.length_singleton, hlen]
  refine ⟨before, b, c, a, hlen, hb, hcut, by rw [← hcontents]; omega, ?_, site.isLayout_of_mem, ?_⟩
  · rw [← hcontents]
    exact hn
  · rw [← hcontents, ← hlast]
    rcases site.comma_spec with ⟨hcomma, hnil, hlast⟩ | ⟨hcomma, last, hlast, hne, hlength⟩
    · exact Or.inl ⟨hcomma, hnil, fun p hp => hget hp ▸ hlast p hp⟩
    · refine Or.inr ⟨hcomma, last, hlast, hget hlast ▸ hne, ?_⟩
      rw [hcut, List.length_append, List.length_cons] at hlength
      omega

/-- Only layout stands between an entry and the bracket that closes the list. -/
theorem EntrySite.isLayout_of_mem_closing {start : Nat} (site : EntrySite doc start closer) :
    ∀ x ∈ site.closing ++ site.layout, isLayout x := by
  refine List.forall_mem_append.mpr ⟨fun x hx => ?_, site.isLayout_of_mem⟩
  rw [EntrySite.closing] at hx
  split at hx
  · simp at hx
  · rcases List.mem_append.mp hx with hx | hx
    · rcases Text.isLineBreak_lineBreak doc with h | h <;> rw [h] at hx <;>
        exact List.all_eq_true.mp (by decide) x hx
    · exact Byte.isLayout_of_isBlank x (Text.isBlank_of_mem_lineIndent hx)

/-- The list with an entry is closed by the same bracket, has one element more, and its last byte of
code is the comma of the entry. The new contents are cut behind the entry's code, where the comma of
the entry goes. -/
theorem EntrySite.entered_spec {route : Route} {start : Nat} (site : EntrySite doc start closer)
    (hstart : start = opener + 1) (h : Dart.matchingBracket doc opener = some closer)
    (hr : route.Regular) (hclass : ∀ b ∈ spec.routerClass, Byte.isIdentifier b) :
    ∃ closer' p, Dart.matchingBracket (site.entered spec route) opener = some closer' ∧
      closer' + doc.length = closer + (site.entered spec route).length ∧
      elements (site.entered spec route) start closer' =
        elements doc start closer ++ [entryElement spec route] ∧
      Dart.lastCode? (site.entered spec route) start closer' = some p ∧
      p + 1 = (site.code ++ (site.comma ++ (site.content ++
        block (Text.lineBreak doc) site.indent (entryLines spec route)))).length := by
  subst hstart
  obtain ⟨before, b, c, a, rfl, hb, hcode, hcloser, hcontents⟩ := site.exists_contents h
  have hnl := Text.isLineBreak_lineBreak doc
  have hcodeOf := codeOf_entryCode hr hclass hnl site.isBlank_of_mem
  obtain ⟨hsplit, hdepth⟩ := splitElements_entryElement hr hclass
  obtain ⟨code, hcode'⟩ : ∃ code, code = a ++ (site.comma ++ (site.content ++
      (Text.lineBreak doc ++ entryCode (Text.lineBreak doc) site.indent spec route))) := ⟨_, rfl⟩
  obtain ⟨contents, hcontents'⟩ : ∃ contents,
      contents = code ++ byte ',' :: (site.closing ++ site.layout) := ⟨_, rfl⟩
  obtain ⟨hclosed, helements, hlast⟩ := hcontents.append_element hnl
    (neutral_entryCode hr hclass hnl site.isBlank_of_mem)
    (forall_mem_entryCode hr hclass hnl site.isBlank_of_mem isSilent_of_isLayout
      isSilent_of_isIdentifier (List.all_eq_true.mp rfl))
    site.isLayout_of_mem_closing (hcodeOf ▸ hdepth) (hcodeOf ▸ hsplit) hcode' hcontents'
  have hdoc : doc = before ++ b :: ((a ++ (site.content ++ site.layout)) ++ site.rest) :=
    site.eq_append.trans (by simp [hcode])
  have hnew : site.entered spec route = before ++ b :: (contents ++ site.rest) := by
    simp [EntrySite.entered, block_entryLines, hcode, hcontents', hcode']
  have hold := (congrArg (elements doc (before.length + 1)) hcloser).trans (Dart.elements_eq hdoc)
  refine ⟨_, _, (Dart.matchingBracket_eq_iff hnew hb).mpr hclosed, ?_, ?_,
    (Dart.lastCode?_eq_lastMark hnew hb hclosed).trans hlast, ?_⟩
  · have hlength := congrArg List.length hdoc
    simp only [List.length_append, List.length_cons] at hlength hcloser
    simp only [hnew, List.length_append, List.length_cons]
    omega
  · rw [Dart.elements_eq hnew, helements, hold]
  · simp only [hcode, block_entryLines, hcode', List.length_append, List.length_cons,
      List.length_nil]
    omega

/-- The entry that a merge inserts is one more element of the list, which starts where it did. Its
closer is moved by the inserted bytes, and the comma of the entry is the last byte of code in front
of it. The list token stands in front of the entry, so it is the first one still. -/
theorem mergeEntry_appends_element {text importPath : Text} {name : Name} (doc : Text)
    (hclass : Project.isIdentifier spec.routerClass) (hname : Name.validate text = .ok name)
    (hstatus : (mergeEntry spec doc (spec.scan doc) (Route.ofFeature name importPath)).status =
      .inserted) :
    let route := Route.ofFeature name importPath
    let insertions := (mergeEntry spec doc (spec.scan doc) route).insertions
    let new := splice doc insertions
    ∃ o closer, (spec.scan doc).listOpen = some o ∧ (spec.scan doc).listClose = some closer ∧
      (spec.scan new).listOpen = some o ∧
      (spec.scan new).listClose = some (closer + Insertion.added insertions) ∧
      elements new (spec.listStart o) (closer + Insertion.added insertions) =
        elements doc (spec.listStart o) closer ++ [entryElement spec route] ∧
      ∃ code separator content indent closing after last,
        doc = code ++ (content ++ after) ∧
        new = code ++ (separator ++ (content ++
          (block (Text.lineBreak doc) indent (entryLines spec route) ++ (closing ++ after)))) ∧
        (separator = [] ∨ separator = [byte ',']) ∧ (∀ x ∈ indent, isBlank x) ∧
        (∀ x ∈ closing, isLayout x) ∧
        Dart.lastCode? new (spec.listStart o) (closer + Insertion.added insertions) = some last ∧
        last + 1 = (code ++ (separator ++ (content ++
          block (Text.lineBreak doc) indent (entryLines spec route)))).length := by
  intro route insertions new
  have hr : route.Regular := Route.regular_ofFeature hname importPath
  obtain ⟨o, closer, hopen, hclose, site, hsite⟩ :=
    exists_site_of_mergeEntry
      (((mergeEntry spec doc (spec.scan doc) route).insertions_ne_nil_iff).mpr
      hstatus)
  obtain ⟨opener, hopener, hmatch⟩ := exists_of_listClose? hclose
  obtain ⟨closer', last, hend, hlen, helements, hlast, hposition⟩ :=
    site.entered_spec hopener hmatch hr (isIdentifier_of_mem hclass)
  have hnew : new = site.entered spec route := hsite
  obtain rfl : closer' = closer + Insertion.added insertions := by
    have hlength := Text.length_splice doc insertions
    rw [← hnew] at hlen
    change new.length = _ at hlength
    omega
  have hfound : spec.listOpen? new = some o := by
    have hstart : o + spec.listToken.length ≤ site.code.length := site.start_le_code
    have hold : Text.indexOf? spec.listToken
      (site.code ++ (site.content ++ (site.layout ++ site.rest))) =
        some o := (congrArg (Text.indexOf? spec.listToken) site.eq_append).symm.trans hopen
    rw [hnew, EntrySite.entered, AnchorSpec.listOpen?]
    exact Text.indexOf?_append_of_le hold hstart _
  have hcloser : spec.listClose? new o = some (closer + Insertion.added insertions) := by
    rw [AnchorSpec.listClose?, hopener, hnew]
    exact hend
  refine ⟨o, closer, hopen, ?_, hfound, ?_, hnew ▸ helements, site.code, site.comma, site.content,
    site.indent, site.closing, site.layout ++ site.rest, last, site.eq_append, hnew, ?_,
    site.isBlank_of_mem, fun x hx => site.isLayout_of_mem_closing x (List.mem_append_left _ hx),
    hnew ▸ hlast, hposition⟩
  · simp only [AnchorSpec.scan, hopen, hclose, Option.bind_some]
  · simp only [AnchorSpec.scan, hfound, hcloser, Option.bind_some]
  · exact site.comma_spec.imp And.left And.left

/-- A list whose last element has no comma, but a comment behind it. -/
theorem mergeEntry_appends_element_trailing_comment :
    let doc := lit "final r = G(routes: [A(b, c) // d, e\n]);"
    let route := Route.ofFeature (Name.ofText (lit "x")) (lit "x.dart")
    let insertions := (mergeEntry {} doc (AnchorSpec.scan {} doc) route).insertions
    (mergeEntry {} doc (AnchorSpec.scan {} doc) route).status = .inserted ∧
      elements (splice doc insertions) 21 (37 + Insertion.added insertions) =
        [lit "A(b,c)", entryElement {} route] := by
  intro doc route insertions
  have hstatus : (mergeEntry {} doc (AnchorSpec.scan {} doc) route).status = .inserted := by
    decide
  obtain ⟨o, closer, hopen, hclose, -, -, helements, -⟩ :=
    mergeEntry_appends_element doc (show Project.isIdentifier ({} : AnchorSpec).routerClass
      by decide)
      (show Name.validate (lit "x") = .ok (Name.ofText (lit "x")) by rfl) hstatus
  obtain rfl : 12 = o :=
    Option.some.inj ((show some 12 = (AnchorSpec.scan {} doc).listOpen by decide).trans hopen)
  obtain rfl : 37 = closer :=
    Option.some.inj ((show some 37 = (AnchorSpec.scan {} doc).listClose by decide).trans hclose)
  have hold : elements doc 21 37 = [lit "A(b,c)"] := by decide
  exact ⟨hstatus, helements.trans (congrArg (· ++ [entryElement {} route]) hold)⟩

end FlutterScaffold.Registry
