import FlutterScaffold.Proofs.Dart.Appending
import FlutterScaffold.Proofs.Registry.Agreement
import FlutterScaffold.Proofs.Registry.Entry
import FlutterScaffold.Proofs.Registry.LastMatch
import FlutterScaffold.Proofs.Registry.Neutrality

/-!
# Clean registries

In a clean registry all places are found, they stand in the usual order, and the two anchors that
statements are written behind end their lines in plain code (`CleanAt`). A statement written there
is the next anchor of its kind and moves everything behind it, so the registry stays clean
(`CleanAt.addImport`, `CleanAt.addConstants`).
-/

namespace FlutterScaffold.Registry

open FlutterScaffold.Dart (Reader)
open FlutterScaffold.Text (bareLines block firstLine lastLine IsLineBreak trim)
open Byte (newline isBlank isLayout isMargin)

/-- The places of a registry in which all of them are found, and the braces of its class. -/
structure Places where
  importEnd : Nat
  containerOpen : Nat
  opener : Nat
  closer : Nat
  constantEnd : Nat
  listOpen : Nat
  listClose : Nat
  deriving DecidableEq, Repr

namespace Places

/-- The places as a scan gives them. -/
def anchors (p : Places) : Anchors where
  importEnd := some p.importEnd
  containerOpen := some p.containerOpen
  constantEnd := some p.constantEnd
  listOpen := some p.listOpen
  listClose := some p.listClose

/-- The places when `n` bytes are written behind the last import. -/
def behindImport (n : Nat) (p : Places) : Places where
  importEnd := n + p.importEnd
  containerOpen := n + p.containerOpen
  opener := n + p.opener
  closer := n + p.closer
  constantEnd := n + p.constantEnd
  listOpen := n + p.listOpen
  listClose := n + p.listClose

/-- The places when `n` bytes are written behind the last name constant. -/
def behindConstant (n : Nat) (p : Places) : Places where
  importEnd := p.importEnd
  containerOpen := p.containerOpen
  opener := p.opener
  closer := n + p.closer
  constantEnd := n + p.constantEnd
  listOpen := n + p.listOpen
  listClose := n + p.listClose

end Places

/-- A scan finds the places when each is found. -/
theorem scan_eq_anchors {spec : AnchorSpec} {doc : Text} {p : Places}
    (himport : importEnd? doc = some p.importEnd)
    (hcontainer : spec.containerOpen? doc = some p.containerOpen)
    (hconstant : spec.constantEnd? doc = some p.constantEnd)
    (hopen : spec.listOpen? doc = some p.listOpen)
    (hclose : spec.listClose? doc p.listOpen = some p.listClose) : spec.scan doc = p.anchors := by
  simp only [AnchorSpec.scan, Places.anchors, himport, hcontainer, hconstant, hopen, hclose,
    Option.bind_some]

/-- A registry in which all places are found in the usual order, and whose last import and last name
constant are followed by blanks only on their lines; the constant stands in plain code of the
class. -/
structure CleanAt (spec : AnchorSpec) (doc : Text) (p : Places) : Prop where
  scan_eq : spec.scan doc = p.anchors
  braces_eq : spec.containerBraces? doc = some (p.opener, p.closer)
  importEnd_le : p.importEnd ≤ p.containerOpen
  closer_lt : p.closer < p.listOpen
  import_margin : ∀ x ∈ firstLine (doc.drop p.importEnd), isMargin x
  constant_margin : ∀ x ∈ firstLine (doc.drop p.constantEnd), isMargin x
  constant_code : ((({} : Reader).run (doc.drop p.constantEnd)
    ((doc.take p.constantEnd).drop (p.opener + 1))).any Reader.atRest) = true

namespace CleanAt

variable {spec : AnchorSpec} {doc : Text} {p : Places}

/-! ## Places of a clean registry -/

section Places

variable (h : CleanAt spec doc p)

include h

/-- The last import ends at its place. -/
theorem importEnd_eq : importEnd? doc = some p.importEnd := congrArg Anchors.importEnd h.scan_eq

/-- The class starts at its place. -/
theorem containerOpen_eq : spec.containerOpen? doc = some p.containerOpen :=
  congrArg Anchors.containerOpen h.scan_eq

/-- The last name constant ends at its place. -/
theorem constantEnd_eq : spec.constantEnd? doc = some p.constantEnd :=
  congrArg Anchors.constantEnd h.scan_eq

/-- The token of the list starts at its place. -/
theorem listOpen_eq : spec.listOpen? doc = some p.listOpen := congrArg Anchors.listOpen h.scan_eq

/-- The list is closed at its place. -/
theorem listClose_eq : spec.listClose? doc p.listOpen = some p.listClose := by
  have hclose : (spec.listOpen? doc).bind (spec.listClose? doc) = some p.listClose :=
    congrArg Anchors.listClose h.scan_eq
  rwa [h.listOpen_eq, Option.bind_some] at hclose

/-- The class is opened by the last byte of its signature, and closed at its place. -/
theorem opener_spec : p.containerOpen ≤ p.opener ∧
    p.opener + 1 = p.containerOpen + spec.signature.length ∧
    Dart.matchingBracket doc p.opener = some p.closer := by
  obtain ⟨o, ho, hspec⟩ := exists_of_containerBraces_eq h.braces_eq
  obtain rfl := Option.some.inj (ho.symm.trans h.containerOpen_eq)
  exact hspec

/-- The text in front of the class, its body up to the last name constant, the rest of the body, and
the rest of the text. -/
theorem exists_body : ∃ u w body v, doc = u ++ (w ++ (body ++ v)) ∧ p.opener + 1 = u.length ∧
    p.constantEnd = (u ++ w).length ∧ p.closer = (u ++ (w ++ body)).length ∧
    nameConstantEnd? (w ++ body) = some w.length := by
  obtain ⟨u, body, v, rfl, hu, hcloser, hend⟩ := exists_of_containerBraces? h.braces_eq
  obtain ⟨e, he, hconstant⟩ := Option.map_eq_some_iff.mp (hend.symm.trans h.constantEnd_eq)
  obtain ⟨a, m, r, rfl, -, -, rfl, -⟩ := exists_constantless_of_nameConstantEnd? he
  refine ⟨u, a ++ m, r, v, by simp, hu, ?_, ?_, by rw [List.append_assoc, he]⟩
  · simp only [← hconstant, List.length_append]
  · rw [hcloser, List.append_assoc a]

/-- The last name constant ends inside of the class. -/
theorem constantEnd_bounds : p.opener < p.constantEnd ∧ p.constantEnd ≤ p.closer := by
  obtain ⟨u, w, body, v, -, hu, hconstant, hcloser, -⟩ := h.exists_body
  simp only [List.length_append] at hconstant hcloser
  omega

/-- The places of a clean registry are in order. -/
theorem importEnd_le_listOpen : p.importEnd ≤ p.listOpen := by
  have := h.importEnd_le
  have := h.opener_spec.1
  have := h.constantEnd_bounds
  have := h.closer_lt
  omega

/-- The places are in the usual order. -/
theorem ordered : (spec.scan doc).Ordered := by
  have := h.constantEnd_bounds
  have := h.closer_lt
  rw [h.scan_eq]
  refine ⟨?_, ?_, ?_⟩ <;> simp only [Places.anchors, Option.mem_some_iff, forall_eq']
  · exact h.importEnd_le
  · exact h.importEnd_le_listOpen
  · omega

/-- Every merge of a route finds its place in a clean registry. -/
theorem status_ne_missing (route : Route) :
    (mergeImport doc (spec.scan doc) route).status ≠ .missing ∧
      (mergeConstants doc (spec.scan doc) route).status ≠ .missing ∧
      (mergeEntry spec doc (spec.scan doc) route).status ≠ .missing := by
  have hentry (start closer : Nat) :
      (appendEntry spec doc start closer route).status ≠ .missing := by
    rw [appendEntry]
    split
    · simp [Step.status]
    · split <;> simp [Step.status]
  simp only [mergeImport, mergeConstants, mergeEntry, h.scan_eq, Places.anchors]
  refine ⟨?_, ?_, ?_⟩ <;> split
  all_goals first | exact hentry _ _ | simp [Step.status]

/-- The list of a clean registry, cut where an entry goes. -/
theorem exists_list (hs : spec.Accepted) :
    ∃ opener, spec.listStart p.listOpen = opener + 1 ∧
      Dart.matchingBracket doc opener = some p.listClose ∧ doc[opener]? = some (byte '[') := by
  obtain ⟨opener, hstart, hmatch⟩ := exists_of_listClose? h.listClose_eq
  have hopen := getElem?_of_listOpen? hs h.listOpen_eq
  rw [hstart, Nat.add_sub_cancel] at hopen
  exact ⟨opener, hstart, hmatch, hopen⟩

/-- A line break stands between the anchors of the statements and the list. The bracket of the list
is no margin, so the line of the statement ends in front of it. -/
theorem newline_mem_drop (hs : spec.Accepted) {a b : Text}
    (hdoc : doc = a ++ b) (ha : spec.listStart p.listOpen ≤ a.length) :
    newline ∈ a.drop p.importEnd ∧ newline ∈ a.drop p.constantEnd := by
  obtain ⟨opener, hstart, -, hopen⟩ := h.exists_list hs
  have hle := h.importEnd_le_listOpen
  have hbounds := h.constantEnd_bounds
  have hlt := h.closer_lt
  have hlist := listClose?_bounds hs h.listClose_eq
  have hmem {e : Nat} (he : e ≤ opener) (hmargin : ∀ x ∈ firstLine (doc.drop e), isMargin x) :
      newline ∈ a.drop e := by
    rw [hdoc, List.drop_append_of_le_length (by omega)] at hmargin
    refine Text.newline_mem_of_isMargin hmargin (List.mem_of_getElem? (i := opener - e) ?_)
      (x := byte '[') (by decide)
    rw [List.getElem?_drop, Nat.add_sub_cancel' he, ← List.getElem?_append_left (by omega), ← hdoc,
      hopen]
  exact ⟨hmem (by omega) h.import_margin, hmem (by omega) h.constant_margin⟩

end Places

/-! ## Statements that are anchors -/

/-- The import of a plain route is one. -/
theorem isImport_of_mem_importLines {route : Route} (hr : route.Plain) {line : Text}
    (h : line ∈ importLines route) : IsImport line := by
  rw [importLines, List.mem_singleton, stringLiteral_of_plain hr.importPath_plain] at h
  refine ⟨[], [byte ' '], route.importPath, [], ?_, by simp, by simp, by simp; rfl,
    hr.importPath_ne_nil, fun hmem => absurd (hr.importPath_plain _ hmem) (by decide), by simp⟩
  rw [h]
  simp [lit]
  rfl

/-- The name of a regular route is a name constant. -/
theorem isNameConstant_constantLine {route : Route} (hr : route.Regular) :
    IsNameConstant (constantLine (route.symbol ++ lit "Name") route.name) := by
  have hname : ∀ b ∈ route.name, Route.isPlainByte b := fun b hb =>
    isPlainByte_of_isSnakeByte b (hr.name_snake b hb)
  have hspace : ∀ b ∈ [byte ' '], Byte.isSpace b := by simp; rfl
  obtain ⟨b, rest, hsymbol, hlower⟩ := hr.symbol_start
  refine ⟨[byte ' '], [byte ' '], [byte ' '], [byte ' '], [byte ' '], [],
    route.symbol ++ lit "Name",
    route.name, ?_, by simp, by simpa using hspace, ?_, ?_, ?_⟩
  · rw [constantLine, stringLiteral_of_plain hname]
    simp [lit]
    rfl
  · refine List.forall_mem_append.mpr ⟨fun b hb => ?_, List.all_eq_true.mp rfl⟩
    exact Byte.isIdentifier_of_isAlnum b (hr.symbol_alnum b hb)
  · have hstart : ∀ b, Byte.isLower b → Byte.isIdentifierStart b := by decide +kernel
    rw [isNameConstant, Bool.and_eq_true, Bool.and_eq_true, List.isSuffixOf_iff_suffix]
    refine ⟨⟨?_, List.suffix_append _ _⟩, ?_⟩
    · rw [hsymbol]
      exact hstart b hlower
    · have hlen : (lit "Name").length = 4 := rfl
      rw [List.length_append, hsymbol, hlen, List.length_cons]
      simp
  · exact fun hmem => absurd (hname _ hmem) (by decide)

/-! ## Adding an import -/

section Import

variable {a b nl indent : Text} {route : Route}

/-- An import written below the last one is the last one. -/
theorem importEnd?_insert (hnl : IsLineBreak nl) (hindent : ∀ x ∈ indent, isBlank x)
    (hr : route.Plain) (h : importEnd? (a ++ b) = some a.length) :
    importEnd? (a ++ (block nl indent (importLines route) ++ b)) =
      some ((block nl indent (importLines route)).length + a.length) := by
  obtain ⟨a', m, r, hcut, -, -, -, hlen, hr'⟩ := importEnd?_eq_some_iff_bare.mp h
  obtain ⟨rfl, rfl⟩ : a = a' ++ m ∧ b = r :=
    List.append_inj (by rw [hcut, List.append_assoc]) hlen
  have hpath : newline ∉ route.importPath := fun hmem =>
    absurd (hr.importPath_plain _ hmem) (by decide)
  obtain ⟨line, hline⟩ : ∃ line, importLines route = [line] := ⟨_, rfl⟩
  have hnewline := newline_not_mem_importLines hpath
  rw [hline, List.forall_mem_singleton] at hnewline
  rw [hline, Text.block_cons, Text.block_nil, List.append_nil]
  have hmargin : ∀ x ∈ indent, isMargin x := fun x hx => Byte.isMargin_of_isBlank x (hindent x hx)
  refine importEnd?_eq_some_iff_bare.mpr ⟨a' ++ m ++ nl, indent ++ line, b, by simp, ?_,
    List.not_mem_append (Text.newline_not_mem_of_isMargin hmargin) hnewline,
    (isImport_of_mem_importLines hr (hline ▸ List.mem_singleton_self _)).append_left
      fun x hx => Byte.isSpace_of_isBlank (hindent x hx), ?_, hr'⟩
  · rcases hnl with rfl | rfl
    · exact Text.lastLine_append_cons (by simp)
    · rw [Text.crlf, ← List.singleton_append, ← List.append_assoc]
      exact Text.lastLine_append_cons (by simp)
  · simp only [List.length_append]
    omega

/-- A clean registry with another import is clean. Every other anchor is found behind the import, so
an addition only moves it. -/
theorem addImport {t : Text} (h : CleanAt spec (a ++ b) p) (hs : spec.Plain) (hr : route.Plain)
    (ha : p.importEnd = a.length)
    (ht : t = (blockBelow (a ++ b) a.length (importLines route)).text) :
    CleanAt spec (a ++ (t ++ b)) (p.behindImport t.length) := by
  have himport := ha ▸ h.importEnd_eq
  obtain ⟨a', m, r, hcut, -, -, hm, hlen, -⟩ := importEnd?_eq_some_iff_bare.mp himport
  obtain ⟨m', hm'⟩ := exists_append_of_isImport hm
  obtain rfl : a = a' ++ m := (List.append_inj (by rw [hcut, List.append_assoc]) hlen).1
  have hadd : Addition (a' ++ m) t b :=
    ht ▸ addition_importLines b hr.importPath_plain ⟨a' ++ m', by rw [hm', List.append_assoc]⟩
  have hcontainer : ∀ o ∈ spec.containerOpen? (a' ++ m ++ b), (a' ++ m).length ≤ o := by
    rw [h.containerOpen_eq]
    simpa [← ha] using h.importEnd_le
  have hlist : ∀ o ∈ spec.listOpen? (a' ++ m ++ b), (a' ++ m).length ≤ o := by
    rw [h.listOpen_eq]
    simpa [← ha] using h.importEnd_le_listOpen
  have hopener := h.opener_spec
  have hconstant := h.constantEnd_bounds
  have hle := h.importEnd_le
  have hlt := h.closer_lt
  refine ⟨scan_eq_anchors ?_ ?_ ?_ ?_ ?_, ?_, Nat.add_le_add_left hle _, Nat.add_lt_add_left hlt _,
    ?_, ?_, ?_⟩
  · rw [Places.behindImport, ha, ht]
    exact importEnd?_insert (Text.isLineBreak_lineBreak _) (fun x => Text.isBlank_of_mem_lineIndent)
      hr himport
  · rw [hadd.containerOpen? hs.toAccepted hcontainer, h.containerOpen_eq]
    rfl
  · rw [hadd.constantEnd? hs.toAccepted hcontainer, h.constantEnd_eq]
    rfl
  · rw [hadd.listOpen? hs hlist, h.listOpen_eq]
    rfl
  · rw [Places.behindImport, listClose?_insert (ha ▸ h.importEnd_le_listOpen) hs.toAccepted,
      h.listClose_eq]
    rfl
  · rw [hadd.containerBraces? hs.toAccepted hcontainer, h.braces_eq]
    rfl
  · rw [Places.behindImport, Text.drop_insert ha.ge]
    exact h.import_margin
  · rw [Places.behindImport, Text.drop_insert (by omega)]
    exact h.constant_margin
  · rw [Places.behindImport, Text.drop_insert (by omega), Nat.add_assoc,
      Text.between_insert (by omega)]
    exact h.constant_code

end Import

/-! ## Adding a pair of constants -/

section Constants

variable {a b nl indent : Text} {route : Route}

/-- Constants written below the last name constant of a text end with the last one. The name stands
on the last line, behind the indentation alone. -/
theorem nameConstantEnd?_insert (hnl : IsLineBreak nl) (hindent : ∀ x ∈ indent, isBlank x)
    (hr : route.Regular) (h : nameConstantEnd? (a ++ b) = some a.length)
    (hb : ∀ x ∈ firstLine b, isMargin x) :
    nameConstantEnd? (a ++ (block nl indent (constantLines route) ++ b)) =
      some (a ++ block nl indent (constantLines route)).length := by
  obtain ⟨a', m, r, hcut, -, -, hlen, hless⟩ := exists_constantless_of_nameConstantEnd? h
  obtain ⟨rfl, rfl⟩ : a = a' ++ m ∧ b = r :=
    List.append_inj (by rw [hcut, List.append_assoc]) hlen
  obtain ⟨path, hpath⟩ : ∃ path, path = constantLine route.symbol route.path := ⟨_, rfl⟩
  obtain ⟨name, hname⟩ : ∃ name, name = constantLine (route.symbol ++ lit "Name") route.name :=
    ⟨_, rfl⟩
  have hlines : constantLines route = [path, name] := by rw [hpath, hname]; rfl
  have hnewline := newline_not_mem_constantLines hr
  have hblock : block nl indent [path, name] = block nl indent ([path] ++ [[]]) ++ name := by
    simp
  have hlast := Text.lastLine_block hnl hindent [] (by simp) (a' ++ m) [path]
  rw [List.append_nil] at hlast
  have hend := nameConstantEnd?_eq_some (a := a' ++ m ++ block nl indent ([path] ++ [[]]))
    (m := name) (r := b) (by
      rw [hlast]
      exact fun x hx => Byte.isMargin_of_isBlank x (hindent x hx))
    (hnewline _ (by simp [hlines])) (hname ▸ isNameConstant_constantLine hr) hb hless
  rw [hlines, hblock]
  simpa only [List.append_assoc] using hend

/-- A class that is cut at its last name constant: `w` and `body` are what its braces hold up to the
constant and behind it. A reader of the body is in plain code between them. -/
structure ClassCut (p : Places) (before : Text) (brace : Byte) (w body v : Text) (c : Byte) :
    Prop where
  opener : p.opener = before.length
  closer : p.closer = (before ++ brace :: w ++ body).length
  constantEnd : nameConstantEnd? (w ++ body) = some w.length
  closerOf : Dart.closerOf? brace = some c
  closed : (Reader.inside c).lengthToRest (w ++ (body ++ v)) = some (w.length + body.length + 1)
  code : ∃ s, ({} : Reader).run (body ++ v) w = some s ∧ s.atRest = true

/-- The class of a clean registry, whose last name constant has its semicolon in front of a line
break. -/
theorem exists_class (h : CleanAt spec (a ++ b) p) (ha : p.constantEnd = a.length) :
    ∃ before brace w body v c, a = before ++ brace :: w ∧ b = body ++ v ∧
      ClassCut p before brace w body v c := by
  obtain ⟨u, w, body, v, hcut, hu, hconstant, hcloser, hend⟩ := h.exists_body
  obtain ⟨rfl, rfl⟩ : a = u ++ w ∧ b = body ++ v :=
    List.append_inj (by rw [hcut, List.append_assoc]) (ha.symm.trans hconstant)
  obtain ⟨before, brace, rfl⟩ : ∃ before brace, u = before ++ [brace] :=
    ⟨u.dropLast, u.getLast (List.ne_nil_of_length_pos (by omega)),
      (List.dropLast_concat_getLast _).symm⟩
  have hopener : p.opener = before.length := by
    rw [List.length_append, List.length_singleton] at hu
    omega
  have hmatch := h.opener_spec.2.2
  have hdoc : before ++ [brace] ++ w ++ (body ++ v) = before ++ brace :: ((w ++ body) ++ v) :=
    by simp
  have hlen : p.closer = before.length + 1 + (w ++ body).length := by
    rw [hcloser]
    simp only [List.length_append, List.length_singleton]
  rw [hopener, hlen, hdoc] at hmatch
  obtain ⟨_, c, n, rest, hd, hc, -, -⟩ := Dart.exists_of_matchingBracket hmatch
  rw [List.drop_left] at hd
  obtain ⟨rfl, -⟩ := List.cons.inj hd
  have hclosed := (Dart.matchingBracket_eq_iff rfl hc).mp hmatch
  have hcode := h.constant_code
  rw [ha, hu, List.take_left, List.drop_left, List.drop_left, Option.any_eq_true] at hcode
  refine ⟨before, brace, w, body, v, c, by simp, rfl, hopener, ?_, hend, hc, ?_, hcode⟩
  · rw [hcloser]
    simp
  · rw [← List.append_assoc, hclosed, List.length_append]

namespace ClassCut

variable {before w body v t : Text} {brace c : Byte}

/-- Neutral text behind the constant moves the closer of the class, and it ends in plain code. A
margin follows the constant, so no prefix of a raw string can stand at the seam. -/
theorem insert (h : ClassCut p before brace w body v c) (ht : Dart.Neutral t)
    (hinert : Dart.Inert (t ++ (body ++ v))) (hmargin : ∀ x ∈ firstLine (body ++ v), isMargin x) :
    Dart.matchingBracket (before ++ brace :: w ++ (t ++ (body ++ v))) p.opener =
        some (t.length + p.closer) ∧
      ((({} : Reader).run (body ++ v)
        ((before ++ brace :: w ++ t).drop (p.opener + 1))).any Reader.atRest) = true := by
  obtain ⟨s, hrun, hs⟩ := h.code
  have hhead : ∀ x ∈ (body ++ v).head?, x ≠ byte 'r' := by
    rintro x hx rfl
    have hy := List.eq_cons_of_mem_head? hx
    have hmem : byte 'r' ∈ firstLine (body ++ v) := by
      rw [hy, firstLine, List.takeWhile_cons, if_pos (by decide)]
      exact List.mem_cons_self ..
    exact absurd (hmargin _ hmem) (by decide)
  obtain ⟨hmoved, s', hrun', hs'⟩ :=
    Reader.lengthToRest_insert_neutral h.closed (by omega) hrun hs ht hinert hhead
  constructor
  · have hdoc : before ++ brace :: w ++ (t ++ (body ++ v)) =
        before ++ brace :: ((w ++ (t ++ body)) ++ v) := by simp
    have hlen : t.length + p.closer = before.length + 1 + (w ++ (t ++ body)).length := by
      rw [h.closer]
      simp only [List.length_append, List.length_cons]
      omega
    have heq : (w ++ (t ++ body)).length + 1 = t.length + (w.length + body.length + 1) := by
      simp only [List.length_append]
      omega
    rw [h.opener, hlen, Dart.matchingBracket_eq_iff hdoc h.closerOf, heq, ← hmoved]
    simp only [List.append_assoc]
  · have hcut : before ++ brace :: w ++ t = (before ++ [brace]) ++ (w ++ t) := by simp
    have hstart : p.opener + 1 = (before ++ [brace]).length := by simp [h.opener]
    rw [hcut, hstart, List.drop_left, hrun', Option.any_some, hs']

/-- What stands between the braces of the class then. -/
theorem take_drop_insert (h : ClassCut p before brace w body v c) (t : Text) :
    ((before ++ brace :: w ++ (t ++ (body ++ v))).drop (p.opener + 1)).take
      (t.length + p.closer - (p.opener + 1)) = w ++ (t ++ body) := by
  have hlen : t.length + p.closer - (p.opener + 1) = (w ++ (t ++ body)).length := by
    rw [h.closer, h.opener]
    simp only [List.length_append, List.length_cons]
    omega
  have hcut : before ++ brace :: w ++ (t ++ (body ++ v)) =
      (before ++ [brace]) ++ ((w ++ (t ++ body)) ++ v) := by simp
  have hstart : p.opener + 1 = (before ++ [brace]).length := by simp [h.opener]
  rw [hlen, hcut, hstart, List.drop_left, List.take_left]

end ClassCut

/-- The margin behind the last name constant, in a text that is cut there. -/
theorem margin_of_constantEnd (h : CleanAt spec (a ++ b) p) (ha : p.constantEnd = a.length) :
    ∀ x ∈ firstLine b, isMargin x := by
  have hb := h.constant_margin
  rwa [ha, List.drop_left] at hb

/-- The class with another pair of constants is closed by the same brace, the name constant of the
pair is its last one, and it stands in plain code. -/
theorem class_insert (h : CleanAt spec (a ++ b) p) (ha : p.constantEnd = a.length)
    (hr : route.Regular) (hnl : IsLineBreak nl) (hindent : ∀ x ∈ indent, isBlank x) {t : Text}
    (ht : t = block nl indent (constantLines route)) :
    spec.containerOpen? (a ++ (t ++ b)) = some p.containerOpen ∧
      spec.containerBraces? (a ++ (t ++ b)) = some (p.opener, t.length + p.closer) ∧
      spec.constantEnd? (a ++ (t ++ b)) = some (t.length + p.constantEnd) ∧
      ((({} : Reader).run b ((a ++ t).drop (p.opener + 1))).any Reader.atRest) = true := by
  have hmargin := h.margin_of_constantEnd ha
  have hopener := h.opener_spec
  have hbounds := h.constantEnd_bounds
  have hfound : spec.containerOpen? (a ++ (t ++ b)) = some p.containerOpen :=
    Text.indexOf?_append_of_le h.containerOpen_eq (by omega) _
  obtain ⟨before, brace, w, body, v, c, rfl, rfl, hclass⟩ := h.exists_class ha
  have hinert : Dart.Inert (t ++ (body ++ v)) := by
    rw [ht, constantLines, Text.block_cons]
    rcases hnl with rfl | rfl <;> exact Dart.inert_cons.mpr rfl
  obtain ⟨hmatch, hcode⟩ := hclass.insert
    (ht ▸ neutral_block hnl hindent (neutral_constantLines hr)) hinert hmargin
  have hbraces : spec.containerBraces? (before ++ brace :: w ++ (t ++ (body ++ v))) =
      some (p.opener, t.length + p.closer) := by
    have hstart : p.containerOpen + spec.signature.length - 1 = p.opener := by omega
    simp only [AnchorSpec.containerBraces?, hfound, Option.bind_eq_bind, Option.bind_some, hstart,
      hmatch]
    rfl
  have hmargin' : ∀ x ∈ firstLine body, isMargin x := by
    by_cases hmem : newline ∈ body
    · rwa [Text.firstLine_append_of_mem hmem] at hmargin
    · rw [Text.firstLine_append hmem, List.forall_mem_append] at hmargin
      rw [Text.firstLine_of_not_mem hmem]
      exact hmargin.1
  have hlast := nameConstantEnd?_insert hnl hindent hr hclass.constantEnd hmargin'
  rw [← ht] at hlast
  refine ⟨hfound, hbraces, ?_, hcode⟩
  simp only [AnchorSpec.constantEnd?, hbraces, Option.bind_eq_bind, Option.bind_some,
    hclass.take_drop_insert, hlast, Option.pure_def, Option.some.injEq]
  rw [ha, hclass.opener]
  simp only [List.length_append, List.length_cons]
  omega

/-- The line of the last import ends in front of the semicolon of the last name constant. -/
theorem newline_mem_drop_importEnd (h : CleanAt spec (a ++ [byte ';'] ++ b) p)
    (ha : p.constantEnd = (a ++ [byte ';']).length) :
    newline ∈ (a ++ [byte ';']).drop p.importEnd := by
  have hopener := h.opener_spec
  have hbounds := h.constantEnd_bounds
  have hle := h.importEnd_le
  have hmargin := h.import_margin
  rw [List.length_append, List.length_singleton] at ha
  rw [List.drop_append_of_le_length (by rw [List.length_append]; omega)] at hmargin
  refine Text.newline_mem_of_isMargin hmargin (x := byte ';') ?_ (by decide)
  rw [List.drop_append_of_le_length (by omega)]
  simp

/-- A clean registry with another pair of constants is clean. The constant in front ends with its
semicolon, so what is added goes to the lines below it. -/
theorem addConstants {t : Text} (h : CleanAt spec (a ++ b) p) (hs : spec.Plain) (hr : route.Regular)
    (ha : p.constantEnd = a.length)
    (ht : t = (blockBelow (a ++ b) a.length (constantLines route)).text) :
    CleanAt spec (a ++ (t ++ b)) (p.behindConstant t.length) := by
  have hnl := Text.isLineBreak_lineBreak (a ++ b)
  have hindent : ∀ x ∈ Text.lineIndent (a ++ b) (a.length - 1), isBlank x := fun x =>
    Text.isBlank_of_mem_lineIndent
  have hmargin := h.margin_of_constantEnd ha
  have hopener := h.opener_spec
  have hbounds := h.constantEnd_bounds
  have hle := h.importEnd_le
  have hlt := h.closer_lt
  obtain ⟨hcontainer, hbraces, hconstant, hcode⟩ := h.class_insert ha hr hnl hindent ht
  obtain ⟨a', rfl⟩ : ∃ a', a = a' ++ [byte ';'] := by
    obtain ⟨x, m, y, hcut, hlen, -, hm⟩ := exists_of_constantEnd? h.constantEnd_eq
    obtain ⟨m', rfl⟩ := exists_append_of_isNameConstant hm
    exact ⟨x ++ m', (List.append_inj hcut (ha.symm.trans hlen)).1.trans (by simp)⟩
  have hadd : Addition (a' ++ [byte ';']) t b := ht ▸ addition_constantLines b hr ⟨a', rfl⟩
  have hlist : ∀ o ∈ spec.listOpen? (a' ++ [byte ';'] ++ b), (a' ++ [byte ';']).length ≤ o := by
    rw [h.listOpen_eq]
    simp only [Option.mem_some_iff, forall_eq']
    omega
  refine ⟨scan_eq_anchors ?_ hcontainer hconstant ?_ ?_, hbraces, hle, Nat.add_lt_add_left hlt _,
    ?_, ?_, ?_⟩
  · refine importEnd?_append_of_importless h.importEnd_eq
      (show p.importEnd ≤ (a' ++ [byte ';']).length by omega) fun hless => ?_
    rw [ht]
    refine hless.insert_block hnl hindent hmargin (newline_not_mem_constantLines hr) fun l hl => ?_
    obtain ⟨u, hu⟩ := exists_cons_of_mem_constantLines hl
    exact not_startsImport_of_cons hu (by decide) (by decide)
  · rw [hadd.listOpen? hs hlist, h.listOpen_eq]
    rfl
  · rw [Places.behindConstant, listClose?_insert (by omega) hs.toAccepted, h.listClose_eq]
    rfl
  · have hmem := h.newline_mem_drop_importEnd ha
    have hold := h.import_margin
    have hfront : p.importEnd ≤ (a' ++ [byte ';']).length := by omega
    rw [List.drop_append_of_le_length hfront, Text.firstLine_append_of_mem hmem] at hold
    rwa [Places.behindConstant, List.drop_append_of_le_length hfront,
      Text.firstLine_append_of_mem hmem]
  · rw [Places.behindConstant, Text.drop_insert ha.ge]
    exact h.constant_margin
  · have hfront : t.length + p.constantEnd = (a' ++ [byte ';'] ++ t).length := by
      simp only [ha, List.length_append]
      omega
    rw [Places.behindConstant, hfront, ← List.append_assoc, List.drop_left, List.take_left]
    exact hcode

end Constants

end CleanAt

end FlutterScaffold.Registry
