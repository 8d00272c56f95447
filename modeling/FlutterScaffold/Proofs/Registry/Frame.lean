import FlutterScaffold.Proofs.Registry.Entered
import FlutterScaffold.Proofs.Registry.Separation

/-!
# The frame of a registry

A clean registry is a frame with three gaps: one below its last import, one below its last name
constant and one in front of the closer of its list. What is registered fills the gaps in order,
each with lines of its own (`Frame.add`), and the first entry brings the comma and the line break
that the list lacks. A filled frame is the frame of a clean registry again (`Framing.add`).
-/

namespace FlutterScaffold.Registry

open FlutterScaffold.Text (bareLines block firstLine lastLine IsLineBreak trim)
open Byte (newline isBlank isLayout isMargin)

/-- Declarations to be written into a registry, those of a kind in order. -/
@[ext]
structure Additions where
  imports : List (List Text) := []
  constants : List (List Text) := []
  entries : List (List Text) := []
  deriving DecidableEq, Repr

namespace Additions

/-- Additions with further ones behind them. -/
def append (A B : Additions) : Additions where
  imports := A.imports ++ B.imports
  constants := A.constants ++ B.constants
  entries := A.entries ++ B.entries

instance : Append Additions := ⟨append⟩

@[simp] theorem imports_append (A B : Additions) : (A ++ B).imports = A.imports ++ B.imports := rfl

@[simp] theorem constants_append (A B : Additions) :
    (A ++ B).constants = A.constants ++ B.constants := rfl

@[simp] theorem entries_append (A B : Additions) : (A ++ B).entries = A.entries ++ B.entries := rfl

/-- The additions of all kinds. -/
def all (A : Additions) : List (List Text) := A.imports ++ A.constants ++ A.entries

/-- Additions that are declarations of plain routes. -/
structure Plain (spec : AnchorSpec) (A : Additions) : Prop where
  imports : ∀ d ∈ A.imports, ∃ route : Route, route.Plain ∧ d = importLines route
  constants : ∀ d ∈ A.constants, ∃ route : Route, route.Plain ∧ d = constantLines route
  entries : ∀ d ∈ A.entries, ∃ route : Route, route.Plain ∧ d = entryLines spec route

/-- Additions of plain routes are so together. -/
theorem Plain.append {spec : AnchorSpec} {A B : Additions} (hA : A.Plain spec) (hB : B.Plain spec) :
    (A ++ B).Plain spec where
  imports := List.forall_mem_append.mpr ⟨hA.imports, hB.imports⟩
  constants := List.forall_mem_append.mpr ⟨hA.constants, hB.constants⟩
  entries := List.forall_mem_append.mpr ⟨hA.entries, hB.entries⟩

end Additions

/-- A registry cut at the places that declarations are written at. -/
@[ext]
structure Frame where
  /-- Everything up to the end of the last import. -/
  front : Text
  /-- From there to the end of the last name constant of the class. -/
  middle : Text
  /-- From there to the place of the comma that the list may lack. -/
  code : Text
  /-- The comma, where the last element lacks one. -/
  comma : Text
  /-- The rest of the content of the list. -/
  content : Text
  /-- The line break in front of the closer, where it shares a line with the content. -/
  closing : Text
  /-- The layout in front of the closer, and all behind it. -/
  rest : Text
  /-- The line break that blocks are written with. -/
  lineBreak : Text
  importIndent : Text
  constantIndent : Text
  entryIndent : Text

namespace Frame

variable {f : Frame} {A B : Additions}

/-- The document that the frame cuts. -/
def text (f : Frame) : Text := f.front ++ (f.middle ++ (f.code ++ (f.content ++ f.rest)))

/-- The frame with the comma and the line break that a new entry needs. -/
def settled (f : Frame) : Frame :=
  { f with
    code := f.code ++ (f.comma ++ f.content)
    comma := []
    content := []
    closing := []
    rest := f.closing ++ f.rest }

/-- The frame as the given entries need it. -/
def ready (f : Frame) (entries : List (List Text)) : Frame :=
  if entries = [] then f else f.settled

/-- The frame with additions in its gaps. -/
def add (f : Frame) (A : Additions) : Frame :=
  let ready := f.ready A.entries
  { ready with
    front := ready.front ++ block f.lineBreak f.importIndent A.imports.flatten
    middle := ready.middle ++ block f.lineBreak f.constantIndent A.constants.flatten
    code := ready.code ++ block f.lineBreak f.entryIndent A.entries.flatten }

/-- Entries need a settled frame. -/
theorem ready_of_ne_nil {entries : List (List Text)} (h : entries ≠ []) :
    f.ready entries = f.settled := if_neg h

/-- A settled frame has its comma and the line break of its closer. -/
theorem text_settled (f : Frame) : f.settled.text = f.front ++ (f.middle ++
    (f.code ++ (f.comma ++ (f.content ++ (f.closing ++ f.rest))))) := by
  simp [text, settled]

/-- What follows the last name constant, with entries in the list. -/
def list (f : Frame) (entries : List (List Text)) : Text :=
  let ready := f.ready entries
  ready.code ++ (block f.lineBreak f.entryIndent entries.flatten ++ (ready.content ++ ready.rest))

/-- A filled frame has its additions below the last import, below the last name constant and in its
list. -/
theorem text_add (f : Frame) (A : Additions) : (f.add A).text =
    f.front ++ (block f.lineBreak f.importIndent A.imports.flatten ++
      (f.middle ++ (block f.lineBreak f.constantIndent A.constants.flatten ++
        f.list A.entries))) := by
  by_cases h : A.entries = []
  · simp [add, ready, list, text, h]
  · simp [add, ready, settled, list, text, h]

/-- Without entries the list stays as it is. -/
theorem add_of_entries_eq_nil (h : A.entries = []) : f.add A =
    { f with
      front := f.front ++ block f.lineBreak f.importIndent A.imports.flatten
      middle := f.middle ++ block f.lineBreak f.constantIndent A.constants.flatten } := by
  simp [add, ready, h]

/-- With entries the list is settled. -/
theorem add_of_entries_ne_nil (h : A.entries ≠ []) : f.add A =
    { f with
      front := f.front ++ block f.lineBreak f.importIndent A.imports.flatten
      middle := f.middle ++ block f.lineBreak f.constantIndent A.constants.flatten
      code := f.code ++ (f.comma ++ f.content) ++
        block f.lineBreak f.entryIndent A.entries.flatten
      comma := []
      content := []
      closing := []
      rest := f.closing ++ f.rest } := by
  simp [add, ready, settled, h]

/-- Nothing added changes nothing. -/
theorem add_nil (f : Frame) : f.add {} = f := by simp [add, ready]

/-- Additions may be made one after the other. -/
theorem add_append (f : Frame) (A B : Additions) : f.add (A ++ B) = (f.add A).add B := by
  by_cases hA : A.entries = [] <;> by_cases hB : B.entries = []
  · simp [add, ready, hA, hB, Text.block_append]
  · simp [add, ready, settled, hA, hB, Text.block_append]
  · simp [add, ready, settled, hA, hB, Text.block_append]
  · simp [add, ready, settled, hA, hB, Text.block_append]

/-- A frame with an entry is ready for more. -/
theorem ready_add (f : Frame) {A : Additions} {entries : List (List Text)}
    (h : entries = [] ∨ A.entries ≠ []) : (f.add A).ready entries = f.add A := by
  rcases h with rfl | hA
  · rfl
  · rw [ready]
    split
    · rfl
    · simp [add_of_entries_ne_nil hA, settled]

/-- Additions are made kind by kind, entries first. -/
theorem add_eq (f : Frame) (A : Additions) : f.add A =
    ((f.add { entries := A.entries }).add { imports := A.imports }).add
      { constants := A.constants } := by
  rw [← add_append, ← add_append]
  exact congrArg f.add (Additions.ext (by simp) (by simp) (by simp))

/-- The frame cuts a document like the place of an entry does. -/
structure Cuts (f : Frame) {doc : Text} {start closer : Nat} (site : EntrySite doc start closer) :
    Prop where
  code_eq : site.code = f.front ++ (f.middle ++ f.code)
  comma_eq : site.comma = f.comma
  content_eq : site.content = f.content
  closing_eq : site.closing = f.closing
  rest_eq : site.layout ++ site.rest = f.rest
  indent_eq : site.indent = f.entryIndent

/-- Settling a list is settling its frame. -/
theorem Cuts.settled_eq {doc : Text} {start closer : Nat} {site : EntrySite doc start closer}
    (h : f.Cuts site) : site.settled = f.settled.text := by
  rw [EntrySite.settled, text_settled, h.code_eq, h.comma_eq, h.content_eq, h.closing_eq, h.rest_eq]
  simp only [List.append_assoc]

end Frame

/-- A frame whose text is a clean registry with the given places, cut there. -/
structure Framing (spec : AnchorSpec) (f : Frame) (p : Places) : Prop where
  clean : CleanAt spec f.text p
  importEnd_eq : p.importEnd = f.front.length
  constantEnd_eq : p.constantEnd = (f.front ++ f.middle).length
  lineBreak_eq : Text.lineBreak f.text = f.lineBreak
  importIndent_eq : Text.lineIndent f.text (p.importEnd - 1) = f.importIndent
  constantIndent_eq : Text.lineIndent f.text (p.constantEnd - 1) = f.constantIndent
  exists_site : ∃ site : EntrySite f.text (spec.listStart p.listOpen) p.listClose, f.Cuts site

/-- Every clean registry has a frame. Both statements end in front of the list, hence in the code of
its site. -/
theorem CleanAt.exists_framing {spec : AnchorSpec} {doc : Text} {p : Places}
    (h : CleanAt spec doc p) : ∃ f : Frame, f.text = doc ∧ Framing spec f p := by
  obtain ⟨hstart, hcloser⟩ := listStart_le_of_listClose? h.listClose_eq
  obtain ⟨site, -⟩ := exists_site spec hstart hcloser.le (lastCode?_lt_of_listClose? h.listClose_eq)
  have hlen : p.constantEnd ≤ site.code.length := by
    have hcode := site.start_le_code
    have hbounds := h.constantEnd_bounds
    have hlt := h.closer_lt
    have hle : p.listOpen ≤ spec.listStart p.listOpen := Nat.le_add_right _ _
    omega
  have himport : p.importEnd ≤ p.constantEnd := by
    have hle := h.importEnd_le
    have hopener := h.opener_spec.1
    have hbounds := h.constantEnd_bounds
    omega
  obtain ⟨front, w, hw, hfront⟩ : ∃ front w, site.code = front ++ w ∧ front.length = p.importEnd :=
    ⟨_, _, (List.take_append_drop p.importEnd _).symm, by rw [List.length_take]; omega⟩
  obtain ⟨middle, code, rfl, hmiddle⟩ : ∃ middle code, w = middle ++ code ∧
      (front ++ middle).length = p.constantEnd := by
    refine ⟨_, _, (List.take_append_drop (p.constantEnd - p.importEnd) _).symm, ?_⟩
    rw [hw, List.length_append] at hlen
    rw [List.length_append, List.length_take]
    omega
  obtain ⟨f, hf⟩ : ∃ f : Frame, f = ⟨front, middle, code, site.comma, site.content, site.closing,
      site.layout ++ site.rest, Text.lineBreak doc, Text.lineIndent doc (p.importEnd - 1),
      Text.lineIndent doc (p.constantEnd - 1), site.indent⟩ := ⟨_, rfl⟩
  have hdoc : f.text = doc := by
    refine Eq.trans ?_ site.eq_append.symm
    rw [hf, hw, Frame.text]
    simp only [List.append_assoc]
  refine ⟨f, hdoc, ⟨hdoc.symm ▸ h, by rw [hf, hfront], by rw [hf, hmiddle], by rw [hdoc, hf],
    by rw [hdoc, hf], by rw [hdoc, hf], ?_⟩⟩
  rw [hdoc]
  exact ⟨site, by rw [hf, hw], by rw [hf], by rw [hf], by rw [hf], by rw [hf], by rw [hf]⟩

namespace Framing

variable {spec : AnchorSpec} {f : Frame} {p : Places} {route : Route} (h : Framing spec f p)

include h

/-- The part in front ends with the last import. -/
theorem exists_front : ∃ a m, f.front = a ++ m ∧ lastLine a = [] ∧ newline ∉ m ∧ IsImport m := by
  obtain ⟨a, m, r, hcut, ha, hnewline, hm, hlen, -⟩ :=
    importEnd?_eq_some_iff_bare.mp (h.importEnd_eq ▸ h.clean.importEnd_eq)
  rw [Frame.text, ← List.append_assoc a] at hcut
  exact ⟨a, m, (List.append_inj hcut hlen).1, ha, hnewline, hm⟩

/-- The part in the middle ends with the last name constant, and the class goes on without another
up to its closing brace. -/
theorem exists_class : ∃ a m body c v, f.middle = a ++ m ∧ newline ∉ m ∧
    IsNameConstant m ∧ f.code = body ++ c :: v ∧ Constantless body ∧ Dart.isCloser c = true := by
  have hclean := h.clean
  have htext : f.text = (f.front ++ f.middle) ++ (f.code ++ (f.content ++ f.rest)) := by
    rw [Frame.text, List.append_assoc]
  rw [htext] at hclean
  obtain ⟨before, brace, w, body, v, c, hfront, hcode, hopener, hcloser, hend, -, hclosed, -⟩ :=
    hclean.exists_class h.constantEnd_eq
  rw [← hfront] at hcloser
  obtain ⟨a, m, r, hcut, hnewline, hm, hlen, hless⟩ := exists_constantless_of_nameConstantEnd? hend
  obtain ⟨rfl, rfl⟩ : w = a ++ m ∧ body = r :=
    List.append_inj (by rw [hcut, List.append_assoc]) hlen
  rw [← List.append_assoc, ← List.length_append] at hclosed
  obtain ⟨-, -, -, -, -, more, rfl, hbracket⟩ := Dart.Reader.exists_level_of_lengthToRest hclosed
  obtain ⟨site, hcuts⟩ := h.exists_site
  have hlong : (body ++ [c]).length ≤ f.code.length := by
    have hstart := site.start_le_code
    have hlt := h.clean.closer_lt
    have hle : p.listOpen ≤ spec.listStart p.listOpen := Nat.le_add_right _ _
    rw [hcuts.code_eq] at hstart
    simp only [List.length_append, List.length_singleton] at hstart hcloser ⊢
    omega
  obtain ⟨x, hx⟩ : ∃ x, f.middle = x ++ m := by
    have hle := h.clean.importEnd_le
    have hopen := h.clean.opener_spec.1
    have hcut : f.front ++ f.middle = (before ++ brace :: a) ++ m := by
      rw [hfront]
      simp only [List.append_assoc, List.cons_append]
    rcases List.append_eq_append_iff.mp hcut with ⟨x, -, hx⟩ | ⟨x, hx, -⟩
    · exact ⟨x, hx⟩
    · have hlen := congrArg List.length hx
      rw [← h.importEnd_eq] at hlen
      simp only [List.length_append, List.length_cons] at hlen
      omega
  obtain ⟨y, hy⟩ : ∃ y, f.code = body ++ [c] ++ y := by
    have hstart : body ++ [c] <+: f.code ++ (f.content ++ f.rest) :=
      ⟨more, by rw [hcode, List.append_assoc, List.singleton_append]⟩
    obtain ⟨y, hy⟩ := List.prefix_of_prefix_length_le hstart (List.prefix_append _ _) hlong
    exact ⟨y, hy.symm⟩
  exact ⟨x, m, body, c, y, hx, hnewline, hm, by rw [hy, List.append_assoc, List.singleton_append],
    hless, hbracket⟩

/-- Behind the last import there is nothing but a margin on the line, and the line ends before the
last name constant; the same holds there, up to the list. -/
theorem newline_mem : newline ∈ f.middle ∧ newline ∈ f.code := by
  have himport := h.clean.import_margin
  have hconstant := h.clean.constant_margin
  obtain ⟨a, m, body, c, v, hmiddle, -, hm, hcode, -, hc⟩ := h.exists_class
  obtain ⟨m', rfl⟩ := exists_append_of_isNameConstant hm
  rw [h.importEnd_eq, Frame.text, List.drop_left] at himport
  rw [h.constantEnd_eq, Frame.text, ← List.append_assoc, List.drop_left] at hconstant
  have hcloser : ∀ b, Dart.isCloser b → isMargin b = false := by decide +kernel
  exact ⟨Text.newline_mem_of_isMargin himport (x := byte ';') (by simp [hmiddle]) (by decide),
    Text.newline_mem_of_isMargin hconstant (x := c) (by simp [hcode]) (hcloser c hc)⟩

/-- Nothing but a margin follows the last import on its line. -/
theorem isMargin_of_mem_middle (x : Text) : ∀ y ∈ firstLine (f.middle ++ x), isMargin y := by
  have himport := h.clean.import_margin
  rw [h.importEnd_eq, Frame.text, List.drop_left,
    Text.firstLine_append_of_mem h.newline_mem.1] at himport
  rwa [Text.firstLine_append_of_mem h.newline_mem.1]

/-- Nothing but a margin follows the last name constant on its line. -/
theorem isMargin_of_mem_code (x : Text) : ∀ y ∈ firstLine (f.code ++ x), isMargin y := by
  have hconstant := h.clean.constant_margin
  rw [h.constantEnd_eq, Frame.text, ← List.append_assoc, List.drop_left,
    Text.firstLine_append_of_mem h.newline_mem.2] at hconstant
  rwa [Text.firstLine_append_of_mem h.newline_mem.2]

/-- The indentation of the last import does not depend on what follows. -/
theorem lineIndent_front (x : Text) :
    Text.lineIndent (f.front ++ x) (p.importEnd - 1) = f.importIndent := by
  obtain ⟨a, m, hfront, -, -, hm⟩ := h.exists_front
  obtain ⟨m', rfl⟩ := exists_append_of_isImport hm
  rw [← List.append_assoc] at hfront
  have hindent := h.importIndent_eq
  rw [h.importEnd_eq, Frame.text, hfront, Text.lineIndent_concat (by decide)] at hindent
  rw [h.importEnd_eq, hfront, Text.lineIndent_concat (by decide), hindent]

/-- The indentation of the last name constant does not depend on what follows. -/
theorem lineIndent_middle (x : Text) :
    Text.lineIndent (f.front ++ f.middle ++ x) (p.constantEnd - 1) = f.constantIndent := by
  obtain ⟨a, m, body, c, v, hmiddle, -, hm, -⟩ := h.exists_class
  obtain ⟨m', rfl⟩ := exists_append_of_isNameConstant hm
  have hfront : f.front ++ f.middle = f.front ++ (a ++ m') ++ [byte ';'] := by
    simp only [hmiddle, List.append_assoc]
  have hindent := h.constantIndent_eq
  rw [h.constantEnd_eq, Frame.text, ← List.append_assoc, hfront,
    Text.lineIndent_concat (by decide)] at hindent
  rw [h.constantEnd_eq, hfront, Text.lineIndent_concat (by decide), hindent]

/-- The list stands behind the last name constant. -/
theorem constantEnd_lt : p.constantEnd < spec.listStart p.listOpen := by
  have hbounds := h.clean.constantEnd_bounds
  have hlt := h.clean.closer_lt
  have hle : p.listOpen ≤ spec.listStart p.listOpen := Nat.le_add_right _ _
  omega

/-! ## One addition -/

omit h in
/-- Behind an addition the list is cut as before. -/
theorem exists_site_insert {f' : Frame} {a t b w : Text} (hadd : Addition a t b)
    (htext : f.text = a ++ b) (ha : a.length < spec.listStart p.listOpen)
    (hcode : f.front ++ (f.middle ++ f.code) = a ++ w)
    (hcode' : f'.front ++ (f'.middle ++ f'.code) = a ++ (t ++ w)) (hcomma : f'.comma = f.comma)
    (hcontent : f'.content = f.content) (hclosing : f'.closing = f.closing)
    (hrest : f'.rest = f.rest) (hindent : f'.entryIndent = f.entryIndent)
    (hsite : ∃ site : EntrySite f.text (spec.listStart p.listOpen) p.listClose, f.Cuts site) :
    ∃ site : EntrySite (a ++ (t ++ b)) (spec.listStart (t.length + p.listOpen))
      (t.length + p.listClose), f'.Cuts site := by
  rw [htext] at hsite
  obtain ⟨site, hcuts⟩ := hsite
  obtain ⟨site', h₁, h₂, h₃, h₄, h₅, h₆, h₇⟩ :=
    EntrySite.exists_insert hadd site ha (hcuts.code_eq.trans hcode)
  rw [AnchorSpec.listStart, Nat.add_assoc]
  exact ⟨site', h₁.trans hcode'.symm, h₂.trans (hcuts.comma_eq.trans hcomma.symm),
    h₃.trans (hcuts.content_eq.trans hcontent.symm),
      h₇.trans (hcuts.closing_eq.trans hclosing.symm),
    by rw [h₄, h₅, hcuts.rest_eq, hrest], h₆.trans (hcuts.indent_eq.trans hindent.symm)⟩

/-- The frame with another import. Only the part in front grows; what stands behind it moves by the
length of the block. -/
theorem addImport (hs : spec.Plain) (hr : route.Plain) :
    ∃ p', Framing spec (f.add { imports := [importLines route] }) p' := by
  obtain ⟨a, m, hfront, -, -, hm⟩ := h.exists_front
  obtain ⟨m', rfl⟩ := exists_append_of_isImport hm
  obtain ⟨b, hb⟩ : ∃ b, b = f.middle ++ (f.code ++ (f.content ++ f.rest)) := ⟨_, rfl⟩
  obtain ⟨t, ht⟩ : ∃ t, t = block f.lineBreak f.importIndent (importLines route) := ⟨_, rfl⟩
  have htext : f.text = f.front ++ b := by rw [Frame.text, hb]
  have hblock : t = (blockBelow (f.front ++ b) f.front.length (importLines route)).text := by
    rw [ht, blockBelow, ← h.importEnd_eq, h.lineIndent_front, ← htext, h.lineBreak_eq]
  have hadd : Addition f.front t b := by
    rw [hblock]
    exact addition_importLines b hr.importPath_plain ⟨a ++ m', by rw [hfront, List.append_assoc]⟩
  obtain ⟨f', hf', hf⟩ : ∃ f' : Frame, f' = { f with front := f.front ++ t } ∧
      f' = f.add { imports := [importLines route] } :=
    ⟨_, rfl, by simp [Frame.add_of_entries_eq_nil, ht]⟩
  have htext' : f'.text = f.front ++ (t ++ b) := by rw [hf', Frame.text, hb, List.append_assoc]
  have hlt := h.constantEnd_lt
  have hpos : 0 < f.middle.length := List.length_pos_of_mem h.newline_mem.1
  have hlen := h.constantEnd_eq
  rw [List.length_append] at hlen
  rw [← hf]
  refine ⟨p.behindImport t.length, ⟨?_, ?_, ?_, ?_, ?_, ?_, ?_⟩⟩
  · rw [htext']
    exact (htext ▸ h.clean).addImport hs hr h.importEnd_eq hblock
  · rw [Places.behindImport, h.importEnd_eq, hf', List.length_append, Nat.add_comm]
  · rw [Places.behindImport, hlen, hf']
    simp only [List.length_append]
    omega
  · rw [htext', hadd.lineBreak, ← htext, h.lineBreak_eq, hf']
  · have hend := hadd.lineIndent_end
    rw [← h.importEnd_eq, h.lineIndent_front, List.length_append, Nat.add_comm,
      ← h.importEnd_eq] at hend
    rw [htext', Places.behindImport, hend, hf']
  · have hindent := hadd.lineIndent (o := p.constantEnd - 1) (by omega)
    rw [← htext, h.constantIndent_eq, ← Nat.add_sub_assoc (by omega)] at hindent
    rw [htext', Places.behindImport, hindent, hf']
  · rw [htext']
    exact exists_site_insert hadd htext (by omega) rfl (by rw [hf', List.append_assoc])
      (by rw [hf']) (by rw [hf']) (by rw [hf']) (by rw [hf']) (by rw [hf']) h.exists_site

/-- The frame with another pair of constants. Only the middle grows, and the last import stays where
it is. -/
theorem addConstants (hs : spec.Plain) (hr : route.Regular) :
    ∃ p', Framing spec (f.add { constants := [constantLines route] }) p' := by
  obtain ⟨a, m, body, c, v, hmiddle, -, hm, -⟩ := h.exists_class
  obtain ⟨m', rfl⟩ := exists_append_of_isNameConstant hm
  obtain ⟨b, hb⟩ : ∃ b, b = f.code ++ (f.content ++ f.rest) := ⟨_, rfl⟩
  obtain ⟨t, ht⟩ : ∃ t, t = block f.lineBreak f.constantIndent (constantLines route) := ⟨_, rfl⟩
  have htext : f.text = f.front ++ f.middle ++ b := by rw [Frame.text, hb, List.append_assoc]
  have hblock : t =
      (blockBelow (f.front ++ f.middle ++ b) (f.front ++ f.middle).length
        (constantLines route)).text := by
    rw [ht, blockBelow, ← h.constantEnd_eq, h.lineIndent_middle, ← htext, h.lineBreak_eq]
  have hadd : Addition (f.front ++ f.middle) t b := by
    rw [hblock]
    exact addition_constantLines b hr ⟨f.front ++ (a ++ m'),
      by simp only [hmiddle, List.append_assoc]⟩
  obtain ⟨f', hf', hf⟩ : ∃ f' : Frame, f' = { f with middle := f.middle ++ t } ∧
      f' = f.add { constants := [constantLines route] } :=
    ⟨_, rfl, by simp [Frame.add_of_entries_eq_nil, ht]⟩
  have htext' : f'.text = f.front ++ f.middle ++ (t ++ b) := by
    simp only [hf', Frame.text, hb, List.append_assoc]
  have hlt := h.constantEnd_lt
  have hlen := h.constantEnd_eq
  rw [← hf]
  refine ⟨p.behindConstant t.length, ⟨?_, ?_, ?_, ?_, ?_, ?_, ?_⟩⟩
  · rw [htext']
    exact (htext ▸ h.clean).addConstants hs hr hlen hblock
  · rw [Places.behindConstant, h.importEnd_eq, hf']
  · rw [Places.behindConstant, hlen, hf']
    simp only [List.length_append]
    omega
  · rw [htext', hadd.lineBreak, ← htext, h.lineBreak_eq, hf']
  · rw [htext', Places.behindConstant, List.append_assoc, h.lineIndent_front, hf']
  · have hend := hadd.lineIndent_end
    rw [← hlen, h.lineIndent_middle, List.length_append, Nat.add_comm, ← hlen] at hend
    rw [htext', Places.behindConstant, hend, hf']
  · rw [htext']
    exact exists_site_insert hadd htext (by omega) (List.append_assoc _ _ _).symm
      (by simp only [hf', List.append_assoc]) (by rw [hf']) (by rw [hf']) (by rw [hf'])
      (by rw [hf']) (by rw [hf']) h.exists_site

/-- The frame with another entry. The anchors of the statements stand in front of the entry and do
not move. -/
theorem addEntry (hs : spec.Accepted) (hr : route.Regular) :
    ∃ p', Framing spec (f.add { entries := [entryLines spec route] }) p' := by
  obtain ⟨opener, hstart, hmatch, hopen⟩ := h.clean.exists_list hs
  obtain ⟨site, hcuts⟩ := h.exists_site
  obtain ⟨closer, hclose, next, hcode, hcomma, hcontent, hlayout, hrest, hindent, hclosing⟩ :=
    site.exists_entered hs hr hstart hmatch
  obtain ⟨f', hf', hf⟩ : ∃ f' : Frame, f' = { f with
      code := f.code ++ (f.comma ++ f.content) ++ block f.lineBreak f.entryIndent
        (entryLines spec route)
      comma := []
      content := []
      closing := []
      rest := f.closing ++ f.rest } ∧ f' = f.add { entries := [entryLines spec route] } :=
    ⟨_, rfl, by simp [Frame.add_of_entries_ne_nil]⟩
  have htext : f'.text = site.entered spec route := by
    rw [EntrySite.entered, hcuts.code_eq, hcuts.comma_eq, hcuts.content_eq, hcuts.closing_eq,
      hcuts.rest_eq, hcuts.indent_eq, h.lineBreak_eq, hf', Frame.text]
    simp only [List.append_assoc, List.nil_append]
  have hfound (t : Text) : spec.listClose? t p.listOpen = Dart.matchingBracket t opener := by
    rw [AnchorSpec.listClose?, hstart]
  rw [← hf]
  refine ⟨{ p with listClose := closer }, ⟨?_, ?_, ?_, ?_, ?_, ?_, ?_⟩⟩
  · rw [htext]
    exact h.clean.addEntry hs hr site ((hfound _).trans hclose)
  · rw [hf', h.importEnd_eq]
  · rw [hf', h.constantEnd_eq]
  · rw [htext, site.lineBreak_entered hs hr hstart hopen, h.lineBreak_eq, hf']
  · rw [hf', Frame.text, h.lineIndent_front]
  · rw [hf', Frame.text, ← List.append_assoc, h.lineIndent_middle]
  · rw [htext]
    refine ⟨next, ⟨?_, ?_, ?_, ?_, ?_, ?_⟩⟩
    · rw [hcode, hcuts.code_eq, hcuts.comma_eq, hcuts.content_eq, hcuts.indent_eq,
        h.lineBreak_eq, hf']
      simp only [List.append_assoc]
    · rw [hcomma, hf']
    · rw [hcontent, hf']
    · rw [hclosing, hf']
    · rw [hlayout, hrest, hcuts.closing_eq, List.append_assoc, hcuts.rest_eq, hf']
    · rw [hindent, hcuts.indent_eq, hf']

end Framing

end FlutterScaffold.Registry
