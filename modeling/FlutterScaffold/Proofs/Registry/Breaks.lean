import FlutterScaffold.Proofs.Text.Breaks
import FlutterScaffold.Proofs.Registry.Idempotency

/-!
# Line breaks of a registry

Declarations are written behind a semicolon, behind code, or behind the token of a list, never
behind a carriage return, and with the line break that the document has. So no patch splits a line
break or brings one of another kind, as long as the route and the spelling of the registry stay
within a line (`keepsBreaks_patch`).
-/

namespace FlutterScaffold

open FlutterScaffold.Text (OneLine KeepsBreaks UsesCrlf bareNewlines block crlf splice)
open Byte (newline carriageReturn isBlank isLayout)

/-- A route whose texts each stand within a line. -/
structure Route.OneLine (route : Route) : Prop where
  symbol : Text.OneLine route.symbol
  path : Text.OneLine route.path
  name : Text.OneLine route.name
  widget : Text.OneLine route.widget
  importPath : Text.OneLine route.importPath

namespace Registry

/-- A registry whose spellings each stand within a line. -/
structure AnchorSpec.OneLine (spec : AnchorSpec) : Prop where
  routerClass : Text.OneLine spec.routerClass
  listToken : Text.OneLine spec.listToken

variable {spec : AnchorSpec} {doc : Text} {route : Route} {policy : Policy} {i : Insertion}

/-! ## Declarations stand within lines -/

/-- The literal of a part of a line is one. -/
theorem oneLine_stringLiteral {value : Text} (h : OneLine value) :
    OneLine (Dart.stringLiteral value) := by
  have hescape : OneLine (Dart.escape value) := by
    constructor <;> intro hmem <;> rcases mem_of_mem_escape hmem with hb | hb
    · exact absurd hb (by decide)
    · exact h.1 hb
    · exact absurd hb (by decide)
    · exact h.2 hb
  have hquote : OneLine [Byte.quote] := by decide
  exact (hquote.append hescape).append hquote

/-- Imports are written on one line. -/
theorem oneLine_of_mem_importLines (hr : route.OneLine) : ∀ l ∈ importLines route, OneLine l := by
  have hstart : OneLine (lit "import ") := by decide
  have hend : OneLine (lit ";") := by decide
  refine List.forall_mem_singleton.mpr ?_
  exact (hstart.append (oneLine_stringLiteral hr.importPath)).append hend

/-- A constant is written on one line. -/
theorem oneLine_constantLine {name value : Text} (hname : OneLine name) (hvalue : OneLine value) :
    OneLine (constantLine name value) := by
  have hstart : OneLine (lit "static const String ") := by decide
  have hequals : OneLine (lit " = ") := by decide
  have hend : OneLine (lit ";") := by decide
  exact (((hstart.append hname).append hequals).append (oneLine_stringLiteral hvalue)).append hend

/-- Constants are written on one line each. -/
theorem oneLine_of_mem_constantLines (hr : route.OneLine) :
    ∀ l ∈ constantLines route, OneLine l := by
  have hname : OneLine (lit "Name") := by decide
  refine List.forall_mem_cons.mpr ⟨oneLine_constantLine hr.symbol hr.path, ?_⟩
  exact List.forall_mem_singleton.mpr (oneLine_constantLine (hr.symbol.append hname) hr.name)

/-- The lines of an entry hold no line breaks. -/
theorem oneLine_of_mem_entryLines (hs : spec.OneLine) (hr : route.OneLine) :
    ∀ l ∈ entryLines spec route, OneLine l := by
  have hdot : OneLine (lit ".") := by decide
  have hmember {head tail : Text} (hhead : OneLine head) (htail : OneLine tail) :
      OneLine (head ++ spec.routerClass ++ lit "." ++ route.symbol ++ tail) :=
    (((hhead.append hs.routerClass).append hdot).append hr.symbol).append htail
  have hbuilder : OneLine (lit "  builder: (context, state) => const ") := by decide
  have hcall : OneLine (lit "(),") := by decide
  intro l hl
  simp only [entryLines, List.mem_cons, List.not_mem_nil, or_false] at hl
  rcases hl with rfl | rfl | rfl | rfl | rfl
  · decide
  · exact hmember (by decide) (by decide)
  · exact hmember (by decide) (by decide)
  · exact (hbuilder.append hr.widget).append hcall
  · decide

/-! ## Declarations suit the document -/

/-- A block below an anchor suits the document, unless a carriage return precedes the anchor. -/
theorem suits_blockBelow {a b : Text} {declaration : List Text} (hdoc : doc = a ++ b)
    (ha : carriageReturn ∉ a.getLast?) (hlines : ∀ l ∈ declaration, OneLine l) :
    (blockBelow doc a.length declaration).Suits doc where
  offset_le := by simp [hdoc, blockBelow]
  behind := by simpa [hdoc, blockBelow] using ha
  text := Text.suits_block (fun _ => Text.isBlank_of_mem_lineIndent) hlines

/-- What the import inserts suits the document. -/
theorem suits_of_mem_mergeImport (hr : route.OneLine)
    (hi : i ∈ (mergeImport doc (spec.scan doc) route).insertions) : i.Suits doc := by
  obtain ⟨e, he, heq⟩ := mergeImport_eq_insert (List.ne_nil_of_mem hi)
  rw [heq] at hi
  obtain rfl := List.mem_singleton.mp hi
  obtain ⟨a, m, b, hdoc, rfl, -, hm⟩ := exists_of_importEnd? he
  refine suits_blockBelow hdoc ?_ (oneLine_of_mem_importLines hr)
  obtain ⟨m', rfl⟩ := exists_append_of_isImport hm
  rw [← List.append_assoc, List.getLast?_concat]
  decide

/-- What the constants insert suits the document. -/
theorem suits_of_mem_mergeConstants (hr : route.OneLine)
    (hi : i ∈ (mergeConstants doc (spec.scan doc) route).insertions) : i.Suits doc := by
  obtain ⟨c, hc, heq⟩ := mergeConstants_eq_insert (List.ne_nil_of_mem hi)
  rw [heq] at hi
  obtain rfl := List.mem_singleton.mp hi
  obtain ⟨a, m, b, hdoc, rfl, -, hm⟩ := exists_of_constantEnd? hc
  refine suits_blockBelow hdoc ?_ (oneLine_of_mem_constantLines hr)
  obtain ⟨m', rfl⟩ := exists_append_of_isNameConstant hm
  rw [← List.append_assoc, List.getLast?_concat]
  decide

/-- The content of a list starts behind no carriage return. -/
theorem carriageReturn_not_mem_take_listStart (hs : spec.OneLine) {o : Nat}
    (hopen : spec.listOpen? doc = some o) :
    carriageReturn ∉ (doc.take (spec.listStart o)).getLast? := by
  by_cases hnil : spec.listToken = []
  · have hzero : o = 0 := by
      rw [AnchorSpec.listOpen?, hnil] at hopen
      cases doc <;> simpa [Text.indexOf?] using hopen.symm
    simp [AnchorSpec.listStart, hnil, hzero]
  · obtain ⟨rest, hrest⟩ := Text.isPrefix_drop_of_indexOf? hopen
    rw [AnchorSpec.listStart, List.take_add, ← hrest, List.take_left,
      List.getLast?_append_of_ne_nil _ hnil]
    exact fun hlast => hs.listToken.1 (List.mem_of_getLast? hlast)

/-- The content of a list ends behind no carriage return. -/
theorem carriageReturn_not_mem_take_contentEnd {start closer : Nat} (hstart : start ≤ closer)
    (hcloser : closer ≤ doc.length) (h : carriageReturn ∉ (doc.take start).getLast?) :
    carriageReturn ∉ (doc.take (contentEnd doc start closer)).getLast? := by
  obtain ⟨content, layout, rest, hdoc, -, hlen, -, hlast⟩ := exists_content hstart hcloser
  have htake : doc.take content.length = content := by rw [hdoc, List.take_left]
  have hle := (contentEnd_bounds doc hstart).1
  rw [← hlen] at hle ⊢
  rcases Nat.eq_or_lt_of_le hle with heq | hlt
  · rwa [← heq]
  · rw [htake]
    exact fun hmem => absurd (hlast hlt _ hmem) (by decide)

/-- An entry brings the line breaks that the document has. -/
theorem suits_text_entryInsertion (route : Route) (doc : Text) (start closer : Nat)
    (hlines : ∀ l ∈ entryLines spec route, OneLine l) :
    Text.Suits doc (entryInsertion spec doc start closer route).text := by
  have hclosing : ∀ b ∈ Text.lineIndent doc closer, isBlank b :=
    fun _ => Text.isBlank_of_mem_lineIndent
  refine (Text.suits_block isBlank_of_mem_entryIndent hlines).append ?_
  split
  · exact Text.suits_of_oneLine (by decide)
  · exact (Text.suits_lineBreak doc).append
      (Text.suits_of_oneLine (Text.oneLine_of_isBlank hclosing))

/-- The block of an entry suits the document. -/
theorem suits_entryInsertion (hs : spec.OneLine) (hr : route.OneLine) {start closer : Nat}
    (hstart : start ≤ closer) (hcloser : closer ≤ doc.length)
    (h : carriageReturn ∉ (doc.take start).getLast?) :
    (entryInsertion spec doc start closer route).Suits doc where
  offset_le := (contentEnd_bounds doc hstart).2.trans hcloser
  behind := carriageReturn_not_mem_take_contentEnd hstart hcloser h
  text := suits_text_entryInsertion route doc start closer (oneLine_of_mem_entryLines hs hr)

/-- What the entry inserts suits the document. -/
theorem suits_of_mem_mergeEntry (hs : spec.OneLine) (hr : route.OneLine)
    (hi : i ∈ (mergeEntry spec doc (spec.scan doc) route).insertions) : i.Suits doc := by
  obtain ⟨o, closer, hopen, hclose, heq⟩ := exists_of_mergeEntry (List.ne_nil_of_mem hi)
  obtain ⟨hstart, hcloser⟩ := listStart_le_of_listClose? hclose
  have hentry := suits_entryInsertion hs hr hstart hcloser.le
    (carriageReturn_not_mem_take_listStart hs hopen)
  rw [heq] at hi
  rcases appendEntry_insertions spec doc (spec.listStart o) closer with
    ⟨-, hins⟩ | ⟨last, hlast, -, hins⟩
  · rw [hins] at hi
    obtain rfl := List.mem_singleton.mp hi
    exact hentry
  · rw [hins] at hi
    rcases List.mem_cons.mp hi with rfl | hi
    · obtain ⟨hlt, b, hb, hbare⟩ := lastCode?_lt_of_listClose? hclose last hlast
      have hcomma : OneLine [byte ','] := by decide
      refine ⟨?_, ?_, Text.suits_of_oneLine hcomma⟩
      · dsimp only
        omega
      · rw [List.take_add_one, hb, Option.toList_some, List.getLast?_concat]
        rintro heq
        rw [Option.some.inj heq] at hbare
        exact absurd hbare (by decide)
    · obtain rfl := List.mem_singleton.mp hi
      exact hentry

/-! ## Patches -/

/-- The atomic patch keeps the line breaks of a document. -/
theorem keepsBreaks_patchAtomic (hs : spec.OneLine) (hr : route.OneLine) :
    KeepsBreaks doc (patchAtomic spec doc route).text := by
  rcases text_patchAtomic spec doc route with htext | htext <;> rw [htext]
  · exact KeepsBreaks.refl doc
  · refine Text.keepsBreaks_splice fun i hmem => ?_
    rcases List.mem_append.mp hmem with hmem | hmem
    · rcases List.mem_append.mp hmem with hmem | hmem
      · exact suits_of_mem_mergeImport hr hmem
      · exact suits_of_mem_mergeConstants hr hmem
    · exact suits_of_mem_mergeEntry hs hr hmem

/-- The best-effort patch keeps the line breaks of a document. -/
theorem keepsBreaks_patchBestEffort (hs : spec.OneLine) (hr : route.OneLine) :
    KeepsBreaks doc (patchBestEffort spec doc route).text := by
  obtain ⟨seen, done, hseen, hdone, htext⟩ := text_patchBestEffort spec doc route
  have himport : KeepsBreaks doc seen := by
    rw [← hseen]
    exact Text.keepsBreaks_splice fun i hi => suits_of_mem_mergeImport hr hi
  have hconstants : KeepsBreaks seen done := by
    rw [← hdone]
    exact Text.keepsBreaks_splice fun i hi => suits_of_mem_mergeConstants hr hi
  rcases htext with htext | htext | htext <;> rw [htext]
  · exact KeepsBreaks.refl doc
  · exact himport
  · refine (himport.trans hconstants).trans (Text.keepsBreaks_splice fun i hi => ?_)
    exact suits_of_mem_mergeEntry hs hr hi

/-- A patch leaves a document with the kinds of line breaks it had. -/
theorem keepsBreaks_patch (hs : spec.OneLine) (hr : route.OneLine) (policy : Policy) (doc : Text) :
    KeepsBreaks doc (patch spec policy doc route).text := by
  cases policy with
  | atomic => exact keepsBreaks_patchAtomic hs hr
  | bestEffort => exact keepsBreaks_patchBestEffort hs hr

/-- A document with a two-byte line break keeps the number of its bare newlines, and one without
gets none; so the line breaks of a document stay of one kind when they were. -/
theorem patch_keeps_line_breaks (hs : spec.OneLine) (hr : route.OneLine) (policy : Policy)
    (doc : Text) :
    let text := (patch spec policy doc route).text
    (crlf <:+: doc → bareNewlines text = bareNewlines doc ∧ crlf <:+: text) ∧
      (¬ crlf <:+: doc → ¬ crlf <:+: text) ∧ (UsesCrlf doc → UsesCrlf text) ∧
      (carriageReturn ∉ doc → carriageReturn ∉ text) := by
  intro text
  have hkept : KeepsBreaks doc text := keepsBreaks_patch hs hr policy doc
  exact ⟨fun hdoc => ⟨hkept.newlines hdoc, hkept.crlf_iff.mpr hdoc⟩, mt hkept.crlf_iff.mp,
    hkept.usesCrlf, hkept.plain⟩

/-- Both kinds of line breaks and lone carriage returns, with one of them right behind an anchor. -/
theorem patch_keeps_line_breaks_mixed :
    let spec : AnchorSpec := {}
    let route : Route :=
      { symbol := lit "shop", path := lit "/shop", name := lit "shop", widget := lit "ShopPage"
        importPath := lit "shop.dart" }
    let doc := lit "import 'a.dart';\r\r\nclass Router \x7b\n  static const String aName = 'a';\r" ++
      lit "\x7d\n\nfinal routes: [\r\n\t];"
    spec.OneLine ∧ route.OneLine ∧ crlf <:+: doc ∧ bareNewlines doc = 3 ∧
      ∀ policy, (patch spec policy doc route).detail = .full ∧
        bareNewlines (patch spec policy doc route).text = 3 := by
  intro spec route doc
  have hs : spec.OneLine := ⟨by decide, by decide⟩
  have hr : route.OneLine := ⟨by decide, by decide, by decide, by decide, by decide⟩
  have hcrlf : crlf <:+: doc := Text.hasInfix_iff.mp (by decide)
  have hthree : bareNewlines doc = 3 := by decide
  refine ⟨hs, hr, hcrlf, hthree, fun policy => ⟨?_, ?_⟩⟩
  · cases policy <;> decide +kernel
  · exact ((patch_keeps_line_breaks hs hr policy doc).1 hcrlf).1.trans hthree

end Registry

end FlutterScaffold
