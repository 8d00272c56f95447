import FlutterScaffold.Proofs.Dart.Neutral
import FlutterScaffold.Proofs.Registry.Spelling

/-!
# Declarations are neutral text

What a merge writes opens nothing that it does not close: the one literal of a statement ends before
its semicolon, and the parentheses of an entry are balanced.
-/

namespace FlutterScaffold.Registry

open FlutterScaffold.Dart (Neutral isPlain)
open FlutterScaffold.Text (block IsLineBreak)
open Byte (newline isBlank quote)

private theorem isPlain_of_isIdentifier : ∀ b, Byte.isIdentifier b → isPlain b := by
  decide +kernel

private theorem isPlain_of_isBlank (b : Byte) (h : isBlank b) : isPlain b := by
  simp only [isBlank, Bool.or_eq_true, beq_iff_eq] at h
  rcases h with rfl | rfl <;> rfl

private theorem isVerbatim_of_isPlainByte : ∀ b, Route.isPlainByte b → Dart.isVerbatim b := by
  decide +kernel

/-- A text of plain bytes is neutral behind more plain bytes when it does not end with an `r`. -/
theorem neutral_append_plain {v w : Text} (hv : ∀ b ∈ v, isPlain b) (hw : ∀ b ∈ w, isPlain b)
    (hne : w ≠ []) (hr : w.getLast? ≠ some (byte 'r')) : Neutral (v ++ w) := by
  refine .plain (List.forall_mem_append.mpr ⟨hv, hw⟩) ?_
  rwa [List.getLast?_append_of_ne_nil _ hne]

/-- A statement ends with a literal and a semicolon. -/
theorem neutral_statement {v value : Text} (hv : ∀ b ∈ v, isPlain b)
    (hr : v.getLast? ≠ some (byte 'r')) (hvalue : ∀ b ∈ value, Route.isPlainByte b) :
    Neutral (v ++ (Dart.stringLiteral value ++ lit ";")) := by
  rw [stringLiteral_of_plain hvalue]
  have hliteral := Neutral.literal fun b hb => isVerbatim_of_isPlainByte b (hvalue b hb)
  have heq : quote :: (value ++ [quote]) ++ lit ";" =
      quote :: (value ++ [quote, byte ';']) := by
    simp [show lit ";" = [byte ';'] from rfl]
  rw [heq]
  exact .append (.plain hv hr) hliteral

section Route

variable {spec : AnchorSpec} {route : Route} {nl indent : Text}

/-- An import opens and closes nothing. -/
theorem neutral_importLines (hpath : ∀ b ∈ route.importPath, Route.isPlainByte b) :
    ∀ l ∈ importLines route, Neutral l := by
  rw [importLines, List.forall_mem_singleton, List.append_assoc]
  exact neutral_statement (List.all_eq_true.mp rfl) (by decide) hpath

/-- A constant opens and closes nothing. -/
theorem neutral_constantLine {name value : Text} (hname : ∀ b ∈ name, Byte.isAlnum b)
    (hvalue : ∀ b ∈ value, Route.isPlainByte b) : Neutral (constantLine name value) := by
  rw [constantLine, List.append_assoc (lit "static const String " ++ name ++ lit " = ")]
  refine neutral_statement ?_ ?_ hvalue
  · refine List.forall_mem_append.mpr ⟨List.forall_mem_append.mpr ⟨List.all_eq_true.mp rfl, ?_⟩,
      List.all_eq_true.mp rfl⟩
    exact fun b hb => isPlain_of_isIdentifier b (Byte.isIdentifier_of_isAlnum b (hname b hb))
  · rw [List.getLast?_append_of_ne_nil _ (by decide)]
    decide

theorem neutral_constantLines (hr : route.Regular) : ∀ l ∈ constantLines route, Neutral l := by
  have hname : ∀ b ∈ route.name, Route.isPlainByte b := fun b hb =>
    isPlainByte_of_isSnakeByte b (hr.name_snake b hb)
  have hpath : ∀ b ∈ route.path, Route.isPlainByte b := by
    rw [hr.path_eq]
    exact List.forall_mem_cons.mpr ⟨by decide, hname⟩
  have hsymbol : ∀ b ∈ route.symbol ++ lit "Name", Byte.isAlnum b :=
    List.forall_mem_append.mpr ⟨hr.symbol_alnum, List.all_eq_true.mp rfl⟩
  simp only [constantLines, List.forall_mem_cons]
  exact ⟨neutral_constantLine hr.symbol_alnum hpath, neutral_constantLine hsymbol hname, by simp⟩

private theorem isPlain_of_mem_break (hnl : IsLineBreak nl) (hindent : ∀ b ∈ indent, isBlank b) :
    ∀ b ∈ nl ++ indent, isPlain b := by
  refine List.forall_mem_append.mpr ⟨?_, fun b hb => isPlain_of_isBlank b (hindent b hb)⟩
  rcases hnl with rfl | rfl <;> exact List.all_eq_true.mp rfl

/-- A line break and an indentation open and close nothing. -/
private theorem neutral_break (hnl : IsLineBreak nl) (hindent : ∀ b ∈ indent, isBlank b) :
    Neutral (nl ++ indent) := by
  refine .plain (isPlain_of_mem_break hnl hindent) ?_
  · intro h
    rcases List.mem_append.mp (List.mem_of_getLast? h) with hr | hr
    · rcases hnl with rfl | rfl <;> exact absurd hr (by decide)
    · exact absurd (hindent _ hr) (by decide)

/-- A block of neutral lines is neutral. -/
theorem neutral_block (hnl : IsLineBreak nl) (hindent : ∀ b ∈ indent, isBlank b)
    {content : List Text} (hcontent : ∀ l ∈ content, Neutral l) :
    Neutral (block nl indent content) := by
  induction content with
  | nil => exact .plain (by simp) (by simp)
  | cons l content ih =>
    obtain ⟨hl, hcontent⟩ := List.forall_mem_cons.mp hcontent
    rw [Text.block_cons]
    exact .append (.append (neutral_break hnl hindent) hl) (ih hcontent)

/-- The entry of a route in front of its comma, from the end of its first line break. -/
def entryCode (nl indent : Text) (spec : AnchorSpec) (route : Route) : Text :=
  indent ++ lit "GoRoute" ++ byte '(' ::
    (nl ++ indent ++ (lit "  path: " ++ spec.routerClass ++ lit "." ++ route.symbol ++ lit ",") ++
      (nl ++ indent ++
          (lit "  name: " ++ spec.routerClass ++ lit "." ++ route.symbol ++ lit "Name,") ++
        (nl ++ indent ++ (lit "  builder: " ++ byte '(' :: (lit "context, state" ++ [byte ')'])) ++
          (lit " => const " ++ route.widget ++ byte '(' :: ([] ++ [byte ')'])) ++
          (lit "," ++ nl ++ indent))) ++ [byte ')'])

/-- The block of an entry is its code and the comma behind it. -/
theorem block_entryLines (nl indent : Text) (spec : AnchorSpec) (route : Route) :
    block nl indent (entryLines spec route) =
      nl ++ (entryCode nl indent spec route ++ [byte ',']) := by
  have hopen : lit "GoRoute(" = lit "GoRoute" ++ [byte '('] := by decide
  have hstart : lit "  builder: (context, state) => const " = lit "  builder: " ++
      byte '(' :: (lit "context, state" ++ [byte ')']) ++ lit " => const " := by decide
  have hend : lit "()," = [byte '(', byte ')'] ++ lit "," := by decide
  have hclose : lit ")," = [byte ')', byte ','] := by decide
  simp only [entryCode, entryLines, Text.block_cons, Text.block_nil, hopen, hstart, hend, hclose,
    List.append_assoc, List.cons_append, List.nil_append, List.append_nil]

/-- The bytes of an entry are layout, bytes of names, and a few marks. -/
theorem forall_mem_entryCode {P : Byte → Prop} (hr : route.Regular)
    (hclass : ∀ b ∈ spec.routerClass, Byte.isIdentifier b) (hnl : IsLineBreak nl)
    (hindent : ∀ b ∈ indent, isBlank b) (hlayout : ∀ b, Byte.isLayout b → P b)
    (hidentifier : ∀ b, Byte.isIdentifier b → P b) (hmark : ∀ b ∈ lit "().,:=>", P b) :
    ∀ b ∈ entryCode nl indent spec route, P b := by
  have hlit (w : Text) (h : w.all fun b =>
      Byte.isLayout b || Byte.isIdentifier b || (lit "().,:=>").contains b) : ∀ b ∈ w, P b := by
    intro b hb
    have hkind := List.all_eq_true.mp h b hb
    simp only [Bool.or_eq_true, List.contains_iff_mem] at hkind
    rcases hkind with (h | h) | h
    exacts [hlayout b h, hidentifier b h, hmark b h]
  have hlines : ∀ b ∈ nl, P b := by
    rcases hnl with rfl | rfl <;> exact hlit _ rfl
  have hblanks : ∀ b ∈ indent, P b := fun b hb =>
    hlayout b (Byte.isLayout_of_isBlank b (hindent b hb))
  have hname : ∀ b ∈ spec.routerClass, P b := fun b hb => hidentifier b (hclass b hb)
  have hsymbol : ∀ b ∈ route.symbol, P b := fun b hb =>
    hidentifier b (Byte.isIdentifier_of_isAlnum b (hr.symbol_alnum b hb))
  have hwidget : ∀ b ∈ route.widget, P b := fun b hb =>
    hidentifier b (Byte.isIdentifier_of_isAlnum b (hr.widget_alnum b hb))
  have hopen : P (byte '(') := hmark _ (by decide)
  have hclose : P (byte ')') := hmark _ (by decide)
  simp only [entryCode, List.forall_mem_append, List.forall_mem_cons, List.not_mem_nil,
    false_implies, implies_true, and_true, true_and]
  refine ⟨⟨hblanks, hlit _ rfl⟩, hopen, ⟨⟨⟨hlines, hblanks⟩,
    ⟨⟨⟨hlit _ rfl, hname⟩, hlit _ rfl⟩, hsymbol⟩,
    hlit _ rfl⟩, ⟨⟨hlines, hblanks⟩, ⟨⟨⟨hlit _ rfl, hname⟩, hlit _ rfl⟩, hsymbol⟩, hlit _ rfl⟩, ?_⟩,
      hclose⟩
  exact ⟨⟨⟨⟨hlines, hblanks⟩, hlit _ rfl, hopen, hlit _ rfl, hclose⟩, ⟨hlit _ rfl, hwidget⟩, hopen,
    hclose⟩,
    ⟨hlit _ rfl, hlines⟩, hblanks⟩

/-- An entry is neutral up to the comma that ends it. A field names a constant of the class and ends
with a comma. -/
theorem neutral_entryCode (hr : route.Regular)
    (hclass : ∀ b ∈ spec.routerClass, Byte.isIdentifier b) (hnl : IsLineBreak nl)
    (hindent : ∀ b ∈ indent, isBlank b) : Neutral (entryCode nl indent spec route) := by
  have hbreak := neutral_break hnl hindent
  have hblanks : ∀ b ∈ indent, isPlain b := fun b hb => isPlain_of_isBlank b (hindent b hb)
  have hplain : ∀ b ∈ spec.routerClass, isPlain b := fun b hb =>
    isPlain_of_isIdentifier b (hclass b hb)
  have hsymbol : ∀ b ∈ route.symbol, isPlain b := fun b hb =>
    isPlain_of_isIdentifier b (Byte.isIdentifier_of_isAlnum b (hr.symbol_alnum b hb))
  have hwidget : ∀ b ∈ route.widget, isPlain b := fun b hb =>
    isPlain_of_isIdentifier b (Byte.isIdentifier_of_isAlnum b (hr.widget_alnum b hb))
  have hfield (before after : Text) (hb : ∀ b ∈ before, isPlain b) (ha : ∀ b ∈ after, isPlain b)
      (hne : after ≠ []) (hlast : after.getLast? ≠ some (byte 'r')) :
      Neutral (before ++ spec.routerClass ++ lit "." ++ route.symbol ++ after) := by
    refine neutral_append_plain ?_ ha hne hlast
    simp only [List.forall_mem_append]
    exact ⟨⟨⟨hb, hplain⟩, List.all_eq_true.mp rfl⟩, hsymbol⟩
  have hpath := hfield (lit "  path: ") (lit ",") (List.all_eq_true.mp rfl)
    (List.all_eq_true.mp rfl) (by decide) (by decide)
  have hname := hfield (lit "  name: ") (lit "Name,") (List.all_eq_true.mp rfl)
    (List.all_eq_true.mp rfl) (by decide) (by decide)
  have hbuilder : Neutral (lit "  builder: " ++ byte '(' :: (lit "context, state" ++ [byte ')'])) :=
    .paren (List.all_eq_true.mp rfl) (.plain (List.all_eq_true.mp rfl) (by decide))
  have hbody : Neutral (lit " => const " ++ route.widget ++ byte '(' :: ([] ++ [byte ')'])) :=
    .paren (List.forall_mem_append.mpr ⟨List.all_eq_true.mp rfl, hwidget⟩)
      (.plain (by simp) (by simp))
  have hcomma : Neutral (lit "," ++ nl ++ indent) := by
    rw [List.append_assoc]
    exact .append (.plain (List.all_eq_true.mp rfl) (by decide)) hbreak
  refine .paren (List.forall_mem_append.mpr ⟨hblanks, List.all_eq_true.mp rfl⟩) ?_
  exact .append (.append hbreak hpath) (.append (.append hbreak hname)
    (.append (.append (.append hbreak hbuilder) hbody) hcomma))

end Route

end FlutterScaffold.Registry
