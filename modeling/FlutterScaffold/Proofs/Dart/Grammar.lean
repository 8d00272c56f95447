import FlutterScaffold.Proofs.Dart.Reading

/-!
# The grammar of bracketed source

What stands between a bracket and its closer is balanced (`Balanced`): it is a sequence of comments,
string literals, brackets with their own balanced contents and closers, and other bytes. Comments
nest, and the interpolations of a literal hold balanced source again, so the three kinds of phrases
are derived together. A derivation also tells what each byte belongs to.
-/

namespace FlutterScaffold.Dart

open Byte (newline slash backslash)

/-- The kinds of phrases. -/
inductive Phrase where
  /-- What a bracket holds from some place on; an `r` there is no mark of a literal behind a
  name. -/
  | contents (afterName : Bool)
  /-- A block comment without its opening mark. -/
  | block
  /-- A literal without what opens it. -/
  | literal (quote : Byte) (triple raw : Bool)
  deriving DecidableEq, Repr

/-- The quotes at the end of a literal. -/
def quotes (q : Byte) (triple : Bool) : Text := if triple then [q, q, q] else [q]

/-- What opens a literal. -/
def literalMark (q : Byte) (triple raw : Bool) : Text :=
  if raw then byte 'r' :: quotes q triple else quotes q triple

/-- Whether a comment starts a text. -/
def StartsComment (t : Text) : Prop := [slash, slash] <+: t ∨ [slash, byte '*'] <+: t

/-- Whether a literal starts a text, which may stand behind a name. -/
def StartsLiteral (afterName : Bool) (t : Text) : Prop :=
  ∃ q, isQuote q = true ∧ ([q] <+: t ∨ afterName = false ∧ [byte 'r', q] <+: t)

/-- How a text is derived as a phrase, and what its bytes belong to. -/
inductive Derives : Phrase → Text → List Region → Prop where
  | nil (a : Bool) : Derives (.contents a) [] []
  /-- A comment up to the end of its line. -/
  | lineComment {a : Bool} {v w : Text} {l : List Region} :
      newline ∉ v → Derives (.contents false) w l →
        Derives (.contents a) (slash :: slash :: (v ++ newline :: w))
          (List.replicate (v.length + 3) .comment ++ l)
  | blockComment {a : Bool} {v w : Text} {k l : List Region} :
      Derives .block v k → Derives (.contents false) w l →
        Derives (.contents a) (slash :: byte '*' :: (v ++ w)) (.comment :: .comment :: (k ++ l))
  /-- Quotes that could be tripled are. -/
  | literal {a : Bool} {q : Byte} {triple raw : Bool} {v w : Text} {k l : List Region} :
      isQuote q = true → (raw = true → a = false) → (triple = false → ¬ [q, q] <+: v ++ w) →
        Derives (.literal q triple raw) v k → Derives (.contents false) w l →
        Derives (.contents a) (literalMark q triple raw ++ (v ++ w))
          (List.replicate (literalMark q triple raw).length .string ++ (k ++ l))
  | group {a : Bool} {b c : Byte} {v w : Text} {k l : List Region} :
      closerOf? b = some c → Derives (.contents false) v k → Derives (.contents false) w l →
        Derives (.contents a) (b :: (v ++ c :: w)) (.code :: (k ++ .code :: l))
  | plain {a : Bool} {b : Byte} {w : Text} {l : List Region} :
      ¬ StartsComment (b :: w) → ¬ StartsLiteral a (b :: w) → closerOf? b = none →
        isCloser b = false → Derives (.contents (Byte.isIdentifier b)) w l →
        Derives (.contents a) (b :: w) (.code :: l)
  | endBlock : Derives .block [byte '*', slash] [.comment, .comment]
  | nest {v w : Text} {k l : List Region} : Derives .block v k → Derives .block w l →
      Derives .block (slash :: byte '*' :: (v ++ w)) (.comment :: .comment :: (k ++ l))
  | inBlock {b : Byte} {w : Text} {l : List Region} :
      ¬ [slash, byte '*'] <+: b :: w → ¬ [byte '*', slash] <+: b :: w → Derives .block w l →
        Derives .block (b :: w) (.comment :: l)
  | endLiteral (q : Byte) (triple raw : Bool) : Derives (.literal q triple raw) (quotes q triple)
      (List.replicate (quotes q triple).length .string)
  | escape {q b : Byte} {triple : Bool} {w : Text} {l : List Region} :
      Derives (.literal q triple false) w l →
        Derives (.literal q triple false) (backslash :: b :: w) (.string :: .string :: l)
  | interpolation {q : Byte} {triple : Bool} {v w : Text} {k l : List Region} :
      Derives (.contents false) v k → Derives (.literal q triple false) w l →
        Derives (.literal q triple false) (byte '$' :: byte '{' :: (v ++ byte '}' :: w))
          (List.replicate (v.length + 3) .string ++ l)
  | inLiteral {q b : Byte} {triple raw : Bool} {w : Text} {l : List Region} :
      (raw = false → b ≠ backslash ∧ ¬ [byte '$', byte '{'] <+: b :: w) →
        (triple = false → b ≠ newline) → ¬ quotes q triple <+: b :: w →
        Derives (.literal q triple raw) w l → Derives (.literal q triple raw) (b :: w)
          (.string :: l)

/-- Source that a bracket can hold: every comment, literal and bracket in it is closed in it. -/
def Balanced (t : Text) : Prop := ∃ l, Derives (.contents false) t l

namespace Derives

variable {p : Phrase} {a : Bool} {w : Text} {l : List Region}

/-- The bytes of a comment or literal belong to it, whatever else it holds. -/
theorem regions_eq (h : Derives p w l) :
    match p with
    | .contents _ => l.length = w.length
    | .block => l = List.replicate w.length .comment
    | .literal .. => l = List.replicate w.length .string := by
  induction h with
  | nil => rfl
  | lineComment _ _ ih => simp_all; omega
  | blockComment _ _ ihv ihw => simp_all
  | literal _ _ _ _ _ ihv ihw => simp_all
  | group _ _ _ ihv ihw => simp_all
  | plain _ _ _ _ _ ih => simp_all
  | endBlock => rfl
  | nest _ _ ihv ihw => simp_all [List.replicate_succ]
  | inBlock _ _ _ ih => simp_all [List.replicate_succ]
  | endLiteral => rfl
  | escape _ ih => simp_all [List.replicate_succ]
  | interpolation _ _ _ ih => simp_all; omega
  | inLiteral _ _ _ _ ih => simp_all [List.replicate_succ]

theorem length_eq (h : Derives p w l) : l.length = w.length := by
  have heq := h.regions_eq
  cases p with
  | contents => exact heq
  | block => rw [heq, List.length_replicate]
  | literal => rw [heq, List.length_replicate]

/-- A block comment ends in its closing mark, and a literal in its quotes. -/
theorem mark_suffix (h : Derives p w l) :
    match p with
    | .contents _ => True
    | .block => [byte '*', slash] <:+ w
    | .literal q triple _ => quotes q triple <:+ w := by
  induction h with
  | nil | lineComment | blockComment | literal | group | plain => trivial
  | endBlock | endLiteral => exact List.suffix_refl _
  | nest _ _ _ ih => exact (ih.trans (List.suffix_append _ _)).trans (List.suffix_append [_, _] _)
  | inBlock _ _ _ ih => exact ih.trans (List.suffix_cons _ _)
  | escape _ ih => exact ih.trans (List.suffix_append [_, _] _)
  | interpolation _ _ _ ih =>
    exact ih.trans (((List.suffix_cons _ _).trans (List.suffix_append _ _)).trans
      (List.suffix_append [_, _] _))
  | inLiteral _ _ _ _ ih => exact ih.trans (List.suffix_cons _ _)

end Derives

end FlutterScaffold.Dart
