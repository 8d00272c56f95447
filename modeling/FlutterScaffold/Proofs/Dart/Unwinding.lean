import FlutterScaffold.Proofs.Dart.Grammar
import FlutterScaffold.Proofs.Dart.Stretch

/-!
# What a reader goes over until it comes to rest

Every open construct is closed by a text of its own kind before a reader comes to rest, the
innermost one first (`Unwinds`). Each step leads from one construct to the text that closes it
(`Unwinds.of_read`), so by induction on the text that is read, the open constructs are closed by
what is derived for them (`Reader.goesOver_of_lengthToRest`).
-/

namespace FlutterScaffold.Dart

open Byte (newline slash backslash)

/-! ## What opens a construct -/

section Opening

variable {a : Bool} {b : Byte} {rest : Text} {frame : Frame} {n : Nat}

/-- A literal opens with three quotes where there are three, else with one. -/
private theorem stringFrame_cases {q : Byte} {raw : Bool}
    (h : stringFrame raw q rest = (frame, n)) :
    ∃ triple y, (triple = false → ¬ [q, q] <+: y) ∧ frame = .string q triple raw ∧
      q :: rest = quotes q triple ++ y ∧ (quotes q triple).length = n + 1 := by
  rw [stringFrame] at h
  split_ifs at h with hquotes
  · obtain ⟨rfl, rfl⟩ := Prod.mk.inj h
    obtain ⟨y, rfl⟩ := List.isPrefixOf_iff_prefix.mp hquotes
    exact ⟨true, y, by simp, rfl, rfl, rfl⟩
  · obtain ⟨rfl, rfl⟩ := Prod.mk.inj h
    exact ⟨false, rest, fun _ h => hquotes (List.isPrefixOf_iff_prefix.mpr h), rfl, rfl, rfl⟩

/-- What opens in code, its opening mark and what is behind it. -/
theorem opening?_cases (h : opening? a b rest = some (frame, n)) :
    (b = slash ∧ rest.head? = some slash ∧ frame = .lineComment ∧ n = 1) ∨
      (b = slash ∧ rest.head? = some (byte '*') ∧ frame = .blockComment ∧ n = 1) ∨
      ∃ q triple raw y, isQuote q = true ∧ (raw = true → a = false) ∧
        (triple = false → ¬ [q, q] <+: y) ∧ frame = .string q triple raw ∧
        b :: rest = literalMark q triple raw ++ y ∧ (literalMark q triple raw).length = n + 1 := by
  rcases opening?_eq_some h with ⟨rfl, h⟩ | ⟨hq, h⟩ | ⟨rfl, ha, h⟩
  · obtain ⟨rfl, ⟨hslash, rfl⟩ | ⟨hstar, rfl⟩⟩ := comment?_eq_some h
    · exact Or.inl ⟨rfl, hslash, rfl, rfl⟩
    · exact Or.inr (Or.inl ⟨rfl, hstar, rfl, rfl⟩)
  · obtain ⟨triple, y, hgreedy, rfl, hcut, hlen⟩ := stringFrame_cases h
    exact Or.inr (Or.inr ⟨b, triple, false, y, hq, by simp, hgreedy, rfl, hcut, hlen⟩)
  · obtain ⟨q, more, m, rfl, hq, hframe, rfl⟩ := rawString?_eq_some h
    obtain ⟨triple, y, hgreedy, rfl, hcut, hlen⟩ := stringFrame_cases hframe
    refine Or.inr (Or.inr ⟨q, triple, true, y, hq, fun _ => ha, hgreedy, rfl, ?_, ?_⟩)
    · rw [hcut]
      rfl
    · rw [← hlen]
      rfl

/-- Where nothing opens, neither a comment nor a literal starts. -/
theorem opening?_eq_none_iff : opening? a b rest = none ↔
    ¬ StartsComment (b :: rest) ∧ ¬ StartsLiteral a (b :: rest) := by
  have hhead (x y : Byte) : [x, y] <+: b :: rest ↔ x = b ∧ rest.head? = some y := by
    cases rest <;> simp [List.cons_prefix_cons, eq_comm]
  have hcomment : StartsComment (b :: rest) ↔
      b = slash ∧ (rest.head? = some slash ∨ rest.head? = some (byte '*')) := by
    rw [StartsComment, hhead, hhead, ← and_or_left, eq_comm]
  have hliteral : StartsLiteral a (b :: rest) ↔
      isQuote b = true ∨ b = byte 'r' ∧ a = false ∧ ∃ q ∈ rest.head?, isQuote q = true := by
    simp only [StartsLiteral, hhead, List.cons_prefix_cons, List.nil_prefix, and_true]
    constructor
    · rintro ⟨q, hq, rfl | ⟨ha, rfl, hrest⟩⟩
      · exact Or.inl hq
      · exact Or.inr ⟨rfl, ha, q, hrest, hq⟩
    · rintro (hq | ⟨rfl, ha, q, hrest, hq⟩)
      · exact ⟨b, hq, Or.inl rfl⟩
      · exact ⟨q, hq, Or.inr ⟨ha, rfl, hrest⟩⟩
  rw [opening?_eq, hcomment, hliteral]
  by_cases hslash : b = slash
  · have hquote : isQuote slash = false := by decide
    have hraw : slash ≠ byte 'r' := by decide
    simp only [hslash, hquote, hraw, comment?]
    split_ifs <;> simp_all
  · by_cases hquote : isQuote b = true
    · simp [hslash, hquote]
    · cases rest with
      | nil => simp [hslash, hquote, rawString?]
      | cons q more => by_cases hq : isQuote q = true <;> simp [hslash, hquote, rawString?, hq]

end Opening

/-! ## Closing constructs -/

/-- The texts that close a construct. -/
def Closes : Frame → Bool → Text → Prop
  | .bracket c, afterName, t => ∃ w l, t = w ++ [c] ∧ Derives (.contents afterName) w l
  | .lineComment, _, t => ∃ w, t = w ++ [newline] ∧ newline ∉ w
  | .blockComment, _, t => ∃ l, Derives .block t l
  | .string q triple raw, _, t => ∃ l, Derives (.literal q triple raw) t l

/-- The texts that close a stack of constructs, the innermost one first. -/
def Unwinds : List Frame → Bool → Text → Prop
  | [], _, t => t = []
  | frame :: fs, afterName, t => ∃ v w, t = v ++ w ∧ Closes frame afterName v ∧ Unwinds fs false w

section Unwinds

open Reader (readBlock readString readBracketed readBracketed_eq_some enter leave)

variable {a : Bool} {b c q : Byte} {d t v w y : Text} {fs : List Frame} {triple raw : Bool}
  {s r : Reader}

/-- A bracket is closed by contents and the bracket that matches it. -/
theorem unwinds_bracket : Unwinds (.bracket c :: fs) a t ↔
    ∃ v l w, t = v ++ c :: w ∧ Derives (.contents a) v l ∧ Unwinds fs false w := by
  constructor
  · rintro ⟨u, w, rfl, ⟨v, l, rfl, hv⟩, hw⟩
    exact ⟨v, l, w, by rw [List.append_assoc, List.singleton_append], hv, hw⟩
  · rintro ⟨v, l, w, rfl, hv, hw⟩
    exact ⟨v ++ [c], w, by rw [List.append_assoc, List.singleton_append], ⟨v, l, rfl, hv⟩, hw⟩

/-- A line comment is closed by the next newline. -/
theorem unwinds_lineComment : Unwinds (.lineComment :: fs) a t ↔
    ∃ v w, t = v ++ newline :: w ∧ newline ∉ v ∧ Unwinds fs false w := by
  constructor
  · rintro ⟨u, w, rfl, ⟨v, rfl, hv⟩, hw⟩
    exact ⟨v, w, by rw [List.append_assoc, List.singleton_append], hv, hw⟩
  · rintro ⟨v, w, rfl, hv, hw⟩
    exact ⟨v ++ [newline], w, by rw [List.append_assoc, List.singleton_append], ⟨v, rfl, hv⟩, hw⟩

/-- A construct that a derivation closes is closed by what the derivation reads. -/
private theorem unwinds_of_closes {frame : Frame} {P : Text → List Region → Prop}
    (h : ∀ v, Closes frame a v ↔ ∃ l, P v l) :
    Unwinds (frame :: fs) a t ↔ ∃ v l w, t = v ++ w ∧ P v l ∧ Unwinds fs false w := by
  constructor
  · rintro ⟨v, w, rfl, hv, hw⟩
    obtain ⟨l, hv⟩ := (h v).mp hv
    exact ⟨v, l, w, rfl, hv, hw⟩
  · rintro ⟨v, l, w, rfl, hv, hw⟩
    exact ⟨v, w, rfl, (h v).mpr ⟨l, hv⟩, hw⟩

/-- A block comment is closed by the rest of the comment. -/
theorem unwinds_blockComment : Unwinds (.blockComment :: fs) a t ↔
    ∃ v l w, t = v ++ w ∧ Derives .block v l ∧ Unwinds fs false w :=
  unwinds_of_closes fun _ => Iff.rfl

/-- A literal is closed by the rest of the literal. -/
theorem unwinds_string : Unwinds (.string q triple raw :: fs) a t ↔
    ∃ v l w, t = v ++ w ∧ Derives (.literal q triple raw) v l ∧ Unwinds fs false w :=
  unwinds_of_closes fun _ => Iff.rfl

private theorem not_isIdentifier_of_isCloser : ∀ b, isCloser b → Byte.isIdentifier b = false := by
  decide +kernel

private theorem not_isIdentifier_of_isDelimiter :
    ∀ b, isDelimiter b → Byte.isIdentifier b = false := by
  decide +kernel

/-- Whether a reader behind a byte goes over `d`, what is left of a delimiter, and then over a text
that closes what it has open. -/
def Reader.GoesOver (s : Reader) (d t : Text) : Prop :=
  d.length = s.pending ∧ Unwinds s.frames (if d = [] then s.afterName else false) t

/-- A reader with nothing pending is behind its delimiter. -/
theorem Reader.GoesOver.of_pending_eq_zero (h : s.GoesOver d t) (hs : s.pending = 0) :
    d = [] ∧ Unwinds s.frames s.afterName t := by
  obtain ⟨hd, ht⟩ := h
  obtain rfl : d = [] := List.eq_nil_of_length_eq_zero (hd.trans hs)
  exact ⟨rfl, ht⟩

/-- A reader with one byte pending has that byte left of its delimiter. -/
theorem Reader.GoesOver.of_pending_eq_one (h : s.GoesOver d t) (hs : s.pending = 1) :
    ∃ x, d = [x] ∧ Unwinds s.frames false t := by
  obtain ⟨hd, ht⟩ := h
  obtain ⟨x, rfl⟩ := List.length_eq_one_iff.mp (hd.trans hs)
  exact ⟨x, rfl, ht⟩

/-- A step in a block comment leads to what closes it. What closes the two comments is cut twice:
the inner one ends first. -/
theorem unwinds_readBlock (hf : s.frames = .blockComment :: fs) (hp : s.pending = 0)
    (h : (s.readBlock b (d ++ (t ++ y))).GoesOver d t) :
    Unwinds (.blockComment :: fs) a (b :: (d ++ t)) := by
  rw [unwinds_blockComment]
  rw [readBlock] at h
  split at h
  · rename_i hb
    simp only [Bool.and_eq_true, decide_eq_true_eq] at hb
    obtain ⟨rfl, hrest⟩ := hb
    obtain ⟨x, rfl, ht⟩ := h.of_pending_eq_one rfl
    obtain rfl : x = byte '*' := Option.some.inj hrest
    rw [enter, hf] at ht
    obtain ⟨v, k, u, rfl, hv, hu⟩ := unwinds_blockComment.mp ht
    obtain ⟨w, l, z, rfl, hw, hz⟩ := unwinds_blockComment.mp hu
    exact ⟨_, _, z, by simp, hv.nest hw, hz⟩
  · rename_i hnest
    split at h
    · rename_i hb
      simp only [Bool.and_eq_true, decide_eq_true_eq] at hb
      obtain ⟨rfl, hrest⟩ := hb
      obtain ⟨x, rfl, ht⟩ := h.of_pending_eq_one rfl
      obtain rfl : x = slash := Option.some.inj hrest
      rw [leave, hf] at ht
      exact ⟨_, _, t, rfl, .endBlock, ht⟩
    · rename_i hend
      obtain ⟨rfl, ht⟩ := h.of_pending_eq_zero hp
      rw [hf] at ht
      obtain ⟨v, l, z, rfl, hv, hz⟩ := unwinds_blockComment.mp ht
      have hpair {x x' : Byte} (hne : ¬ (b = x ∧ (v ++ z ++ y).head? = some x')) :
          ¬ [x, x'] <+: b :: v := by
        rintro ⟨u, hu⟩
        obtain ⟨rfl, rfl⟩ := List.cons.inj hu
        exact hne ⟨rfl, rfl⟩
      refine ⟨b :: v, _, z, rfl, .inBlock (hpair ?_) (hpair ?_) hv, hz⟩
      · simpa using hnest
      · simpa using hend

/-- A byte that does not escape the next one, open an interpolation or end the literal is one of the
literal. -/
private theorem unwinds_inLiteral (hf : s.frames = .string q triple raw :: fs) (hp : s.pending = 0)
    (hr : s.GoesOver d t) (hescape : ¬ (!raw && decide (b = backslash)) = true)
    (hline : ¬ (!triple && decide (b = newline)) = true)
    (hdollar : ¬ (!raw && decide (b = byte '$') &&
      decide ((d ++ (t ++ y)).head? = some (byte '{'))) = true)
    (hend : ¬ quotes q triple <+: b :: (d ++ (t ++ y))) :
    Unwinds (.string q triple raw :: fs) a (b :: (d ++ t)) := by
  obtain ⟨rfl, ht⟩ := hr.of_pending_eq_zero hp
  rw [hf] at ht
  obtain ⟨v, l, z, rfl, hv, hz⟩ := unwinds_string.mp ht
  refine unwinds_string.mpr ⟨b :: v, _, z, rfl, .inLiteral ?_ ?_ (fun hq => hend (hq.trans ?_)) hv,
    hz⟩
  · rintro rfl
    refine ⟨by simpa using hescape, ?_⟩
    rintro ⟨u, hu⟩
    obtain ⟨rfl, rfl⟩ := List.cons.inj hu
    simp at hdollar
  · rintro rfl
    simpa using hline
  · simp

/-- A step in a literal leads to what closes it. A single quote in a literal of three, and any other
byte, are read as bytes of the literal. -/
theorem unwinds_readString (hf : s.frames = .string q triple raw :: fs) (hp : s.pending = 0)
    (hname : b = q → s.afterName = false)
    (h : s.readString q triple raw b (d ++ (t ++ y)) = some r) (hr : r.GoesOver d t) :
    Unwinds (.string q triple raw :: fs) a (b :: (d ++ t)) := by
  rw [readString] at h
  split_ifs at h with hescape hline hdollar hquote hsingle hend <;> obtain rfl := Option.some.inj h
  · simp only [Bool.and_eq_true, Bool.not_eq_true', decide_eq_true_eq] at hescape
    obtain ⟨rfl, rfl⟩ := hescape
    obtain ⟨x, rfl, ht⟩ := hr.of_pending_eq_one rfl
    rw [hf] at ht
    obtain ⟨v, l, z, rfl, hv, hz⟩ := unwinds_string.mp ht
    exact unwinds_string.mpr ⟨_, _, z, rfl, hv.escape, hz⟩
  · simp only [Bool.and_eq_true, Bool.not_eq_true', decide_eq_true_eq] at hdollar
    obtain ⟨⟨rfl, rfl⟩, hbrace⟩ := hdollar
    obtain ⟨x, rfl, ht⟩ := hr.of_pending_eq_one rfl
    obtain rfl : x = byte '{' := Option.some.inj hbrace
    rw [enter, hf] at ht
    obtain ⟨v, k, u, rfl, hv, hu⟩ := unwinds_bracket.mp ht
    obtain ⟨w, l, z, rfl, hw, hz⟩ := unwinds_string.mp hu
    exact unwinds_string.mpr ⟨_, _, z, by simp, hv.interpolation hw, hz⟩
  · obtain rfl : triple = false := by simpa using hsingle
    subst hquote
    obtain ⟨rfl, ht⟩ := hr.of_pending_eq_zero rfl
    rw [leave, hf, List.tail_cons, hname rfl] at ht
    exact unwinds_string.mpr ⟨[b], _, t, rfl, .endLiteral b false raw, ht⟩
  · obtain rfl : triple = true := by simpa using hsingle
    subst hquote
    obtain ⟨hd, ht⟩ := hr
    obtain ⟨x, x', rfl⟩ := List.length_eq_two.mp hd
    obtain ⟨u, hu⟩ := List.isPrefixOf_iff_prefix.mp hend
    simp only [List.cons_append, List.nil_append, List.cons.injEq] at hu
    obtain ⟨rfl, rfl, -⟩ := hu
    rw [leave, hf] at ht
    exact unwinds_string.mpr ⟨[b, b, b], _, t, rfl, .endLiteral b true raw, ht⟩
  · obtain rfl : triple = true := by simpa using hsingle
    subst hquote
    refine unwinds_inLiteral hf hp hr hescape hline hdollar fun hq => hend ?_
    exact List.isPrefixOf_iff_prefix.mpr ((List.prefix_cons_inj b).mp hq)
  · refine unwinds_inLiteral hf hp hr hescape hline hdollar fun hq => hquote ?_
    obtain ⟨u, hu⟩ := hq
    cases triple <;> exact (List.cons.inj hu).1.symm

/-- What opens in a bracket is closed first, and then the bracket is. -/
private theorem unwinds_enter {frame : Frame} {n : Nat} {named : Bool}
    (ho : opening? a b (d ++ (t ++ y)) = some (frame, n)) (hd : d.length = n)
    (ht : Unwinds (frame :: .bracket c :: fs) named t) :
    Unwinds (.bracket c :: fs) a (b :: (d ++ t)) := by
  rw [unwinds_bracket]
  rcases opening?_cases ho with ⟨rfl, hrest, rfl, rfl⟩ | ⟨rfl, hrest, rfl, rfl⟩ |
    ⟨q, triple, raw, z, hq, hraw, hgreedy, rfl, hcut, hlen⟩
  · obtain ⟨x, rfl⟩ := List.length_eq_one_iff.mp hd
    obtain rfl : x = slash := Option.some.inj hrest
    obtain ⟨v, u, rfl, hv, hu⟩ := unwinds_lineComment.mp ht
    obtain ⟨w, l, z, rfl, hw, hz⟩ := unwinds_bracket.mp hu
    exact ⟨_, _, z, by simp, .lineComment hv hw, hz⟩
  · obtain ⟨x, rfl⟩ := List.length_eq_one_iff.mp hd
    obtain rfl : x = byte '*' := Option.some.inj hrest
    obtain ⟨v, k, u, rfl, hv, hu⟩ := unwinds_blockComment.mp ht
    obtain ⟨w, l, z, rfl, hw, hz⟩ := unwinds_bracket.mp hu
    exact ⟨_, _, z, by simp, .blockComment hv hw, hz⟩
  · obtain ⟨hmark, rfl⟩ : b :: d = literalMark q triple raw ∧ t ++ y = z :=
      List.append_inj (by simpa using hcut) (by rw [hlen, List.length_cons, hd])
    obtain ⟨v, k, u, rfl, hv, hu⟩ := unwinds_string.mp ht
    obtain ⟨w, l, z, rfl, hw, hz⟩ := unwinds_bracket.mp hu
    refine ⟨literalMark q triple raw ++ (v ++ w), _, z, ?_,
      .literal hq hraw (fun htriple hqq => hgreedy htriple (hqq.trans ?_)) hv hw, hz⟩
    · rw [← hmark]
      simp
    · simp

/-- A byte of code at which nothing opens is a bracket or stands for itself. -/
private theorem unwinds_readBracketed (hf : s.frames = .bracket c :: fs) (hp : s.pending = 0)
    (hname : s.afterName = Byte.isIdentifier b) (ho : opening? a b (d ++ (t ++ y)) = none)
    (h : s.readBracketed c b = some r) (hr : r.GoesOver d t) :
    Unwinds (.bracket c :: fs) a (b :: (d ++ t)) := by
  rw [unwinds_bracket]
  rcases readBracketed_eq_some h with ⟨inner, hinner, rfl⟩ | ⟨-, hcloser, rfl, rfl⟩ |
    ⟨hinner, hcloser, rfl⟩
  · obtain ⟨rfl, ht⟩ := hr.of_pending_eq_zero rfl
    rw [enter, hf, hname, not_isIdentifier_of_closerOf? hinner] at ht
    obtain ⟨v, k, u, rfl, hv, hu⟩ := unwinds_bracket.mp ht
    obtain ⟨w, l, z, rfl, hw, hz⟩ := unwinds_bracket.mp hu
    exact ⟨_, _, z, by simp, .group hinner hv hw, hz⟩
  · obtain ⟨rfl, ht⟩ := hr.of_pending_eq_zero rfl
    rw [leave, hf, List.tail_cons, hname, not_isIdentifier_of_isCloser b hcloser] at ht
    exact ⟨[], _, t, rfl, .nil a, ht⟩
  · obtain ⟨hcomment, hliteral⟩ := opening?_eq_none_iff.mp ho
    obtain ⟨rfl, ht⟩ := hr.of_pending_eq_zero hp
    rw [hf, hname] at ht
    obtain ⟨w, l, z, rfl, hw, hz⟩ := unwinds_bracket.mp ht
    have hsub : b :: w <+: b :: ([] ++ (w ++ c :: z ++ y)) := by simp
    refine ⟨b :: w, _, z, rfl, .plain (fun h => hcomment ?_)
      (fun h => hliteral ?_) hinner hcloser hw,
      hz⟩
    · exact h.imp (·.trans hsub) (·.trans hsub)
    · obtain ⟨q, hq, h⟩ := h
      exact ⟨q, hq, h.imp (·.trans hsub) (And.imp_right (·.trans hsub))⟩

/-- A step in a bracket leads to what closes it. -/
theorem unwinds_readCode (hf : s.frames = .bracket c :: fs) (hp : s.pending = 0)
    (h : s.read b (d ++ (t ++ y)) = some r) (hr : r.GoesOver d t) :
    Unwinds (.bracket c :: fs) s.afterName (b :: (d ++ t)) := by
  obtain ⟨frames, pending, a, region⟩ := s
  simp only at hf hp
  subst hf hp
  simp only [Reader.read] at h
  cases ho : opening? a b (d ++ (t ++ y)) with
  | some opened =>
    rw [ho] at h
    obtain rfl := Option.some.inj h
    exact unwinds_enter ho hr.1 hr.2
  | none =>
    rw [ho] at h
    exact unwinds_readBracketed rfl rfl rfl ho h hr

/-- A step leads from what is open to what closes it. The byte behind a quote is not read as one
behind a name. -/
theorem unwinds_read (hs : s.Coherent (b :: (d ++ (t ++ y)))) (hf : s.frames ≠ [])
    (hp : s.pending = 0) (h : s.read b (d ++ (t ++ y)) = some r) (hr : r.GoesOver d t) :
    Unwinds s.frames s.afterName (b :: (d ++ t)) := by
  obtain ⟨frame, fs, hf⟩ := List.exists_cons_of_ne_nil hf
  obtain ⟨frames, pending, a, region⟩ := s
  simp only at hf hp
  subst hf hp
  cases frame with
  | bracket c => exact unwinds_readCode rfl rfl h hr
  | lineComment =>
    simp only [Reader.read, Option.some.injEq] at h
    rw [unwinds_lineComment]
    split at h
    · rename_i hb
      subst hb h
      obtain ⟨rfl, ht⟩ := hr.of_pending_eq_zero rfl
      exact ⟨[], t, rfl, List.not_mem_nil, ht⟩
    · rename_i hb
      subst h
      obtain ⟨rfl, ht⟩ := hr.of_pending_eq_zero rfl
      obtain ⟨v, w, rfl, hv, hw⟩ := unwinds_lineComment.mp ht
      exact ⟨b :: v, w, rfl, List.not_mem_cons_of_ne_of_not_mem (Ne.symm hb) hv, hw⟩
  | blockComment =>
    obtain rfl := Option.some.inj h
    exact unwinds_readBlock (s := ⟨.blockComment :: fs, 0, Byte.isIdentifier b, region⟩) rfl rfl hr
  | string q triple raw =>
    have hq : isQuote q = true := hs.isQuote_of_mem (List.mem_cons_self ..)
    refine unwinds_readString (s := ⟨.string q triple raw :: fs, 0, Byte.isIdentifier b, region⟩)
      rfl rfl (fun hb => ?_) h hr
    exact not_isIdentifier_of_isDelimiter b (by simp [isDelimiter, hb, hq])

/-- Until a reader comes to rest it goes over a text that closes what it has open. -/
theorem Reader.goesOver_of_lengthToRest {n : Nat} (hs : s.Coherent t) (hbusy : s.atRest = false)
    (h : s.lengthToRest t = some n) :
    ∃ d w y, t = d ++ (w ++ y) ∧ n = d.length + w.length ∧ s.GoesOver d w := by
  induction t generalizing s n with
  | nil => simp [lengthToRest] at h
  | cons b t ih =>
    rw [lengthToRest_cons] at h
    obtain ⟨r, hread, h⟩ := Option.bind_eq_some_iff.mp h
    have hnext : ∃ d w y, t = d ++ (w ++ y) ∧ n = d.length + w.length + 1 ∧ r.GoesOver d w := by
      cases hrest : r.atRest with
      | true =>
        rw [hrest] at h
        obtain rfl := Option.some.inj h
        obtain ⟨hf, hp⟩ := atRest_iff.mp hrest
        exact ⟨[], [], t, rfl, rfl, hp.symm, by rw [hf]; rfl⟩
      | false =>
        rw [hrest] at h
        obtain ⟨m, hm, rfl⟩ := Option.map_eq_some_iff.mp h
        obtain ⟨d, w, y, rfl, rfl, hr⟩ := ih (hs.read hread) hrest hm
        exact ⟨d, w, y, rfl, rfl, hr⟩
    obtain ⟨d, w, y, rfl, rfl, hr⟩ := hnext
    cases hp : s.pending with
    | zero =>
      have hf : s.frames ≠ [] := fun hf => by simp [atRest, hf, hp] at hbusy
      refine ⟨[], b :: (d ++ w), y, by simp, ?_, hp.symm, ?_⟩
      · simp [Nat.add_assoc]
      · exact unwinds_read hs hf hp hread hr
    | succ n =>
      obtain ⟨frames, pending, a, region⟩ := s
      obtain rfl : pending = n + 1 := hp
      obtain rfl := Option.some.inj hread
      obtain ⟨hd, hw⟩ := hr
      refine ⟨b :: d, w, y, rfl, by rw [List.length_cons]; omega, congrArg (· + 1) hd, ?_⟩
      rw [if_neg (by simp)]
      rcases hs.isDelimiter_of_mem with ⟨q, triple, fs, hf⟩ | hdelim
      · simp only at hf
        subst hf
        exact unwinds_string.mpr (unwinds_string.mp hw)
      · have hb := not_isIdentifier_of_isDelimiter b (hdelim b (by simp))
        simpa [hb] using hw

/-- A reader comes to rest behind the closer of the contents of its bracket. -/
theorem Reader.derives_of_lengthToRest {n : Nat} (h : (Reader.inside c).lengthToRest t = some n) :
    ∃ v l w, t = v ++ c :: w ∧ n = v.length + 1 ∧ Derives (.contents false) v l := by
  obtain ⟨d, u, y, rfl, rfl, hd, hu⟩ := goesOver_of_lengthToRest (coherent_inside c t) rfl h
  obtain rfl : d = [] := List.eq_nil_of_length_eq_zero hd
  obtain ⟨v, l, w, rfl, hv, rfl⟩ := unwinds_bracket.mp hu
  exact ⟨v, l, y, by simp, by simp, hv⟩

end Unwinds

end FlutterScaffold.Dart
