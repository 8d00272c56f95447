import Mathlib.Data.List.DropRight
import FlutterScaffold.Proofs.Registry.Presence
import FlutterScaffold.Proofs.Text.Splices
import FlutterScaffold.Registry.Pattern

/-!
# Constants of a text that is put together

A line declares a constant when it starts with the keywords of one. Text behind such a line changes
nothing as long as it goes on with no identifier (`Local`), so a document can be cut in front of
such text, and behind a semicolon, without a change to the constants on its lines. Blocks of lines
written at such seams add what their lines declare, one by one and all in one splice
(`perm_constantsIn_splice`).
-/

namespace FlutterScaffold.Registry

open FlutterScaffold.Text (bareLines block firstLine lastLine splice IsLineBreak trim)
open Byte (newline isBlank isIdentifier isMargin isSpace)

/-- The constant that a line declares, when a string constant stands at its start. -/
def declaredConstant? (line : Text) : Option Text := do
  let t ← keyword? "static" (skipSpace line)
  let t ← keyword? "const" t
  let t ← keyword? "String" t
  let word := t.takeWhile isIdentifier
  if word.isEmpty then none else some word

/-- The constants that the lines of a document declare. -/
def constantsIn (doc : Text) : List Text := (Text.lines doc).filterMap declaredConstant?

@[simp] theorem constantsIn_nil : constantsIn [] = [] := rfl

/-! ## Lines that go on -/

/-- Text that no declaration goes on with: behind its spaces comes no identifier. -/
def Idle (t : Text) : Prop := ∀ b ∈ (skipSpace t).head?, isIdentifier b = false

/-- A question about the start of a line that idle text behind the line does not change. -/
structure Local (q : Text → Option Text) : Prop where
  nil : q [] = none
  append : ∀ t r, Idle r → q (t ++ r) = q t

/-- Spaces that are skipped need not be skipped again. -/
theorem skipSpace_skipSpace (t : Text) : skipSpace (skipSpace t) = skipSpace t :=
  List.dropWhile_idempotent _ _

/-- Idle text stays idle without the spaces in front. -/
theorem Idle.skipSpace {t : Text} (h : Idle t) : Idle (skipSpace t) := by
  rwa [Idle, skipSpace_skipSpace]

/-- Idle text starts with no identifier. -/
theorem Idle.head? {t : Text} (h : Idle t) : ∀ b ∈ t.head?, isIdentifier b = false := by
  intro b hb
  rw [List.eq_cons_of_mem_head? hb] at h
  by_cases hspace : isSpace b
  · exact Byte.not_isIdentifier_of_isSpace b hspace
  · exact h b (by simp [Registry.skipSpace, hspace])

/-- A byte that is neither a space nor part of an identifier makes idle text. -/
theorem idle_cons {b : Byte} (hspace : isSpace b = false) (hb : isIdentifier b = false) (t : Text) :
    Idle (b :: t) := by
  simp [Idle, skipSpace, hspace, hb]

/-- Spaces are idle. -/
theorem idle_of_isSpace {t : Text} (h : ∀ b ∈ t, isSpace b) : Idle t := by
  rw [Idle, skipSpace, List.dropWhile_eq_nil_iff.mpr h]
  simp

/-- Spaces in front of a text do not make it less idle. -/
theorem Idle.append_left {s t : Text} (hs : ∀ b ∈ s, isSpace b) (h : Idle t) : Idle (s ++ t) := by
  rwa [Idle, Registry.skipSpace, List.dropWhile_append_of_pos hs]

/-- Skipping the spaces of two texts stays in the first, unless that is all spaces. -/
theorem skipSpace_append_cases (t r : Text) :
    (skipSpace t = [] ∧ skipSpace (t ++ r) = skipSpace r) ∨
      skipSpace (t ++ r) = skipSpace t ++ r := by
  rw [skipSpace, skipSpace, List.dropWhile_append]
  split
  · rename_i hall
    exact Or.inl ⟨List.isEmpty_iff.mp hall, rfl⟩
  · exact Or.inr rfl

/-- A word that does not start a text does not end in the idle text behind it either: that goes on
with no identifier. -/
theorem after?_append_of_idle {word t r : Text} (hword : ∀ b ∈ word, isIdentifier b) (hr : Idle r)
    (h : Text.after? word t = none) : Text.after? word (t ++ r) = none := by
  rw [Option.eq_none_iff_forall_ne_some]
  intro u hu
  rcases List.append_eq_append_iff.mp (Text.after?_eq_some_iff.mp hu) with ⟨k, hk, hr'⟩ | ⟨k, hk, -⟩
  · cases k with
    | nil =>
      rw [List.append_nil] at hk
      rw [← hk] at h
      simp [Text.after?] at h
    | cons b k =>
      have hb := hr.head? b (by rw [hr']; rfl)
      rw [hword b (by rw [hk]; simp)] at hb
      exact absurd hb (by decide)
  · rw [Text.after?_eq_some_iff.mpr hk] at h
    exact absurd h (by simp)

namespace Local

variable {q : Text → Option Text}

/-- Idle text has no answer to a local question. -/
theorem of_idle (h : Local q) {r : Text} (hr : Idle r) : q r = none :=
  (h.append [] r hr).trans h.nil

/-- A local question may be asked behind spaces. -/
theorem afterSpace (h : Local q) : Local fun t => q (skipSpace t) where
  nil := h.nil
  append t r hr := by
    rcases skipSpace_append_cases t r with ⟨hnil, heq⟩ | heq
    · rw [heq, hnil, h.of_idle hr.skipSpace, h.nil]
    · rw [heq, h.append _ _ hr]

/-- A word and the spaces behind it stand in front of a local question. The spaces behind the word
end in its piece, or they are all that is left of the piece. -/
theorem keyword (h : Local q) (word : String) (hne : lit word ≠ [])
    (hword : ∀ b ∈ lit word, isIdentifier b) : Local fun t => (keyword? word t).bind q where
  nil := by
    cases hafter : Text.after? (lit word) [] with
    | none => simp [keyword?, hafter]
    | some rest =>
      exact absurd (List.append_eq_nil_iff.mp (Text.after?_eq_some_iff.mp hafter).symm).1 hne
  append t r hr := by
    have hspaces (b : Byte) (t : Text) :
        (spaces? (b :: t)).bind q = if isSpace b then q (skipSpace (b :: t)) else none := by
      by_cases hb : isSpace b <;> simp [spaces?, skipSpace, hb]
    cases hafter : Text.after? (lit word) t with
    | some rest =>
      obtain rfl := Text.after?_eq_some_iff.mp hafter
      have hmore : Text.after? (lit word) (lit word ++ rest ++ r) = some (rest ++ r) :=
        Text.after?_eq_some_iff.mpr (List.append_assoc _ _ _)
      simp only [keyword?, hafter, hmore, Option.bind_some]
      cases rest with
      | nil =>
        cases r with
        | nil => rfl
        | cons b r =>
          rw [List.nil_append, hspaces, h.of_idle hr.skipSpace, ite_self]
          rfl
      | cons b rest =>
        rw [List.cons_append, hspaces, hspaces, ← List.cons_append]
        rw [h.afterSpace.append _ _ hr]
    | none =>
      have hmore := after?_append_of_idle hword hr hafter
      simp [keyword?, hafter, hmore]

/-- An identifier at the start of a text. -/
theorem word : Local fun t =>
    let word := t.takeWhile isIdentifier
    if word.isEmpty then none else some word where
  nil := rfl
  append t r hr := by
    have htake : (t ++ r).takeWhile isIdentifier = t.takeWhile isIdentifier := by
      rw [List.takeWhile_append]
      split
      · rename_i hall
        rw [(List.takeWhile_prefix _).eq_of_length hall]
        cases r with
        | nil => simp
        | cons b r => simp [hr.head? b rfl]
      · rfl
    simp only [htake]

end Local

/-- The pattern of a constant is local. -/
theorem local_declaredConstant? : Local declaredConstant? := by
  have hstring := Local.word.keyword "String" (by simp [lit]) (List.all_eq_true.mp rfl)
  have hconst := hstring.keyword "const" (by simp [lit]) (List.all_eq_true.mp rfl)
  exact (hconst.keyword "static" (by simp [lit]) (List.all_eq_true.mp rfl)).afterSpace

/-- The margins of a line do not matter to what it declares. -/
theorem declaredConstant?_trim (line : Text) :
    declaredConstant? (trim isMargin line) = declaredConstant? line := by
  obtain ⟨m, hm, hmargin⟩ : ∃ m, Text.trimStart isMargin line = trim isMargin line ++ m ∧
      ∀ b ∈ m, isMargin b := by
    obtain ⟨rest, hrest⟩ : ∃ rest, rest = Text.trimStart isMargin line := ⟨_, rfl⟩
    refine ⟨(rest.reverse.takeWhile isMargin).reverse, ?_, fun b hb => ?_⟩
    · rw [trim, Text.trimEnd, ← hrest, ← List.reverse_append, List.takeWhile_append_dropWhile,
        List.reverse_reverse]
    · exact List.mem_takeWhile_imp (List.mem_reverse.mp hb)
  have hspace : skipSpace line = skipSpace (Text.trimStart isMargin line) := by
    conv_lhs => rw [← List.takeWhile_append_dropWhile (p := isMargin) (l := line)]
    rw [skipSpace, List.dropWhile_append_of_pos fun b hb =>
      Byte.isSpace_of_isMargin b (List.mem_takeWhile_imp hb)]
    rfl
  have hstart : declaredConstant? (Text.trimStart isMargin line) = declaredConstant? line := by
    rw [declaredConstant?, declaredConstant?, hspace]
  rw [← hstart, hm, local_declaredConstant?.append _ _ (idle_of_isSpace fun b hb =>
    Byte.isSpace_of_isMargin b (hmargin b hb))]

/-- Text whose last byte is neither a space nor part of an identifier. -/
def Ended (t : Text) : Prop := ∃ u b, t = u ++ [b] ∧ isSpace b = false ∧ isIdentifier b = false

/-- Whatever follows on the line, ended text declares what it declares. -/
theorem Ended.declaredConstant?_append {t : Text} (h : Ended t) (r : Text) :
    declaredConstant? (t ++ r) = declaredConstant? t := by
  obtain ⟨u, b, rfl, hspace, hb⟩ := h
  rw [List.append_assoc, List.singleton_append,
    local_declaredConstant?.append _ _ (idle_cons hspace hb r),
    local_declaredConstant?.append _ _ (idle_cons hspace hb [])]

/-- The last line of ended text is ended. -/
theorem Ended.lastLine {t : Text} (h : Ended t) : Ended (lastLine t) := by
  obtain ⟨u, b, rfl, hspace, hb⟩ := h
  have hne : newline ∉ [b] := by
    rw [List.mem_singleton]
    rintro rfl
    exact absurd hspace (by decide)
  exact ⟨Text.lastLine u, b, Text.lastLine_append hne, hspace, hb⟩

/-! ## Texts that are put together -/

/-- The margins of lines do not matter to what they declare. -/
theorem constantsIn_eq (doc : Text) :
    constantsIn doc = (bareLines doc).filterMap declaredConstant? := by
  rw [constantsIn, bareLines, List.filterMap_map]
  exact List.filterMap_congr fun line _ => (declaredConstant?_trim line).symm

/-- A place where a line can be cut without a change to what it declares. -/
def Seam (a b : Text) : Prop := Ended a ∨ Idle (firstLine b)

/-- The line over a seam declares what its first part declares. -/
theorem Seam.declaredConstant?_eq {a b : Text} (h : Seam a b) :
    declaredConstant? (lastLine a ++ firstLine b) = declaredConstant? (lastLine a) := by
  rcases h with h | h
  · exact h.lastLine.declaredConstant?_append _
  · exact local_declaredConstant?.append _ _ h

/-- The lines behind a seam declare what they declare by themselves. -/
theorem Seam.constantsIn_append {a b : Text} (h : Seam a b) :
    constantsIn (a ++ b) = constantsIn a ++ (bareLines b).tail.filterMap declaredConstant? := by
  have hlines := Text.bareLines_eq_dropLast_append a
  rw [constantsIn_eq, constantsIn_eq, Text.bareLines_append]
  conv_rhs => rw [hlines]
  simp only [List.filterMap_append, List.filterMap_cons, List.filterMap_nil, declaredConstant?_trim,
    h.declaredConstant?_eq, List.append_assoc]
  cases declaredConstant? (lastLine a) <;> rfl

/-- Idle text declares nothing on its first line. -/
theorem constantsIn_of_idle {b : Text} (h : Idle (firstLine b)) :
    constantsIn b = (bareLines b).tail.filterMap declaredConstant? := by
  have hcut := Seam.constantsIn_append (a := []) (Or.inr h)
  rwa [List.nil_append] at hcut

section Blocks

variable {nl indent a b : Text}

/-- A block of lines written at a seam adds what its lines declare. -/
theorem Seam.perm_insert_block (h : Seam a b) (hnl : IsLineBreak nl)
    (hindent : ∀ x ∈ indent, isBlank x) {content : List Text}
      (hcontent : ∀ l ∈ content, newline ∉ l)
    (hlast : ∃ last ∈ content.getLast?, Ended last) :
    (constantsIn (a ++ (block nl indent content ++ b))).Perm
      (constantsIn (a ++ b) ++ content.filterMap declaredConstant?) := by
  obtain ⟨last, hlast, hended⟩ := hlast
  obtain ⟨init, rfl⟩ := List.getLast?_eq_some_iff.mp hlast
  obtain ⟨hinit, hone⟩ := List.forall_mem_append.mp hcontent
  have hlines : bareLines (a ++ (block nl indent (init ++ [last]) ++ b)) = bareLines a ++
      (init.map (trim isMargin) ++ [trim isMargin (last ++ firstLine b)] ++
        (bareLines b).tail) := by
    rw [Text.bareLines_insert_block hnl hindent a b last init hinit (hone last (by simp)),
      Text.bareLines_eq_dropLast_append a]
    simp
  have hmore : (init.map (trim isMargin) ++ [trim isMargin (last ++ firstLine b)]).filterMap
      declaredConstant? = (init ++ [last]).filterMap declaredConstant? := by
    simp only [List.filterMap_append, List.filterMap_map, List.filterMap_cons, Function.comp_def,
      declaredConstant?_trim, hended.declaredConstant?_append]
  rw [h.constantsIn_append, constantsIn_eq, hlines, List.filterMap_append, List.filterMap_append,
    hmore, ← constantsIn_eq, List.append_assoc]
  exact List.perm_append_comm.append_left _

/-- A line break written in front of idle text declares nothing. -/
theorem constantsIn_insert_lineBreak (hnl : IsLineBreak nl) (hindent : ∀ x ∈ indent, isBlank x)
    (hb : Idle (firstLine b)) : constantsIn (a ++ (nl ++ (indent ++ b))) =
      constantsIn (a ++ b) := by
  rw [Seam.constantsIn_append (Or.inr hb), ← constantsIn_of_idle hb, constantsIn_eq,
    Text.bareLines_insert_lineBreak hnl hindent, List.filterMap_append, ← constantsIn_eq,
    ← constantsIn_eq]

/-- A comma written in front of idle text declares nothing. -/
theorem constantsIn_insert_comma (hb : Idle (firstLine b)) :
    constantsIn (a ++ ([byte ','] ++ b)) = constantsIn (a ++ b) := by
  have hcomma : Idle (firstLine ([byte ','] ++ b)) := by
    rw [Text.firstLine_append (by decide)]
    exact idle_cons (by decide) (by decide) _
  rw [Seam.constantsIn_append (Or.inr hb), Seam.constantsIn_append (Or.inr hcomma),
    Text.tail_bareLines_append (by decide)]

end Blocks

/-! ## Splices -/

/-- An insertion that adds what its own text declares, also where more is inserted behind it. -/
structure Additive (doc : Text) (i : Insertion) : Prop where
  offset_le : i.offset ≤ doc.length
  idle : ∀ rest, Idle (firstLine (i.text ++ rest))
  perm : ∀ rest, (Idle (firstLine (doc.drop i.offset)) → Idle (firstLine rest)) →
    (constantsIn (doc.take i.offset ++ (i.text ++ rest))).Perm
      (constantsIn (doc.take i.offset ++ rest) ++ constantsIn i.text)

/-- Idle text stays idle when text is inserted that is idle itself. -/
theorem idle_insert {a m b : Text} (hm : ∀ rest, Idle (firstLine (m ++ rest)))
    (h : Idle (firstLine (a ++ b))) : Idle (firstLine (a ++ (m ++ b))) := by
  by_cases hnewline : newline ∈ a
  · rwa [Text.firstLine_append_of_mem hnewline] at h ⊢
  · rw [Text.firstLine_append hnewline] at h ⊢
    cases hspace : skipSpace a with
    | nil => exact (hm b).append_left (List.dropWhile_eq_nil_iff.mp hspace)
    | cons x more =>
      have hhead (r : Text) : (skipSpace (a ++ r)).head? = some x := by
        rcases skipSpace_append_cases a r with ⟨hnil, -⟩ | heq
        · rw [hspace] at hnil
          exact absurd hnil (by simp)
        · rw [heq, hspace]
          rfl
      rw [Idle, hhead] at h ⊢
      exact h

/-- Insertions behind an offset leave the text in front of it alone and idle text idle. -/
theorem take_drop_foldr_into {doc : Text} {l : List Insertion} {o : Nat}
    (h : ∀ i ∈ l, Additive doc i) (ho : ∀ i ∈ l, o ≤ i.offset) :
    (l.foldr Insertion.into doc).take o = doc.take o ∧
      (Idle (firstLine (doc.drop o)) → Idle (firstLine ((l.foldr Insertion.into doc).drop o))) := by
  induction l with
  | nil => exact ⟨rfl, id⟩
  | cons i l ih =>
    obtain ⟨hi, hl⟩ := List.forall_mem_cons.mp h
    obtain ⟨hoi, hol⟩ := List.forall_mem_cons.mp ho
    obtain ⟨htake, hdrop⟩ := ih hl hol
    obtain ⟨t, ht⟩ : ∃ t, t = l.foldr Insertion.into doc := ⟨_, rfl⟩
    have hle : i.offset ≤ t.length :=
      hi.offset_le.trans (ht ▸ Insertion.length_le_length_foldr_into l doc)
    have hlen : o ≤ (t.take i.offset).length := by
      rw [List.length_take]
      omega
    rw [← ht] at htake hdrop
    rw [List.foldr_cons, ← ht, Insertion.into]
    constructor
    · rw [List.take_append_of_le_length hlen, List.take_take, Nat.min_eq_left hoi, htake]
    · intro hidle
      have hcut := hdrop hidle
      rw [← List.take_append_drop i.offset t, List.drop_append_of_le_length hlen] at hcut
      rw [List.drop_append_of_le_length hlen]
      exact idle_insert hi.idle hcut

/-- A splice of such insertions adds what they declare. -/
theorem perm_constantsIn_splice {doc : Text} {l : List Insertion} (h : ∀ i ∈ l, Additive doc i) :
    (constantsIn (splice doc l)).Perm (constantsIn doc ++ l.flatMap fun i =>
      constantsIn i.text) := by
  have hsort := Insertion.perm_sort l
  have hfold (l : List Insertion) (hs : l.Pairwise (·.offset ≤ ·.offset))
      (h : ∀ i ∈ l, Additive doc i) : (constantsIn (l.foldr Insertion.into doc)).Perm
        (constantsIn doc ++ l.flatMap fun i => constantsIn i.text) := by
    induction l with
    | nil => simp
    | cons i l ih =>
      obtain ⟨hi, hl⟩ := List.forall_mem_cons.mp h
      obtain ⟨hfirst, hs⟩ := List.pairwise_cons.mp hs
      obtain ⟨htake, hdrop⟩ := take_drop_foldr_into hl hfirst
      have hstep := hi.perm _ hdrop
      rw [← htake, List.take_append_drop] at hstep
      rw [List.foldr_cons, Insertion.into, List.flatMap_cons]
      refine hstep.trans (((ih hs hl).append_right _).trans ?_)
      rw [List.append_assoc]
      exact List.perm_append_comm.append_left _
  rw [Text.splice_eq_foldr fun i hi => (h i hi).offset_le]
  exact (hfold _ (Insertion.pairwise_sort l) fun i hi => h i (hsort.mem_iff.mp hi)).trans
    ((hsort.flatMap_right _).append_left _)

/-! ## What a patch inserts -/

/-- A line that ends is idle. -/
theorem idle_lineBreak {nl : Text} (hnl : IsLineBreak nl) (rest : Text) :
    Idle (firstLine (nl ++ rest)) := by
  rcases hnl with rfl | rfl
  · exact idle_of_isSpace (by simp [firstLine])
  · have hline : firstLine (Text.crlf ++ rest) = [Byte.carriageReturn] := rfl
    rw [hline]
    exact idle_of_isSpace (by decide +kernel)

/-- A line of its own for what follows a block, where the block gets one. -/
def Closing (nl closing b : Text) : Prop :=
  closing = [] ∨ Idle (firstLine b) ∧ ∃ blanks, (∀ x ∈ blanks, isBlank x) ∧ closing = nl ++ blanks

/-- A block of lines written at a seam, with a line break behind it where idle text follows. Both
parts come from one fact: with text on either side for the first, alone for the second. -/
theorem additive_block {nl indent closing a b : Text} (h : Seam a b) (hnl : IsLineBreak nl)
    (hindent : ∀ x ∈ indent, isBlank x) {content : List Text}
      (hcontent : ∀ l ∈ content, newline ∉ l)
    (hlast : ∃ last ∈ content.getLast?, Ended last) (hclosing : Closing nl closing b) :
    Additive (a ++ b) ⟨a.length, block nl indent content ++ closing⟩ ∧
      (constantsIn (block nl indent content ++ closing)).Perm
        (content.filterMap declaredConstant?) := by
  have hperm (a rest : Text) (hseam : Seam a rest) (hclosing : Closing nl closing rest) :
      (constantsIn (a ++ (block nl indent content ++ closing ++ rest))).Perm
        (constantsIn (a ++ rest) ++ content.filterMap declaredConstant?) := by
    rw [List.append_assoc]
    rcases hclosing with rfl | ⟨hidle, blanks, hblanks, rfl⟩
    · exact hseam.perm_insert_block hnl hindent hcontent hlast
    · have hblock := Seam.perm_insert_block (a := a) (Or.inr (idle_lineBreak hnl (blanks ++ rest)))
        hnl hindent hcontent hlast
      rwa [constantsIn_insert_lineBreak hnl hblanks hidle, ← List.append_assoc nl] at hblock
  have htext : (constantsIn (block nl indent content ++ closing)).Perm
      (content.filterMap declaredConstant?) := by
    have hnil : Idle (firstLine []) := idle_of_isSpace (by simp [firstLine])
    have halone := hperm [] [] (Or.inr hnil) (hclosing.imp_right (And.imp_left fun _ => hnil))
    simpa using halone
  refine ⟨⟨by simp, fun rest => ?_, fun rest hrest => ?_⟩, htext⟩
  · obtain ⟨last, hlast, -⟩ := hlast
    cases content with
    | nil => simp at hlast
    | cons l more =>
      rw [Text.block_cons]
      simp only [List.append_assoc]
      exact idle_lineBreak hnl _
  · rw [List.drop_left] at hrest
    rw [List.take_left]
    exact (hperm a rest (h.imp_right hrest) (hclosing.imp_right (And.imp_left hrest))).trans
      (htext.symm.append_left _)

/-- A comma in front of idle text declares nothing and hides nothing. -/
theorem additive_comma {a b : Text} (h : Idle (firstLine b)) :
    Additive (a ++ b) ⟨a.length, [byte ',']⟩ where
  offset_le := by simp
  idle rest := by
    have hline : firstLine ([byte ','] ++ rest) = [byte ','] ++ firstLine rest :=
      Text.firstLine_append (by decide)
    rw [hline]
    exact idle_cons (by decide) (by decide) _
  perm rest hrest := by
    rw [List.drop_left] at hrest
    rw [List.take_left, constantsIn_insert_comma (hrest h),
      show constantsIn [byte ','] = [] from rfl,
      List.append_nil]

end FlutterScaffold.Registry
