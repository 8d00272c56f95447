import FlutterScaffold.Template.Expansion
import FlutterScaffold.Proofs.Text.Search
import Mathlib.Algebra.Group.Nat.Even
import Mathlib.Data.List.DropRight

/-!
# Which tokens are replaced

Where no key holds a brace, the known tokens of a text do not overlap, so the text is cut into its
known tokens and the bytes that are not part of one (`pieces`). Replacing each known token is
`leftmost`. Expansion differs from it in one respect: behind a token with an unknown key it goes on
behind both opening braces, so a known token that starts at the second of them is passed over. A
known token is thus replaced exactly where an even number of opening braces stands right in front of
it (`expand_by_tokens`).
-/

namespace FlutterScaffold.Template

/-- The text of a token. -/
def token (key : Text) : Text := opening ++ (key ++ closing)

/-- A key that holds no brace. -/
def Bare (key : Text) : Prop := byte '{' ∉ key ∧ byte '}' ∉ key

instance (key : Text) : Decidable (Bare key) := inferInstanceAs (Decidable (_ ∧ _))

/-- The key and the value of the known token that a text starts with. -/
def known? (vars : Vars) (t : Text) : Option (Text × Text) :=
  vars.find? fun entry => (token entry.1).isPrefixOf t

/-- A part of a text: a byte outside the known tokens, or a known token with the number of opening
braces right in front of it. -/
inductive Piece where
  | copied (b : Byte)
  | token (front : Nat) (key value : Text)
  deriving DecidableEq, Repr

namespace Piece

/-- The part of the text. -/
def source : Piece → Text
  | copied b => [b]
  | token _ key _ => Template.token key

/-- The part with its token replaced. -/
def replaced : Piece → Text
  | copied b => [b]
  | token _ _ value => value

/-- The part with its token replaced where the braces in front of it pair up. -/
def expanded : Piece → Text
  | copied b => [b]
  | token front key value => if Even front then value else Template.token key

end Piece

/-- The number of opening braces right behind a byte that has `front` of them in front. -/
def bracesAfter (front : Nat) (b : Byte) : Nat := if b = byte '{' then front + 1 else 0

/-- The pieces of a text with `front` opening braces in front of it, of which the first `skip` bytes
have been dealt with. -/
def piecesFrom (vars : Vars) (front skip : Nat) : Text → List Piece
  | [] => []
  | b :: rest =>
    match skip with
    | skip + 1 => piecesFrom vars front skip rest
    | 0 =>
      match known? vars (b :: rest) with
      | some (key, value) => .token front key value :: piecesFrom vars 0 (key.length + 3) rest
      | none => .copied b :: piecesFrom vars (bracesAfter front b) 0 rest

/-- The pieces of a text: its known tokens from the left, and the bytes between them. -/
def pieces (vars : Vars) (t : Text) : List Piece := piecesFrom vars 0 0 t

/-- A text with every known token replaced, going through it once from the left. -/
def leftmost (vars : Vars) (t : Text) : Text := (pieces vars t).flatMap Piece.replaced

section Known

variable {vars : Vars} {key value before after t : Text}

/-- A token starts with two braces. -/
theorem token_eq_cons (key : Text) : token key = byte '{' :: byte '{' :: (key ++ closing) := rfl

/-- A token is a key between its braces. -/
theorem token_append (key after : Text) :
    token key ++ after = opening ++ (key ++ (closing ++ after)) := by
  rw [token, List.append_assoc, List.append_assoc]

/-- A token closes. -/
theorem closing_infix_token_append (key after : Text) : closing <:+: token key ++ after := by
  rw [token_append, ← List.append_assoc]
  exact List.infix_append' _ _ _

/-- At most one token with a bare key starts at a place. -/
theorem token_append_inj {key' after' : Text} (h : Bare key) (h' : Bare key')
    (heq : token key ++ after = token key' ++ after') : key = key' := by
  rw [token_append, token_append] at heq
  have hkey := key?_token h.2 after
  rw [heq, key?_token h'.2] at hkey
  exact (Option.some.inj hkey).symm

/-- A key that has a value is bare. -/
theorem bare_of_lookup (hkeys : ∀ entry ∈ vars, Bare entry.1)
    (hvalue : vars.lookup key = some value) : Bare key := by
  by_contra hne
  have hnone : vars.lookup key = none := List.lookup_eq_none_iff.mpr fun entry hentry => by
    rw [bne_iff_ne]
    rintro rfl
    exact hne (hkeys entry hentry)
  rw [hnone] at hvalue
  cases hvalue

/-- A token whose key has a value is known. -/
theorem known?_token (hkeys : ∀ entry ∈ vars, Bare entry.1) (hvalue : vars.lookup key = some value)
    (after : Text) : known? vars (token key ++ after) = some (key, value) := by
  have hbare := bare_of_lookup hkeys hvalue
  induction vars with
  | nil => cases hvalue
  | cons entry vars ih =>
    obtain ⟨key', value'⟩ := entry
    rw [known?, List.find?_cons]
    by_cases heq : key = key'
    · subst heq
      rw [List.lookup_cons_self] at hvalue
      obtain rfl := Option.some.inj hvalue
      have hself : (token key).isPrefixOf (token key ++ after) = true :=
        List.isPrefixOf_iff_prefix.mpr (List.prefix_append _ _)
      rw [hself]
    · have hother : (token key').isPrefixOf (token key ++ after) = false := by
        rw [Bool.eq_false_iff, ne_eq, List.isPrefixOf_iff_prefix]
        rintro ⟨s, hs⟩
        exact heq (token_append_inj hbare (hkeys _ List.mem_cons_self) hs.symm)
      rw [hother]
      rw [List.lookup_cons, beq_false_of_ne heq] at hvalue
      exact ih (fun entry hentry => hkeys entry (List.mem_cons_of_mem _ hentry)) hvalue

/-- What is known is a token whose key has a value. -/
theorem exists_token_of_known? (hkeys : ∀ entry ∈ vars, Bare entry.1)
    (h : known? vars t = some (key, value)) :
    vars.lookup key = some value ∧ ∃ after, t = token key ++ after := by
  obtain ⟨after, hafter⟩ : token key <+: t := by
    simpa using List.find?_some h
  cases hlookup : vars.lookup key with
  | none =>
    have := List.lookup_eq_none_iff.mp hlookup _ (List.mem_of_find?_eq_some h)
    simp at this
  | some other =>
    rw [← hafter, known?_token hkeys hlookup] at h
    exact ⟨by rw [(Prod.mk.inj (Option.some.inj h)).2], after, hafter.symm⟩

/-- A known token that starts before another one ends before it. Behind its first two bytes a token
holds no opening brace, and the other one starts with two. -/
theorem known?_cons_append_token (hkeys : ∀ entry ∈ vars, Bare entry.1) {b : Byte}
    (h : known? vars (b :: before) = none) :
    known? vars (b :: (before ++ (token key ++ after))) = none := by
  rw [known?, List.find?_eq_none] at h ⊢
  intro entry hentry hstarts
  refine h entry hentry ?_
  rw [List.isPrefixOf_iff_prefix] at hstarts ⊢
  have hbrace : byte '{' ∉ entry.1 ++ closing := by
    rw [List.mem_append, not_or]
    exact ⟨(hkeys entry hentry).1, by decide⟩
  have hne : entry.1 ++ closing ≠ [] := by simp [closing]
  rw [token_eq_cons, token_eq_cons, List.cons_append, List.cons_append, List.cons_prefix_cons]
    at hstarts
  rw [token_eq_cons, List.cons_prefix_cons]
  refine ⟨hstarts.1, ?_⟩
  cases before with
  | nil =>
    rw [List.nil_append, List.cons_prefix_cons] at hstarts
    have := (Text.prefix_append_cons_iff (a := []) hbrace).mp hstarts.2.2
    exact absurd (List.prefix_nil.mp this) hne
  | cons c before =>
    rw [List.cons_append, List.cons_prefix_cons] at hstarts
    rw [List.cons_prefix_cons]
    exact ⟨hstarts.2.1, (Text.prefix_append_cons_iff hbrace).mp hstarts.2.2⟩

end Known

section Pieces

variable {vars : Vars} {front : Nat} {key value rest : Text} {b : Byte}

/-- What is dealt with already is passed over. -/
theorem piecesFrom_append (vars : Vars) (front : Nat) (dealt t : Text) :
    piecesFrom vars front dealt.length (dealt ++ t) = piecesFrom vars front 0 t := by
  induction dealt with
  | nil => rfl
  | cons b dealt ih => exact ih

/-- A token whose key has a value is one piece. -/
theorem piecesFrom_token (hkeys : ∀ entry ∈ vars, Bare entry.1)
    (hvalue : vars.lookup key = some value) (front : Nat) (after : Text) :
    piecesFrom vars front 0 (token key ++ after) = .token front key value :: pieces vars after := by
  have hdealt := piecesFrom_append vars 0 (byte '{' :: (key ++ closing)) after
  have hlength : (byte '{' :: (key ++ closing)).length = key.length + 3 := by simp [closing]
  rw [hlength] at hdealt
  have hknown := known?_token hkeys hvalue after
  rw [token_eq_cons, List.cons_append] at hknown ⊢
  rw [piecesFrom, hknown, pieces, ← hdealt]

/-- A byte that starts no known token is copied. -/
theorem piecesFrom_cons (h : known? vars (b :: rest) = none) :
    piecesFrom vars front 0 (b :: rest) =
      .copied b :: piecesFrom vars (bracesAfter front b) 0 rest := by
  rw [piecesFrom, h]

/-- A text is empty, or starts with a known token, or with a byte at which none starts. -/
@[elab_as_elim]
theorem induction_on_pieces (hkeys : ∀ entry ∈ vars, Bare entry.1) {motive : Nat → Text → Prop}
    (nil : ∀ front, motive front [])
    (token : ∀ front key value after, vars.lookup key = some value → motive 0 after →
      motive front (token key ++ after))
    (copied : ∀ front b rest, known? vars (b :: rest) = none →
      motive (bracesAfter front b) rest → motive front (b :: rest))
    (front : Nat) (t : Text) : motive front t := by
  induction hn : t.length using Nat.strong_induction_on generalizing front t with
  | _ n ih =>
    cases t with
    | nil => exact nil front
    | cons b rest =>
      cases hknown : known? vars (b :: rest) with
      | none => exact copied front b rest hknown (ih _ (by simp [← hn]) _ _ rfl)
      | some entry =>
        obtain ⟨hvalue, after, hafter⟩ := exists_token_of_known? hkeys hknown
        rw [hafter] at hn ⊢
        refine token front _ _ after hvalue (ih _ ?_ _ _ rfl)
        simp only [← hn, token_eq_cons, List.length_append, List.length_cons]
        omega

/-- The pieces of a text stand for it. -/
theorem flatMap_source_piecesFrom (hkeys : ∀ entry ∈ vars, Bare entry.1) (front : Nat) (t : Text) :
    (piecesFrom vars front 0 t).flatMap Piece.source = t := by
  induction front, t using induction_on_pieces hkeys with
  | nil front => rfl
  | token front key value after hvalue ih =>
    rw [piecesFrom_token hkeys hvalue, List.flatMap_cons, pieces, ih]
    rfl
  | copied front b rest hknown ih =>
    rw [piecesFrom_cons hknown, List.flatMap_cons, ih]
    rfl

/-- Behind a token the braces are counted anew. -/
theorem foldl_bracesAfter_token (front : Nat) (key before : Text) :
    (token key ++ before).foldl bracesAfter front = before.foldl bracesAfter 0 := by
  have hend :
      bracesAfter ((opening ++ (key ++ [byte '}'])).foldl bracesAfter front) (byte '}') = 0 := rfl
  rw [← hend, ← List.foldl_cons, ← List.foldl_append, token, closing]
  simp

/-- The braces that are counted are those at the end. -/
theorem foldl_bracesAfter (t : Text) :
    t.foldl bracesAfter 0 = (t.rtakeWhile (· = byte '{')).length := by
  induction t using List.reverseRecOn with
  | nil => rfl
  | append_singleton t b ih =>
    rw [List.foldl_append, ih, List.rtakeWhile_concat, List.foldl_cons, List.foldl_nil, bracesAfter]
    by_cases hb : b = byte '{' <;> simp [hb]

/-- Every occurrence of a known token is a piece. -/
theorem piecesFrom_append_token (hkeys : ∀ entry ∈ vars, Bare entry.1)
    (hvalue : vars.lookup key = some value) (front : Nat) (before after : Text) :
    piecesFrom vars front 0 (before ++ (token key ++ after)) = piecesFrom vars front 0 before ++
      .token (before.foldl bracesAfter front) key value :: pieces vars after := by
  induction front, before using induction_on_pieces hkeys with
  | nil front => exact piecesFrom_token hkeys hvalue front after
  | token front key' value' before hvalue' ih =>
    rw [List.append_assoc, piecesFrom_token hkeys hvalue', piecesFrom_token hkeys hvalue', pieces,
      pieces, ih, foldl_bracesAfter_token, List.cons_append]
  | copied front b before hknown ih =>
    rw [List.cons_append, piecesFrom_cons (known?_cons_append_token hkeys hknown),
      piecesFrom_cons hknown, ih, List.foldl_cons, List.cons_append]

end Pieces

section Expansion

variable {vars : Vars} {key value rest t : Text} {b : Byte}

/-- The key of a token ends at the first closing braces. -/
theorem key?_opening_append (inner : Text) :
    key? (opening ++ inner) = (Text.indexOf? closing inner).map (inner.take ·) := by
  have hinner := Text.after?_eq_some_iff.mpr (rfl : opening ++ inner = _)
  cases h : Text.indexOf? closing inner <;> simp [key?, hinner, h]

/-- A text with a key starts with its token. -/
theorem exists_token_of_key? (h : key? t = some key) : ∃ after, t = token key ++ after := by
  obtain ⟨inner, hinner, -⟩ := Option.bind_eq_some_iff.mp h
  obtain rfl := Text.after?_eq_some_iff.mp hinner
  rw [key?_opening_append] at h
  obtain ⟨n, hn, rfl⟩ := Option.map_eq_some_iff.mp h
  obtain ⟨after, hafter⟩ := Text.isPrefix_drop_of_indexOf? hn
  exact ⟨after, by rw [token_append, hafter, List.take_append_drop]⟩

/-- A text that starts with no token has no key. -/
theorem key?_eq_none (h : ∀ key after, t ≠ token key ++ after) : key? t = none := by
  rw [Option.eq_none_iff_forall_ne_some]
  intro key hkey
  obtain ⟨after, hafter⟩ := exists_token_of_key? hkey
  exact h key after hafter

/-- No token starts at a byte, unless this is an opening brace in front of another. -/
theorem key?_cons_eq_none (h : b = byte '{' → rest.head? ≠ some (byte '{')) :
    key? (b :: rest) = none := by
  refine key?_eq_none fun key after hafter => ?_
  rw [token_eq_cons, List.cons_append, List.cons_append] at hafter
  obtain ⟨rfl, rfl⟩ := List.cons.inj hafter
  exact h rfl rfl

/-- Behind opening braces without a key no closing ones follow. -/
theorem not_closing_of_key?_eq_none {inner : Text} (h : key? (opening ++ inner) = none) :
    ¬ closing <:+: opening ++ inner := by
  rw [key?_opening_append, Option.map_eq_none_iff, Text.indexOf?_eq_none_iff] at h
  intro hclosing
  rcases Text.pair_infix_append_iff.mp hclosing with hfront | hinner | ⟨hlast, -⟩
  · exact absurd hfront (by decide)
  · exact h hinner
  · exact absurd hlast (by decide)

/-- The key of an unknown token has no value. -/
theorem lookup_eq_none_of_known? (hkeys : ∀ entry ∈ vars, Bare entry.1)
    (hknown : known? vars t = none) (hkey : key? t = some key) : vars.lookup key = none := by
  obtain ⟨after, rfl⟩ := exists_token_of_key? hkey
  rw [Option.eq_none_iff_forall_ne_some]
  intro value hvalue
  rw [known?_token hkeys hvalue] at hknown
  cases hknown

/-- Nothing is a token without closing braces behind it, and so it is for expansion. -/
theorem expand_eq_of_not_closing (hkeys : ∀ entry ∈ vars, Bare entry.1) (front : Nat) (t : Text)
    (h : ¬ closing <:+: t) :
    expand vars t = (piecesFrom vars front 0 t).flatMap Piece.expanded := by
  induction front, t using induction_on_pieces hkeys with
  | nil front => rfl
  | token front key value after hvalue ih =>
    exact absurd (closing_infix_token_append key after) h
  | copied front b rest hknown ih =>
    have hnone : key? (b :: rest) = none :=
      key?_eq_none fun key after hafter => h (hafter ▸ closing_infix_token_append key after)
    rw [List.infix_cons_iff, not_or] at h
    rw [expand_cons hnone, ih h.2, piecesFrom_cons hknown]
    rfl

/-- A token is kept where expansion looks at its second opening brace first. -/
theorem expand_brace_cons (hkey : byte '{' ∉ key) (after : Text) :
    expand vars (byte '{' :: (key ++ closing ++ after)) =
      byte '{' :: (key ++ closing ++ expand vars after) := by
  have hbrace : byte '{' ∉ key ++ closing := by
    rw [List.mem_append, not_or]
    exact ⟨hkey, by decide⟩
  have hnone : key? (byte '{' :: (key ++ closing ++ after)) = none := by
    refine key?_cons_eq_none fun _ hhead => ?_
    cases key with
    | nil => exact absurd (Option.some.inj hhead) (by decide)
    | cons c key => exact hkey (by simp [Option.some.inj hhead])
  rw [expand_cons hnone, expand_append_of_not_mem hbrace]

/-- Expansion and the pieces agree at every place that expansion looks at, and it looks at every
place except a brace with an odd number of braces in front. It has passed such a brace together
with the one in front, and goes on behind it. -/
theorem expand_eq_flatMap_piecesFrom (hkeys : ∀ entry ∈ vars, Bare entry.1) (front : Nat)
    (t : Text) :
    (Even front ∨ t.head? ≠ some (byte '{') →
      expand vars t = (piecesFrom vars front 0 t).flatMap Piece.expanded) ∧
    (¬ Even front → ∀ rest, t = byte '{' :: rest →
      byte '{' :: expand vars rest = (piecesFrom vars front 0 t).flatMap Piece.expanded) := by
  induction front, t using induction_on_pieces hkeys with
  | nil front => exact ⟨fun _ => rfl, by simp⟩
  | token front key value after hvalue ih =>
    have hbare := bare_of_lookup hkeys hvalue
    have hafter := ih.1 (.inl Even.zero)
    rw [piecesFrom_token hkeys hvalue, List.flatMap_cons, pieces, ← hafter, Piece.expanded]
    constructor
    · intro hfront
      have heven : Even front := hfront.resolve_right (· rfl)
      rw [if_pos heven, token_append, expand_token hbare.2 hvalue]
    · intro hodd rest hrest
      rw [token_eq_cons, List.cons_append, List.cons_append] at hrest
      obtain rfl := (List.cons.inj hrest).2
      rw [if_neg hodd, expand_brace_cons hbare.1, token_eq_cons, List.cons_append,
        List.cons_append]
  | copied front b rest hknown ih =>
    constructor
    · intro hfront
      by_cases hpair : b = byte '{' ∧ rest.head? = some (byte '{')
      · obtain ⟨rfl, hhead⟩ := hpair
        obtain ⟨inner, rfl⟩ := List.head?_eq_some_iff.mp hhead
        have hodd : ¬ Even (bracesAfter front (byte '{')) := by
          rw [bracesAfter, if_pos rfl, Nat.even_add_one, not_not]
          exact hfront.resolve_right (· rfl)
        cases hkey : key? (opening ++ inner) with
        | none =>
          exact expand_eq_of_not_closing hkeys front _ (not_closing_of_key?_eq_none hkey)
        | some key =>
          rw [piecesFrom_cons hknown, List.flatMap_cons, ← ih.2 hodd inner rfl]
          exact expand_unknown hkey (lookup_eq_none_of_known? hkeys hknown hkey)
      · rw [expand_cons (key?_cons_eq_none fun hb hhead => hpair ⟨hb, hhead⟩),
          piecesFrom_cons hknown, ih.1]
        · rfl
        · rw [bracesAfter]
          by_cases hb : b = byte '{'
          · exact .inr fun hhead => hpair ⟨hb, hhead⟩
          · rw [if_neg hb]
            exact .inl Even.zero
    · intro hodd rest' hrest
      obtain ⟨rfl, rfl⟩ := List.cons.inj hrest
      rw [ih.1 (.inl ?_), piecesFrom_cons hknown]
      · rfl
      · rw [bracesAfter, if_pos rfl]
        exact Nat.even_add_one.mpr hodd

end Expansion

/-- Where no key holds a brace, a text is the sequence of its pieces, and every occurrence of a
known token is one of them. Expansion replaces a known token where an even number of opening braces
stands right in front of it, and keeps all else. So it replaces every known token, as the scan from
the left does, unless an odd number of opening braces stands in front of one. -/
theorem expand_by_tokens {vars : Vars} (hkeys : ∀ entry ∈ vars, Bare entry.1) (t : Text) :
    (pieces vars t).flatMap Piece.source = t ∧
      (∀ before key value after, t = before ++ (token key ++ after) →
        vars.lookup key = some value →
          pieces vars t = pieces vars before ++
            .token (before.rtakeWhile (· = byte '{')).length key value :: pieces vars after) ∧
      expand vars t = (pieces vars t).flatMap Piece.expanded ∧
      ((∀ front key value, .token front key value ∈ pieces vars t → Even front) →
        expand vars t = leftmost vars t) := by
  have hexpand : expand vars t = (pieces vars t).flatMap Piece.expanded :=
    (expand_eq_flatMap_piecesFrom hkeys 0 t).1 (.inl Even.zero)
  refine ⟨flatMap_source_piecesFrom hkeys 0 t, ?_, hexpand, fun heven => ?_⟩
  · rintro before key value after rfl hvalue
    rw [pieces, piecesFrom_append_token hkeys hvalue, foldl_bracesAfter, ← pieces]
  · rw [hexpand, leftmost]
    refine List.flatMap_congr fun piece hpiece => ?_
    cases piece with
    | copied b => rfl
    | token front key value =>
      rw [Piece.expanded, if_pos (heven front key value hpiece)]
      rfl

/-- Unknown tokens, an unterminated one, and known tokens with up to three braces in front. A value
that looks like a token is not expanded again. -/
theorem expand_by_tokens_odd_braces :
    let vars : Vars := [(lit "a", token (lit "b")), (lit "b", lit "x")]
    let odd := byte '{' :: token (lit "a")
    let even := opening ++ token (lit "a")
    let t := odd ++ even ++ (opening ++ odd) ++ token (lit "u") ++ (opening ++ lit "u") ++
      token (lit "b") ++ opening
    (∀ entry ∈ vars, Bare entry.1) ∧
      expand vars t = odd ++ (opening ++ token (lit "b")) ++ (opening ++ odd) ++ token (lit "u") ++
        (opening ++ lit "u") ++ lit "x" ++ opening ∧
      leftmost vars odd = byte '{' :: token (lit "b") := by
  intro vars odd even t
  have hkeys : ∀ entry ∈ vars, Bare entry.1 := by decide
  obtain ⟨-, -, hexpand, -⟩ := expand_by_tokens hkeys t
  refine ⟨hkeys, ?_, by decide⟩
  rw [hexpand]
  decide

end FlutterScaffold.Template
