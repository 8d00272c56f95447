import FlutterScaffold.Text.Search

/-!
# Template expansion

A template is a text with tokens, a key between two pairs of braces. Expansion goes through the text
once: each pair of opening braces is taken together with the first pair of closing braces behind it,
and where the key between them is known its value is written instead. Values are not expanded
again. Where the key is unknown the opening pair is kept and the search goes on behind it.
-/

namespace FlutterScaffold.Template

/-- Values by key. -/
abbrev Vars := List (Text × Text)

/-- The pair of braces that opens a token. -/
def opening : Text := [byte '{', byte '{']

/-- The pair of braces that closes a token. -/
def closing : Text := [byte '}', byte '}']

/-- The key of the token that a text starts with: what stands before the first closing pair. -/
def key? (t : Text) : Option Text := do
  let inner ← Text.after? opening t
  return inner.take (← Text.indexOf? closing inner)

/-- Expands a text of which the first `skip` bytes have been dealt with. -/
def expandFrom (vars : Vars) (skip : Nat) : Text → Text
  | [] => []
  | b :: rest =>
    match skip with
    | skip + 1 => expandFrom vars skip rest
    | 0 =>
      match key? (b :: rest) with
      | none => b :: expandFrom vars 0 rest
      | some key =>
        match vars.lookup key with
        | some value => value ++ expandFrom vars (key.length + 3) rest
        | none => opening ++ expandFrom vars 1 rest

/-- A text with its known tokens replaced. -/
def expand (vars : Vars) (t : Text) : Text := expandFrom vars 0 t

/-- A byte that starts no token is kept. -/
theorem expand_cons {vars : Vars} {b : Byte} {rest : Text} (h : key? (b :: rest) = none) :
    expand vars (b :: rest) = b :: expand vars rest := by
  rw [expand, expandFrom, h, expand]

/-- A text that holds no opening pair is its own expansion. -/
theorem expand_eq_self {vars : Vars} {t : Text} (h : ¬ opening <:+: t) : expand vars t = t := by
  induction t with
  | nil => rfl
  | cons b rest ih =>
    rw [List.infix_cons_iff, not_or] at h
    have hafter : Text.after? opening (b :: rest) = none := by
      unfold Text.after?
      rw [if_neg]
      rw [List.isPrefixOf_iff_prefix]
      exact h.1
    rw [expand_cons (by simp [key?, hafter]), ih h.2]

/-- What stands before the first brace is kept. -/
theorem expand_append_of_not_mem {vars : Vars} {before : Text} (h : byte '{' ∉ before)
    (t : Text) : expand vars (before ++ t) = before ++ expand vars t := by
  induction before with
  | nil => rfl
  | cons b before ih =>
    rw [List.mem_cons, not_or] at h
    have hkey : key? (b :: (before ++ t)) = none := by
      simp [key?, Text.after?, opening, h.1]
    rw [List.cons_append, expand_cons hkey, ih h.2, List.cons_append]

private theorem expandFrom_append (vars : Vars) (dealt t : Text) :
    expandFrom vars dealt.length (dealt ++ t) = expandFrom vars 0 t := by
  induction dealt with
  | nil => rfl
  | cons b dealt ih => exact ih

private theorem indexOf?_closing {key : Text} (h : byte '}' ∉ key) (t : Text) :
    Text.indexOf? closing (key ++ (closing ++ t)) = some key.length := by
  induction key with
  | nil => rfl
  | cons b key ih =>
    rw [List.mem_cons, not_or] at h
    rw [List.cons_append, Text.indexOf?, ih h.2]
    simp [closing, h.1]

/-- The key of a token is what stands between its braces. -/
theorem key?_token {key : Text} (h : byte '}' ∉ key) (t : Text) :
    key? (opening ++ (key ++ (closing ++ t))) = some key := by
  have hafter := Text.after?_eq_some_iff.mpr (rfl : opening ++ (key ++ (closing ++ t)) = _)
  simp [key?, hafter, indexOf?_closing h t]

private theorem expand_of_key? {vars : Vars} {b : Byte} {rest key : Text}
    (h : key? (b :: rest) = some key) :
    expand vars (b :: rest) = match vars.lookup key with
      | some value => value ++ expandFrom vars (key.length + 3) rest
      | none => opening ++ expandFrom vars 1 rest := by
  rw [expand, expandFrom, h]

/-- Of a token with an unknown key the opening pair is kept, and the search goes on behind it. -/
theorem expand_unknown {vars : Vars} {key t : Text} (hkey : key? (opening ++ t) = some key)
    (hunknown : vars.lookup key = none) :
    expand vars (opening ++ t) = opening ++ expand vars t := by
  refine (expand_of_key? hkey).trans ?_
  rw [hunknown]
  rfl

/-- A token with a known key is replaced by its value. -/
theorem expand_token {vars : Vars} {key value : Text} (hkey : byte '}' ∉ key)
    (hvalue : vars.lookup key = some value) (t : Text) :
    expand vars (opening ++ (key ++ (closing ++ t))) = value ++ expand vars t := by
  have hdealt := expandFrom_append vars (byte '{' :: (key ++ closing)) t
  have hlength : (byte '{' :: (key ++ closing)).length = key.length + 3 := by simp [closing]
  rw [hlength, List.cons_append, List.append_assoc] at hdealt
  refine (expand_of_key? (key?_token hkey t)).trans ?_
  rw [hvalue, expand, ← hdealt]
  rfl

end FlutterScaffold.Template
