import Mathlib.Data.List.TFAE
import Mathlib.Tactic.TFAE
import FlutterScaffold.Proofs.Name.Distinct
import FlutterScaffold.Proofs.Registry.Spelling
import FlutterScaffold.Registry.Patch

/-!
# What the routes of two features share

Two features get along in one registry when their routes have nothing in common that must be
declared once. They share the identifier, the constant of the path, the entry of the list and the
class of the page together, exactly when their snake forms differ in no more than underscores in
front of digits (`shared_spellings_tfae`).
-/

namespace FlutterScaffold.Registry

open FlutterScaffold.Name (validate closeDigits)

section Entries

variable {spec : AnchorSpec} {route route' : Route}

/-- An entry tells the constants it refers to and the page it builds. -/
theorem entryLines_inj :
    entryLines spec route = entryLines spec route' ↔
      route.symbol = route'.symbol ∧ route.widget = route'.widget := by
  constructor
  · intro h
    simp only [entryLines, List.cons.injEq, List.append_assoc, List.append_cancel_left_eq,
      List.append_cancel_right_eq, and_true, true_and] at h
    exact ⟨h.1, h.2.2⟩
  · rintro ⟨hsymbol, hwidget⟩
    rw [entryLines, entryLines, hsymbol, hwidget]

end Entries

/-- The features of two usable names share all that their snake forms share without the underscores
in front of digits, or nothing. -/
theorem shared_spellings_tfae {text text' : Text} {name name' : Name} (h : validate text = .ok name)
    (h' : validate text' = .ok name') (spec : AnchorSpec) (importPath importPath' : Text) :
    let route := Route.ofFeature name importPath
    let route' := Route.ofFeature name' importPath'
    [name.identifier = name'.identifier,
      name.typeName = name'.typeName,
      route.symbol = route'.symbol,
      entryLines spec route = entryLines spec route',
      route.widget = route'.widget,
      closeDigits name.snake = closeDigits name'.snake].TFAE := by
  intro route route'
  have htype := Name.typeName_eq_iff h h'
  tfae_have 1 ↔ 6 := Name.identifier_eq_iff_closeDigits h h'
  tfae_have 1 ↔ 2 := htype.symm
  tfae_have 1 ↔ 3 := Iff.rfl
  tfae_have 2 ↔ 5 := (List.append_left_inj (lit "Page")).symm
  tfae_have 4 → 3 := fun heq => (entryLines_inj.mp heq).1
  tfae_have 3 → 4 := fun heq =>
    entryLines_inj.mpr ⟨heq, congrArg (· ++ lit "Page") (htype.mpr heq)⟩
  tfae_finish

/-- The names `oauth_2_login` and `oauth2login` differ by more than an underscore in front of a
digit, so their features share nothing. -/
theorem shared_spellings_tfae_oauth :
    let name : Name := ⟨[lit "oauth", lit "2", lit "login"]⟩
    let name' : Name := ⟨[lit "oauth2login"]⟩
    validate (lit "oauth_2_login") = .ok name ∧ validate (lit "oauth2login") = .ok name' ∧
      name.identifier ≠ name'.identifier ∧ name.typeName ≠ name'.typeName ∧
      entryLines {} (Route.ofFeature name (lit "a.dart")) ≠
        entryLines {} (Route.ofFeature name' (lit "b.dart")) := by
  intro name name'
  have h : validate (lit "oauth_2_login") = .ok name := by rfl
  have h' : validate (lit "oauth2login") = .ok name' := by rfl
  have hall := shared_spellings_tfae h h' {} (lit "a.dart") (lit "b.dart")
  have hne : closeDigits name.snake ≠ closeDigits name'.snake := by decide
  exact ⟨h, h', mt (hall.out 0 5).mp hne, mt (hall.out 1 5).mp hne, mt (hall.out 3 5).mp hne⟩

/-- The features of `a1` and `a_1` live in different directories and share their spellings: where
the first is registered, the entry of the second counts as present. -/
theorem shared_spellings_of_digit :
    let name : Name := ⟨[lit "a1"]⟩
    let name' : Name := ⟨[lit "a", lit "1"]⟩
    let doc := lit "import 'a';\nclass Router \x7b\n  static const String bName = 'b';\n\x7d\n" ++
      lit "routes: [\n]\n"
    let first := patch {} .atomic doc (Route.ofFeature name (lit "a1.dart"))
    let second := patch {} .atomic first.text (Route.ofFeature name' (lit "a_1.dart"))
    validate (lit "a1") = .ok name ∧ validate (lit "a_1") = .ok name' ∧
      name.snake ≠ name'.snake ∧ name.identifier = name'.identifier ∧
      name.typeName = name'.typeName ∧ first.detail = .full ∧
      second.importStatus = some .inserted ∧ second.entryStatus = some .present := by
  decide +kernel

end FlutterScaffold.Registry
