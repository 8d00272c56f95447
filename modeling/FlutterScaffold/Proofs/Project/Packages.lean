import FlutterScaffold.Proofs.Project.Section

/-!
# The packages of a pubspec

The dependency lines are added as one block, and one package stands for all of them: nothing asks
which packages the section lists already. So where they are added the section lists each package
once more than before, and where the landmark is mentioned anywhere it lists what it listed
(`sectionKeys_withDependencies?`). A package that was listed is then there twice, and one that was
not stays away when only a comment names the landmark.
-/

namespace FlutterScaffold.Project.Pubspec

open Byte (newline isBlank isMargin)
open Text (after? indexOf? lines lines_of_not_mem lines_append_cons)

/-- The key of a line that is indented by two spaces: what stands in front of its first colon. More
blanks, a comment or a colon start no key. -/
def keyOf? (line : Text) : Option Text := do
  let entry ← after? (lit "  ") line
  if entry.head?.any fun b => isBlank b || b == byte '#' || b == byte ':' then none
  else (indexOf? (lit ":") entry).map entry.take

/-- Whether a line ends the section above it: it starts with neither a margin nor a comment. -/
def isTopLevel (line : Text) : Bool := line.head?.any fun b => !isMargin b && b != byte '#'

/-- The lines of the section: those below the line that opens it, up to the next at the top
level. -/
def sectionLines (t : Text) : List Text :=
  (((lines t).dropWhile (!opensSection ·)).drop 1).takeWhile (!isTopLevel ·)

/-- The keys that the section lists, each as often as it does. -/
def sectionKeys (t : Text) : List Text := (sectionLines t).filterMap keyOf?

/-- The packages that the dependency lines list. -/
def packages : List Text := (lines dependencies).filterMap keyOf?

theorem packages_eq : packages =
    ["flutter_riverpod", "riverpod_annotation", "go_router", "dio", "curl_logger_dio_interceptor",
      "shared_preferences", "dartz", "equatable", "logger"].map lit := by
  simp only [packages, dependencies, List.flatMap_cons, List.flatMap_nil, List.map_cons,
    List.map_nil]
  repeat rw [lit_ofList]
  decide

section Section

variable {t r l : Text} {n : Nat}

theorem sectionLines_append_cons (hl : newline ∉ l) (rest : Text) :
    sectionLines (l ++ newline :: rest) =
      if opensSection l then (lines rest).takeWhile (!isTopLevel ·) else sectionLines rest := by
  rw [sectionLines, sectionLines, lines_append_cons hl, List.dropWhile_cons]
  cases opensSection l <;> rfl

/-- None of the dependency lines ends the section, and their keys are the packages, each once. -/
theorem exists_dependencyLines : ∃ content : List Text,
    dependencies.drop 1 = content.flatMap (· ++ [newline]) ∧ (∀ l ∈ content, newline ∉ l) ∧
      (∀ l ∈ content, !isTopLevel l) ∧ content.filterMap keyOf? = packages ∧ packages.Nodup := by
  refine ⟨((lines dependencies).drop 1).dropLast, ?_⟩
  simp only [packages, dependencies, List.flatMap_cons, List.flatMap_nil]
  repeat rw [lit_ofList]
  decide +kernel

theorem sectionKeys_dependencies_append (rest : Text) :
    ((lines (dependencies.drop 1 ++ rest)).takeWhile (!isTopLevel ·)).filterMap keyOf? =
      packages ++ ((lines rest).takeWhile (!isTopLevel ·)).filterMap keyOf? := by
  obtain ⟨content, hcontent, hbare, hbelow, hpackages, -⟩ := exists_dependencyLines
  rw [hcontent, Text.lines_flatMap_append hbare, List.takeWhile_append_of_pos hbelow,
    List.filterMap_append, hpackages]

/-- What is written behind the line that opens the section is listed first. Either the first line
opens the section, or the section lies in the lines below it. -/
theorem sectionKeys_insert (h : sectionEnd? t = some n) :
    sectionKeys (t.take n ++ dependencies.drop 1 ++ t.drop n) = packages ++ sectionKeys t := by
  induction t using Text.induction_on_lines generalizing n with
  | last l hl => simp [sectionEnd?_of_not_mem hl] at h
  | line l rest hl ih =>
    have htake (m : Nat) : (l ++ newline :: rest).take (m + (l.length + 1)) =
        l ++ newline :: rest.take m := by
      rw [Nat.add_comm, Nat.add_assoc, Nat.add_comm 1, List.take_length_add_append,
        List.take_succ_cons]
    have hdrop (m : Nat) : (l ++ newline :: rest).drop (m + (l.length + 1)) = rest.drop m := by
      rw [Nat.add_comm, Nat.add_assoc, Nat.add_comm 1, List.drop_length_add_append,
        List.drop_succ_cons]
    rw [sectionEnd?_append_cons hl] at h
    split at h
    · rename_i hopens
      obtain rfl := Option.some.inj h
      rw [← Nat.zero_add (l.length + 1), htake, hdrop, List.take_zero, List.drop_zero,
        List.append_assoc, List.append_assoc, List.cons_append, List.nil_append, sectionKeys,
        sectionKeys, sectionLines_append_cons hl, sectionLines_append_cons hl, if_pos hopens,
        if_pos hopens, sectionKeys_dependencies_append]
    · rename_i hopens
      obtain ⟨m, hm, rfl⟩ := Option.map_eq_some_iff.mp h
      have hrest := ih hm
      rw [sectionKeys, sectionKeys] at hrest ⊢
      rw [htake, hdrop, List.append_assoc, List.append_assoc, List.cons_append,
        sectionLines_append_cons hl, sectionLines_append_cons hl, if_neg hopens, if_neg hopens,
        ← List.append_assoc, hrest]

end Section

/-- A pubspec that mentions the landmark is kept. In any other that has a section, the section then
lists all packages, each of them once, and behind them what it listed before. So a package is listed
exactly once if it was before and the pubspec was kept, or if it was not and the lines were
added. -/
theorem sectionKeys_withDependencies? {t r : Text} (h : withDependencies? t = some r) :
    sectionKeys r = (if landmark <:+: t then [] else packages) ++ sectionKeys t ∧
      packages.Nodup ∧ (landmark <:+: t → r = t) ∧
      ∀ p ∈ packages, (sectionKeys r).count p = 1 ↔
        (sectionKeys t).count p = if landmark <:+: t then 1 else 0 := by
  obtain ⟨-, -, -, -, -, hnodup⟩ := exists_dependencyLines
  have hkept (hmark : landmark <:+: t) : r = t := by
    rw [withDependencies?_of_landmark hmark] at h
    exact (Option.some.inj h).symm
  have hkeys : sectionKeys r = (if landmark <:+: t then [] else packages) ++ sectionKeys t := by
    split
    · rename_i hmark
      rw [hkept hmark, List.nil_append]
    · rename_i hmark
      rw [withDependencies?_of_not_landmark hmark] at h
      obtain ⟨n, hn, rfl⟩ := Option.map_eq_some_iff.mp h
      exact sectionKeys_insert hn
  refine ⟨hkeys, hnodup, hkept, fun p hp => ?_⟩
  rw [hkeys, List.count_append]
  split
  · simp
  · rw [List.count_eq_one_of_mem hnodup hp]
    omega

/-- Other keys of the section stay behind the packages, and other sections are left alone. -/
theorem sectionKeys_withDependencies?_new_project :
    let t := lit "name: shop\ndependencies: \r\n  flutter:\n    sdk: flutter\n\n  # later\n" ++
      lit "  http: any\ndev_dependencies:\n  dio: any\n"
    ∃ r, withDependencies? t = some r ∧ sectionKeys r = packages ++ [lit "flutter", lit "http"] ∧
      (sectionKeys r).count (lit "dio") = 1 := by
  rw [lit_ofList, lit_ofList]
  intro t
  have hdio : lit "dio" ∈ packages := packages_eq ▸ List.mem_map_of_mem (by simp)
  have hkeys : sectionKeys t = [lit "flutter", lit "http"] := by decide
  have hmissing : lit "dio" ∉ sectionKeys t := by
    rw [hkeys]
    decide
  have hmark : ¬ landmark <:+: t := by decide +kernel
  obtain ⟨r, hr⟩ : ∃ r, withDependencies? t = some r :=
    Option.isSome_iff_exists.mp (by decide +kernel)
  obtain ⟨hr', -, -, honce⟩ := sectionKeys_withDependencies? hr
  rw [if_neg hmark, hkeys] at hr'
  refine ⟨r, hr, hr', (honce _ hdio).mpr ?_⟩
  rw [if_neg hmark, List.count_eq_zero.mpr hmissing]

/-- A comment that names the landmark keeps all packages away. -/
example :
    let t := lit "dependencies:\n# flutter_riverpod: later\n"
    withDependencies? t = some t ∧ sectionKeys t = [] := by decide +kernel

end FlutterScaffold.Project.Pubspec
