import FlutterScaffold.Proofs.Text.Bytes
import FlutterScaffold.Proofs.Text.Lines
import FlutterScaffold.Project.Loading

/-!
# The values that a manifest sets

A value is what is left of a line when the directive and the bytes around are taken away, so it is
never empty, stands in one line, and has no blank in front and no layout behind (`IsValue`). A step
over a line changes nothing, or it sets one directive to such a value (`Progress.read_cases`).
-/

namespace FlutterScaffold.Project

open Byte (newline isBlank isMargin isLayout)
open FlutterScaffold.Text (lines)

/-- The texts that a line of a manifest can give as a value. -/
structure IsValue (value : Text) : Prop where
  ne_nil : value ≠ []
  head_bare : ∀ b ∈ value.head?, isBlank b = false
  last_bare : ∀ b ∈ value.getLast?, isLayout b = false
  newline_not_mem : newline ∉ value

namespace Config

variable {config config' : Config} {directive : Directive} {value : Text}

/-- A setting changes its own value and no other one. The project's name is always taken, a policy
is read from its word, and every other value is taken as it is once it passes a check. -/
theorem value_of_assign (h : config.assign directive value = .ok config') :
    config'.value directive = value ∧
      (∀ d ≠ directive, config'.value d = config.value d) ∧ config'.root = config.root := by
  have hpolicy : ∀ policy, Registry.Policy.ofWord? value = some policy → policy.word = value := by
    intro policy hp
    rw [Registry.Policy.ofWord?] at hp
    split at hp
    · rename_i hw
      rw [hw, ← Option.some.inj hp]
    · split at hp
      · rename_i hw
        rw [hw, ← Option.some.inj hp]
      · simp at hp
  cases directive <;> simp only [assign] at h
  case project =>
    obtain rfl := Except.ok.inj h
    exact ⟨rfl, fun d hd => by cases d <;> first | rfl | exact absurd rfl hd, rfl⟩
  case patchMode =>
    split at h
    · rename_i policy hp
      obtain rfl := Except.ok.inj h
      exact ⟨hpolicy policy hp, fun d hd => by cases d <;> first | rfl | exact absurd rfl hd, rfl⟩
    · simp at h
  all_goals
    split at h
    · obtain rfl := Except.ok.inj h
      exact ⟨rfl, fun d hd => by cases d <;> first | rfl | exact absurd rfl hd, rfl⟩
    · simp at h

/-- Whether a value is allowed does not depend on the settings made before. -/
theorem isOk_assign_eq (config config' : Config) (directive : Directive) (value : Text) :
    (config.assign directive value).isOk = (config'.assign directive value).isOk := by
  cases directive <;> simp only [assign] <;> first | rfl | split <;> rfl

/-- An allowed value makes its setting. -/
theorem exists_assign_of_isOk (h : (config.assign directive value).isOk) :
    ∃ changed, config.assign directive value = .ok changed := by
  cases hassign : config.assign directive value with
  | error fault => simp [hassign, Except.isOk, Except.toBool] at h
  | ok changed => exact ⟨changed, rfl⟩

/-- Settings are told by their values and their directory. -/
theorem eq_of_value_eq (h : ∀ d, config.value d = config'.value d)
    (hroot : config.root = config'.root) :
    config = config' := by
  obtain ⟨name, root, router, ⟨routerClass, listToken⟩, features, widgets, providers, policy⟩ :=
    config
  obtain ⟨name', root', router', ⟨routerClass', listToken'⟩, features', widgets', providers',
    policy'⟩ := config'
  have hpolicy : policy = policy' := by
    have hword := congrArg Registry.Policy.ofWord? (h .patchMode)
    simp only [value, Registry.Policy.ofWord?_word] at hword
    exact Option.some.inj hword
  have hname : name = name' := h .project
  have hrouter : router = router' := h .router
  have hclass : routerClass = routerClass' := h .routerClass
  have htoken : listToken = listToken' := h .routesAnchor
  have hfeatures : features = features' := h .features
  have hwidgets : widgets = widgets' := h .widgets
  have hproviders : providers = providers' := h .providers
  have hdir : root = root' := hroot
  rw [hpolicy, hname, hrouter, hclass, htoken, hfeatures, hwidgets, hproviders, hdir]

/-- A manifest can give the settings as they are for a directive. -/
structure Spells (config : Config) (directive : Directive) : Prop where
  isValue : IsValue (config.value directive)
  isOk : (config.assign directive (config.value directive)).isOk

theorem Spells.congr (h : config.Spells directive)
    (heq : config'.value directive = config.value directive) : config'.Spells directive := by
  refine ⟨heq ▸ h.isValue, ?_⟩
  rw [heq, isOk_assign_eq config' config]
  exact h.isOk

/-- Every default can be given by a manifest. -/
theorem spells_of_default (name : Text) (root : Path) (h : directive ≠ .project) :
    ({ name := name, root := root } : Config).Spells directive := by
  cases directive
  case project => exact absurd rfl h
  all_goals
    refine Spells.congr (?_ : Config.Spells {} _) rfl
    exact ⟨⟨by decide, by decide +kernel, by decide +kernel, by decide⟩, by decide⟩

end Config

namespace Manifest

/-! ## Lines -/

/-- A line whose ends are bare is its own content. -/
theorem content_eq_self {line : Text} (hhead : ∀ b ∈ line.head?, isMargin b = false)
    (hlast : ∀ b ∈ line.getLast?, isLayout b = false) : content line = line := by
  have hstart : Text.trimStart isMargin line = line := by
    cases line with
    | nil => rfl
    | cons b rest => simp [Text.trimStart, hhead b rfl]
  rw [content, hstart, Text.trimEnd]
  rcases List.eq_nil_or_concat line with rfl | ⟨init, b, rfl⟩
  · rfl
  · simp [hlast b (by simp)]

/-- The content of a line ends with a bare byte. -/
theorem last_content {line : Text} {b : Byte} (h : (content line).getLast? = some b) :
    isLayout b = false := by
  rw [content, Text.trimEnd, List.getLast?_reverse] at h
  have hdrop := List.head?_dropWhile_not isLayout (Text.trimStart isMargin line).reverse
  rw [h] at hdrop
  exact hdrop

theorem newline_not_mem_content {line : Text} (h : newline ∉ line) : newline ∉ content line := by
  intro hmem
  rw [content, Text.trimEnd, List.mem_reverse] at hmem
  have hstart := List.mem_reverse.mp ((List.dropWhile_suffix _).mem hmem)
  exact h ((List.dropWhile_suffix _).mem hstart)

/-- A directive is a word of one line without blanks. -/
theorem word_bare (directive : Directive) :
    (∀ b ∈ directive.word, isBlank b = false ∧ b ≠ newline) ∧
      ∃ b rest, directive.word = b :: rest ∧ isMargin b = false ∧ b ≠ byte '#' := by
  constructor
  · have hall : directive.word.all (fun b => !isBlank b && b != newline) = true := by
      cases directive <;> decide
    simpa using hall
  · cases directive <;> exact ⟨_, _, rfl, by decide, by decide⟩

/-- A word and all that stands behind the blanks after it are read as the two halves. -/
theorem halves?_append {word gap : Text} (hword : ∀ b ∈ word, isBlank b = false)
    (hgap : ∀ b ∈ gap, isBlank b) (hne : gap ≠ []) (rest : Text) :
    halves? (word ++ (gap ++ rest)) = some (word, rest.dropWhile isBlank) := by
  have hnot : ∀ b ∈ word, (!isBlank b) = true := fun b hb => by rw [hword b hb]; rfl
  obtain ⟨b, more, rfl⟩ := List.exists_cons_of_ne_nil hne
  have hb : isBlank b = true := hgap b (List.mem_cons_self ..)
  have hrest : ((b :: more) ++ rest).dropWhile isBlank = rest.dropWhile isBlank :=
    List.dropWhile_append_of_pos hgap
  have hstop : ((b :: more) ++ rest).dropWhile (!isBlank ·) = (b :: more) ++ rest := by
    simp [hb]
  rw [halves?, if_pos (by simp [hb]), List.takeWhile_append_of_pos hnot,
    List.dropWhile_append_of_pos hnot, hstop, hrest]
  simp [hb]

/-- What is read behind a directive is a value. Were it all blanks, the content of the line would
end in one. -/
theorem isValue_of_halves? {line word value : Text} (hline : newline ∉ line)
    (h : halves? (content line) = some (word, value)) : IsValue value := by
  rw [halves?] at h
  split at h
  · rename_i hany
    obtain ⟨-, rfl⟩ := Prod.mk.inj (Option.some.inj h)
    set rest := (content line).dropWhile (!isBlank ·) with hrest
    have hsuffix : rest.dropWhile isBlank <:+ content line :=
      (List.dropWhile_suffix _).trans (List.dropWhile_suffix _)
    have hne : rest.dropWhile isBlank ≠ [] := by
      intro hnil
      rw [List.dropWhile_eq_nil_iff] at hnil
      obtain ⟨b, hb, hblank⟩ := List.any_eq_true.mp hany
      have hrestne : rest ≠ [] := by
        intro hrestnil
        have hall := List.dropWhile_eq_nil_iff.mp hrestnil b hb
        simp [hblank] at hall
      have hlast := last_content (b := rest.getLast hrestne) (by
        obtain ⟨init, hinit⟩ := (List.dropWhile_suffix _ : rest <:+ content line)
        rw [← hinit, List.getLast?_append_of_ne_nil _ hrestne,
          List.getLast?_eq_getLast_of_ne_nil hrestne])
      have hlayout : ∀ b, isBlank b → isLayout b = true := by decide +kernel
      rw [hlayout _ (hnil _ (List.getLast_mem hrestne))] at hlast
      exact absurd hlast (by decide)
    refine ⟨hne, fun b hb => ?_, fun b hb => ?_, fun hmem => ?_⟩
    · have hhead := List.head?_dropWhile_not isBlank rest
      rw [Option.mem_def.mp hb] at hhead
      exact hhead
    · obtain ⟨init, hinit⟩ := hsuffix
      have hlast : (content line).getLast? = some b := by
        rw [← hinit, List.getLast?_append_of_ne_nil _ hne]
        exact hb
      exact last_content hlast
    · exact newline_not_mem_content hline (hsuffix.mem hmem)
  · simp at h

/-! ## Reading a manifest -/

/-- Whether a line has no content or is a comment. -/
def Silent (line : Text) : Prop := content line = [] ∨ (content line).head? = some (byte '#')

/-- A line that gives a directive is neither without content nor a comment. -/
theorem not_silent_of_halves? {line value : Text} {directive : Directive}
    (h : halves? (content line) = some (directive.word, value)) : ¬ Silent line := by
  obtain ⟨-, b, rest, hb, -, hhash⟩ := word_bare directive
  have hhead : (content line).head? = some b := by
    rw [halves?] at h
    split at h
    · obtain ⟨htake, -⟩ := Prod.mk.inj (Option.some.inj h)
      obtain ⟨more, hmore⟩ := List.takeWhile_prefix (!isBlank ·) (l := content line)
      rw [← hmore, htake, hb]
      rfl
    · simp at h
  rintro (hnil | hcomment)
  · rw [hnil] at hhead
    simp at hhead
  · rw [hcomment] at hhead
    exact hhash (Option.some.inj hhead).symm

/-- Whether a line of the text gives a directive. -/
def Mentions (text : Text) (directive : Directive) : Prop :=
  ∃ line ∈ lines text, ∃ value, halves? (content line) = some (directive.word, value)

namespace Progress

variable {progress next : Progress} {line : Text}

/-- A step changes nothing, or it makes the setting of a directive that was not seen before. -/
theorem read_cases (h : progress.read line = .ok next) :
    next = progress ∧ Silent line ∨
      ∃ directive value config, halves? (content line) = some (directive.word, value) ∧
        directive ∉ progress.seen ∧ progress.config.assign directive value = .ok config ∧
        next = ⟨config, directive :: progress.seen⟩ := by
  simp only [read] at h
  split at h
  · rename_i hnothing
    refine Or.inl ⟨(Except.ok.inj h).symm, ?_⟩
    simpa [Silent] using hnothing
  · split at h
    · simp at h
    · rename_i word value hhalves
      split at h
      · simp at h
      · rename_i directive hword
        obtain rfl : directive.word = word := by
          simpa using List.find?_some hword
        split at h
        · simp at h
        · rename_i hnew
          cases hassign : progress.config.assign directive value with
          | error fault => simp [hassign, Except.map] at h
          | ok config =>
            rw [hassign] at h
            exact Or.inr ⟨directive, value, config, hhalves, by simpa using hnew, hassign,
              (Except.ok.inj h).symm⟩

end Progress

end Manifest

/-- Settings that a manifest file makes are read off its text. -/
theorem parse_of_readManifest {host : Disk.Host} {manifest : Path} {config : Config}
    (h : readManifest host manifest = .ok config) :
    ∃ text, host.readFile manifest = .ok text ∧
      Manifest.parse
        (defaults host (if manifest.parent.isEmpty then Path.dot else manifest.parent)) text =
          .ok config := by
  rw [readManifest] at h
  split at h
  · simp at h
  · rename_i text htext
    dsimp only at h
    refine ⟨text, htext, ?_⟩
    cases hparse : Manifest.parse
        (defaults host (if manifest.parent.isEmpty then Path.dot else manifest.parent)) text with
    | error fault =>
      rw [hparse] at h
      simp [Except.mapError] at h
    | ok parsed =>
      rw [hparse] at h
      exact congrArg Except.ok (Except.ok.inj h)

/-- The text of a manifest file that can be parsed makes its settings. -/
theorem readManifest_of_parse {host : Disk.Host} {manifest : Path} {text : Text} {config : Config}
    (htext : host.readFile manifest = .ok text)
    (h : Manifest.parse
      (defaults host (if manifest.parent.isEmpty then Path.dot else manifest.parent)) text =
        .ok config) :
    readManifest host manifest = .ok config := by
  rw [readManifest, htext]
  simp only [h]
  rfl

end FlutterScaffold.Project
