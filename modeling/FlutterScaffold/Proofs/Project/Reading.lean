import FlutterScaffold.Proofs.Project.Values

/-!
# What a manifest says

A line of a manifest says nothing, or it gives a setting: a directive and its value. A manifest is
accepted exactly when each of its lines does one or the other, no directive is given twice and every
value is allowed, and then the settings are the ones given, and those that hold without the manifest
for all other directives (`parse_eq_ok_iff`). So the order of the lines does not matter
(`makes_iff_of_perm`), and the settings can be given by a manifest again (`spells_of_parse`).
-/

namespace FlutterScaffold.Project.Manifest

open Byte (newline)
open FlutterScaffold.Text (lines)

/-- The setting that a line gives. -/
def setting? (line : Text) : Option (Directive × Text) :=
  (halves? (content line)).bind fun (word, value) => (Directive.ofWord? word).map (·, value)

/-- The settings that lines give, in their order. -/
def settings (content : List Text) : List (Directive × Text) := content.filterMap setting?

/-- Whether a line says nothing or gives a setting. -/
def Understood (line : Text) : Prop := Silent line ∨ (setting? line).isSome

/-- The text that is written from lines, with or without a newline behind the last of them. -/
def IsTextOf (content : List Text) (text : Text) : Prop :=
  text = content.flatMap (· ++ [newline]) ∨ text = List.intercalate [newline] content

/-- Lines that make settings out of those that have been read so far. -/
structure Makes (progress : Progress) (content : List Text) (config : Config) : Prop where
  understood : ∀ line ∈ content, Understood line
  nodup : ((settings content).map Prod.fst).Nodup
  unseen : ∀ s ∈ settings content, s.1 ∉ progress.seen
  allowed : ∀ s ∈ settings content, (progress.config.assign s.1 s.2).isOk
  given : ∀ s ∈ settings content, config.value s.1 = s.2
  kept : ∀ d ∉ (settings content).map Prod.fst, config.value d = progress.config.value d
  root_eq : config.root = progress.config.root

/-! ## One line -/

section Line

variable {line value : Text} {directive : Directive} {progress : Progress}

/-- A line gives a setting exactly when its content is the word of a directive, a gap and a
value. -/
theorem setting?_eq_some_iff : setting? line = some (directive, value) ↔
    halves? (content line) = some (directive.word, value) := by
  simp only [setting?, Option.bind_eq_some_iff, Option.map_eq_some_iff, Prod.mk.injEq, Prod.exists]
  constructor
  · rintro ⟨word, value', hhalves, directive', hword, rfl, rfl⟩
    obtain rfl : directive'.word = word := by simpa using List.find?_some hword
    exact hhalves
  · intro hhalves
    exact ⟨directive.word, value, hhalves, directive, Directive.ofWord?_word directive, rfl, rfl⟩

/-- A line that says nothing gives no setting. -/
theorem setting?_of_silent (h : Silent line) : setting? line = none := by
  cases hset : setting? line with
  | none => rfl
  | some s => exact absurd h (not_silent_of_halves? (setting?_eq_some_iff.mp hset))

/-- A line that says nothing adds no setting. -/
theorem settings_cons_of_silent (h : Silent line) (content : List Text) :
    settings (line :: content) = settings content :=
  List.filterMap_cons_none (setting?_of_silent h)

/-- A line that gives a setting adds it in front of those below. -/
theorem settings_cons_of_some (h : setting? line = some (directive, value)) (content : List Text) :
    settings (line :: content) = (directive, value) :: settings content :=
  List.filterMap_cons_some h

namespace Progress

/-- A line that says nothing is read without effect. -/
theorem read_of_silent (h : Silent line) : progress.read line = .ok progress :=
  if_pos (by simpa [Silent] using h)

/-- A line that gives a setting makes it, unless its directive was seen before. -/
theorem read_of_setting? (h : setting? line = some (directive, value)) :
    progress.read line =
      if directive ∈ progress.seen then .error (.duplicate directive)
      else (progress.config.assign directive value).map (⟨·, directive :: progress.seen⟩) := by
  have hhalves := setting?_eq_some_iff.mp h
  have hnot : ¬ ((content line).isEmpty || (content line).head? = some (byte '#')) = true := by
    simpa [Silent] using not_silent_of_halves? hhalves
  simp only [read, if_neg hnot, hhalves, Directive.ofWord?_word, List.contains_iff_mem]

/-- A line that is read says nothing or gives a setting. -/
theorem understood_of_read {next : Progress} (h : progress.read line = .ok next) :
    Understood line := by
  rcases read_cases h with ⟨-, hsilent⟩ | ⟨directive, value, config, hhalves, -, -, -⟩
  · exact Or.inl hsilent
  · exact Or.inr (by rw [setting?_eq_some_iff.mpr hhalves]; rfl)

end Progress

end Line

/-! ## All lines -/

section Lines

variable {progress : Progress} {line value text : Text} {content content' : List Text}
  {config : Config} {directive : Directive}

/-- The order of lines does not matter, nor do those that say nothing. -/
theorem Makes.of_perm (h : Makes progress content config)
    (hunderstood : ∀ line ∈ content', Understood line)
    (hperm : (settings content').Perm (settings content)) : Makes progress content' config where
  understood := hunderstood
  nodup := (hperm.map Prod.fst).nodup_iff.mpr h.nodup
  unseen := fun s hs => h.unseen s (hperm.mem_iff.mp hs)
  allowed := fun s hs => h.allowed s (hperm.mem_iff.mp hs)
  given := fun s hs => h.given s (hperm.mem_iff.mp hs)
  kept := fun d hd => h.kept d (mt (hperm.map Prod.fst).mem_iff.mpr hd)
  root_eq := h.root_eq

/-- What lines make does not depend on their order. -/
theorem makes_iff_of_perm (h : content'.Perm content) :
    Makes progress content' config ↔ Makes progress content config := by
  have hsettings : (settings content').Perm (settings content) := h.filterMap _
  constructor
  · intro hmakes
    exact hmakes.of_perm (fun line hline => hmakes.understood line (h.mem_iff.mpr hline))
      hsettings.symm
  · intro hmakes
    exact hmakes.of_perm (fun line hline => hmakes.understood line (h.mem_iff.mp hline)) hsettings

theorem makes_nil_iff : Makes progress [] config ↔ progress.config = config := by
  constructor
  · intro h
    exact Config.eq_of_value_eq (fun d => (h.kept d (by simp [settings])).symm) h.root_eq.symm
  · rintro rfl
    constructor <;> simp [settings]

/-- A line that says nothing can be left out of what makes the settings. -/
theorem makes_cons_of_silent (h : Silent line) :
    Makes progress (line :: content) config ↔ Makes progress content config := by
  have hperm : (settings (line :: content)).Perm (settings content) := by
    rw [settings_cons_of_silent h]
  constructor
  · intro hmakes
    exact hmakes.of_perm (List.forall_mem_cons.mp hmakes.understood).2 hperm.symm
  · intro hmakes
    exact hmakes.of_perm (List.forall_mem_cons.mpr ⟨Or.inl h, hmakes.understood⟩) hperm

/-- Behind a setting that is made, lines make the settings that are left. -/
theorem Makes.behind (h : Makes progress (line :: content) config)
    (hline : setting? line = some (directive, value)) {changed : Config}
    (hassign : progress.config.assign directive value = .ok changed) :
    Makes ⟨changed, directive :: progress.seen⟩ content config := by
  obtain ⟨hunderstood, hnodup, hunseen, hallowed, hgiven, hkept, hroot⟩ := h
  rw [settings_cons_of_some hline] at hnodup hunseen hallowed hgiven hkept
  obtain ⟨hnot, hnodup⟩ := List.nodup_cons.mp hnodup
  obtain ⟨hvalue, hgiven⟩ := List.forall_mem_cons.mp hgiven
  obtain ⟨hmade, hother, hsame⟩ := Config.value_of_assign hassign
  refine ⟨(List.forall_mem_cons.mp hunderstood).2, hnodup, fun s hs hmem => ?_, fun s hs => ?_,
    hgiven,
    fun d hd => ?_, hroot.trans hsame.symm⟩
  · rcases List.mem_cons.mp hmem with heq | hmem
    · exact hnot (List.mem_map.mpr ⟨s, hs, heq⟩)
    · exact (List.forall_mem_cons.mp hunseen).2 s hs hmem
  · rw [Config.isOk_assign_eq _ progress.config]
    exact (List.forall_mem_cons.mp hallowed).2 s hs
  · by_cases heq : d = directive
    · rw [heq, hmade]
      exact hvalue
    · rw [hother d heq]
      exact hkept d (by simpa [heq] using hd)

/-- A setting that was not made before is made in front of the others. -/
theorem Makes.cons {changed : Config}
    (h : Makes ⟨changed, directive :: progress.seen⟩ content config)
    (hline : setting? line = some (directive, value)) (hfresh : directive ∉ progress.seen)
    (hassign : progress.config.assign directive value = .ok changed) :
    Makes progress (line :: content) config := by
  obtain ⟨hunderstood, hnodup, hunseen, hallowed, hgiven, hkept, hroot⟩ := h
  obtain ⟨hmade, hother, hsame⟩ := Config.value_of_assign hassign
  have hnot : directive ∉ (settings content).map Prod.fst := by
    intro hmem
    obtain ⟨s, hs, rfl⟩ := List.mem_map.mp hmem
    exact hunseen s hs (List.mem_cons_self ..)
  have hsome : (setting? line).isSome := by
    rw [hline]
    rfl
  have hok : (progress.config.assign directive value).isOk := by
    rw [hassign]
    rfl
  refine ⟨List.forall_mem_cons.mpr ⟨Or.inr hsome, hunderstood⟩, ?_, ?_, ?_, ?_, ?_,
    hroot.trans hsame⟩ <;> rw [settings_cons_of_some hline]
  · exact List.nodup_cons.mpr ⟨hnot, hnodup⟩
  · exact List.forall_mem_cons.mpr
      ⟨hfresh, fun s hs hmem => hunseen s hs (List.mem_cons_of_mem _ hmem)⟩
  · refine List.forall_mem_cons.mpr ⟨hok, fun s hs => ?_⟩
    rw [Config.isOk_assign_eq _ changed]
    exact hallowed s hs
  · exact List.forall_mem_cons.mpr ⟨(hkept directive hnot).trans hmade, hgiven⟩
  · intro d hd
    obtain ⟨hne, hd⟩ := not_or.mp (mt List.mem_cons.mpr hd)
    exact (hkept d hd).trans (hother d hne)

/-- The first setting is made, and the lines behind it make the others. -/
theorem makes_cons_of_setting? (h : setting? line = some (directive, value)) :
    Makes progress (line :: content) config ↔ directive ∉ progress.seen ∧
      ∃ changed, progress.config.assign directive value = .ok changed ∧
        Makes ⟨changed, directive :: progress.seen⟩ content config := by
  constructor
  · intro hmakes
    have hmem : (directive, value) ∈ settings (line :: content) := by
      rw [settings_cons_of_some h]
      exact List.mem_cons_self ..
    obtain ⟨changed, hassign⟩ := Config.exists_assign_of_isOk (hmakes.allowed _ hmem)
    exact ⟨hmakes.unseen _ hmem, changed, hassign, hmakes.behind h hassign⟩
  · rintro ⟨hfresh, changed, hassign, hmakes⟩
    exact hmakes.cons h hfresh hassign

/-- Lines are read to their end exactly when they make the settings that are read. -/
theorem readAll_eq_ok_iff (number : Nat) :
    (∃ final, progress.readAll number content = .ok final ∧ final.config = config) ↔
      Makes progress content config := by
  induction content generalizing progress number with
  | nil =>
    rw [makes_nil_iff]
    simp [Progress.readAll]
  | cons line content ih =>
    by_cases hsilent : Silent line
    · rw [makes_cons_of_silent hsilent, Progress.readAll, Progress.read_of_silent hsilent]
      exact ih _
    · cases hset : setting? line with
      | none =>
        have hnot : ¬ Understood line := by simp [Understood, hsilent, hset]
        refine iff_of_false ?_ fun h => hnot (h.understood line (List.mem_cons_self ..))
        rintro ⟨final, hfinal, -⟩
        rw [Progress.readAll] at hfinal
        split at hfinal
        · simp at hfinal
        · rename_i next hread
          exact hnot (Progress.understood_of_read hread)
      | some s =>
        obtain ⟨directive, value⟩ := s
        rw [makes_cons_of_setting? hset, Progress.readAll, Progress.read_of_setting? hset]
        by_cases hseen : directive ∈ progress.seen
        · simp [hseen]
        · rw [if_neg hseen]
          cases hassign : progress.config.assign directive value with
          | error fault => simp [Except.map]
          | ok changed =>
            simp only [Except.map, hseen, not_false_eq_true, true_and, Except.ok.injEq,
              exists_eq_left']
            exact ih _

/-- Lines are read back from their text, perhaps with an empty line behind them. -/
theorem IsTextOf.lines_eq (h : IsTextOf content text) (hlines : ∀ line ∈ content, newline ∉ line) :
    lines text = content ∨ lines text = content ++ [[]] := by
  rcases h with rfl | rfl
  · exact Or.inr (Text.cut_flatMap hlines)
  · by_cases hnil : content = []
    · subst hnil
      exact Or.inr rfl
    · exact Or.inl (Text.cut_intercalate hnil hlines)

/-- The text of lines makes the settings that the lines make. -/
theorem IsTextOf.makes_iff (h : IsTextOf content text) (hlines : ∀ line ∈ content, newline ∉ line) :
    Makes progress (lines text) config ↔ Makes progress content config := by
  rcases h.lines_eq hlines with heq | heq
  · rw [heq]
  · have hempty : Silent [] := Or.inl rfl
    rw [heq, makes_iff_of_perm (List.perm_append_singleton [] content), makes_cons_of_silent hempty]

end Lines

/-- A manifest is accepted exactly when its lines make settings out of those that hold without
it. -/
theorem parse_eq_ok_iff {base config : Config} {text : Text} :
    parse base text = .ok config ↔ Makes { config := base } (lines text) config := by
  rw [← readAll_eq_ok_iff 1, parse]
  cases Progress.readAll { config := base } 1 (lines text) with
  | error fault => simp [Except.map]
  | ok final => simp [Except.map]

/-- What a manifest makes of the defaults can be given by a manifest, but for a name that none of
its lines gives. -/
theorem spells_of_parse {name text : Text} {root : Path} {config : Config}
    (h : parse { name := name, root := root } text = .ok config) :
    config.root = root ∧ ∀ d, d ≠ .project ∨ Mentions text d → config.Spells d := by
  have hmakes := parse_eq_ok_iff.mp h
  refine ⟨hmakes.root_eq, ?_⟩
  intro d hd
  by_cases hmem : d ∈ (settings (lines text)).map Prod.fst
  · obtain ⟨s, hs, rfl⟩ := List.mem_map.mp hmem
    obtain ⟨line, hline, hset⟩ := List.mem_filterMap.mp hs
    have hvalue := isValue_of_halves? (Text.not_mem_of_mem_cut hline) (setting?_eq_some_iff.mp hset)
    have hok := hmakes.allowed s hs
    rw [Config.isOk_assign_eq _ config] at hok
    rw [← hmakes.given s hs] at hvalue hok
    exact ⟨hvalue, hok⟩
  · have hne : d ≠ .project := by
      refine hd.resolve_right ?_
      rintro ⟨line, hline, value, hhalves⟩
      have hset : (d, value) ∈ settings (lines text) :=
        List.mem_filterMap.mpr ⟨line, hline, setting?_eq_some_iff.mpr hhalves⟩
      exact hmem (List.mem_map_of_mem hset)
    exact (Config.spells_of_default name root hne).congr (hmakes.kept d hmem)

end FlutterScaffold.Project.Manifest
