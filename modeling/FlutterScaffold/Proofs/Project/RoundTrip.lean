import FlutterScaffold.Proofs.Disk.Rewriting
import FlutterScaffold.Proofs.Project.Reading

/-!
# A manifest written from settings reads back

Settings that come from a manifest with a name can be given by a manifest again, each directive in a
line of its own, and reading these lines makes the same settings out of whatever was there before
(`Manifest.parse_render`). So the manifest of a project can be replaced by one that is written from
its settings, and the project does not change (`readManifest_writeFile_render`).
-/

namespace FlutterScaffold.Project

open Byte (newline isBlank isMargin isLayout)
open Disk (Host)
open FlutterScaffold.Text (lines)

namespace Manifest

variable {config base : Config}

/-- The line that gives a setting. -/
def settingLine (config : Config) (directive : Directive) : Text :=
  directive.word ++ lit " " ++ config.value directive

/-! ## Lines that are written -/

theorem newline_not_mem_settingLine {directive : Directive} (h : config.Spells directive) :
    newline ∉ settingLine config directive := by
  intro hmem
  rcases List.mem_append.mp hmem with hmem | hmem
  · rcases List.mem_append.mp hmem with hmem | hmem
    · exact ((word_bare directive).1 newline hmem).2 rfl
    · exact absurd hmem (by decide)
  · exact h.isValue.newline_not_mem hmem

/-- The line of a setting gives it. -/
theorem setting?_settingLine {directive : Directive} (h : config.Spells directive) :
    setting? (settingLine config directive) = some (directive, config.value directive) := by
  obtain ⟨hword, b, rest, hb, hmargin, -⟩ := word_bare directive
  obtain ⟨c, more, hc⟩ := List.exists_cons_of_ne_nil h.isValue.ne_nil
  have hself : content (settingLine config directive) = settingLine config directive := by
    refine content_eq_self (fun x hx => ?_) (fun x hx => ?_)
    · have hhead : (settingLine config directive).head? = some b := by
        rw [settingLine, hb]
        rfl
      rw [hhead] at hx
      rwa [← Option.some.inj hx]
    · rw [settingLine, List.getLast?_append_of_ne_nil _ h.isValue.ne_nil] at hx
      exact h.isValue.last_bare x hx
  have hvalue : (config.value directive).dropWhile isBlank = config.value directive := by
    rw [hc, List.dropWhile_cons_of_neg (by simp [h.isValue.head_bare c (by rw [hc]; rfl)])]
  have hspace : ∀ b ∈ lit " ", isBlank b := List.forall_mem_singleton.mpr rfl
  rw [setting?_eq_some_iff, hself, settingLine, List.append_assoc,
    halves?_append (fun b hb => (hword b hb).1) hspace (by decide), hvalue]

/-- The lines of all directives give all settings. -/
theorem settings_settingLines (hspells : ∀ d, config.Spells d) :
    settings (Directive.all.map (settingLine config)) =
      Directive.all.map fun d => (d, config.value d) := by
  have hset : setting? ∘ settingLine config = fun d => some (d, config.value d) :=
    funext fun d => setting?_settingLine (hspells d)
  rw [settings, List.filterMap_map, hset, List.filterMap_eq_map']

/-- Whatever was there before, the lines of all directives make the settings that they give. Every
directive is given once, so none is kept from before. -/
theorem makes_settingLines (hspells : ∀ d, config.Spells d) (hroot : config.root = base.root) :
    Makes { config := base } (Directive.all.map (settingLine config)) config := by
  have hall : ∀ d, d ∈ Directive.all := by
    intro d
    cases d <;> decide
  have hsettings := settings_settingLines hspells
  have hdirectives : (settings (Directive.all.map (settingLine config))).map Prod.fst =
      Directive.all := by
    rw [hsettings, List.map_map]
    exact List.map_id _
  have hgives : ∀ s ∈ settings (Directive.all.map (settingLine config)),
    s.2 = config.value s.1 := by
    intro s hs
    rw [hsettings] at hs
    obtain ⟨d, -, rfl⟩ := List.mem_map.mp hs
    rfl
  constructor
  case understood =>
    intro line hline
    obtain ⟨d, -, rfl⟩ := List.mem_map.mp hline
    refine Or.inr ?_
    rw [setting?_settingLine (hspells d)]
    rfl
  case nodup =>
    rw [hdirectives]
    decide
  case unseen => simp
  case allowed =>
    intro s hs
    rw [Config.isOk_assign_eq _ config, hgives s hs]
    exact (hspells s.1).isOk
  case given => exact fun s hs => (hgives s hs).symm
  case kept =>
    intro d hd
    rw [hdirectives] at hd
    exact absurd (hall d) hd
  case root_eq => exact hroot

/-- Settings that a manifest can give are read back from the manifest that is written from them. -/
theorem parse_render (hspells : ∀ d, config.Spells d) (hroot : config.root = base.root) :
    parse base (render config) = .ok config := by
  have htext : IsTextOf (lit "# Boilr project settings" :: Directive.all.map (settingLine config))
      (render config) := by
    refine Or.inl ?_
    rw [render, List.flatMap_cons, List.flatMap_map]
    rfl
  have hlines : ∀ line ∈ lit "# Boilr project settings" :: Directive.all.map (settingLine config),
      newline ∉ line := by
    refine List.forall_mem_cons.mpr ⟨by decide, ?_⟩
    intro line hline
    obtain ⟨d, -, rfl⟩ := List.mem_map.mp hline
    exact newline_not_mem_settingLine (hspells d)
  have hcomment : Silent (lit "# Boilr project settings") := Or.inr rfl
  rw [parse_eq_ok_iff, htext.makes_iff hlines, makes_cons_of_silent hcomment]
  exact makes_settingLines hspells hroot

end Manifest

/-- The manifest of a project, when it gives the name, can be replaced by the one that is written
from its settings, and the settings stay the same. -/
theorem readManifest_writeFile_render {host : Host} {manifest : Path} {text : Text}
    {config : Config} (hhost : host.HasHere) (htext : host.readFile manifest = .ok text)
    (hproject : Manifest.Mentions text .project) (h : readManifest host manifest = .ok config) :
    ∃ host', host.writeFile manifest (Manifest.render config) = .ok host' ∧
      readManifest host' manifest = .ok config := by
  have hne : text ≠ [] := by
    rintro rfl
    obtain ⟨line, hline, value, hhalves⟩ := hproject
    obtain rfl := List.mem_singleton.mp hline
    simp [Manifest.halves?, Manifest.content, Text.trimStart, Text.trimEnd] at hhalves
  obtain ⟨host', hwrite, hread, hhere⟩ :=
    Host.exists_writeFile_of_readFile hhost hne htext (Manifest.render config)
  refine ⟨host', hwrite, ?_⟩
  obtain ⟨read, hread', hparse⟩ := parse_of_readManifest h
  obtain rfl : read = text := Except.ok.inj (hread'.symm.trans htext)
  set root := if manifest.parent.isEmpty then Path.dot else manifest.parent with hrootEq
  obtain ⟨hroot, hspells⟩ := Manifest.spells_of_parse hparse
  have hall : ∀ d, config.Spells d := by
    intro d
    by_cases hd : d = .project
    · exact hspells d (Or.inr (hd ▸ hproject))
    · exact hspells d (Or.inl hd)
  have hagain : Manifest.parse (defaults host' root) (Manifest.render config) = .ok config :=
    Manifest.parse_render hall hroot
  rw [readManifest, hread]
  simp only [← hrootEq, hagain]
  rfl

/-- Carriage returns, blanks, `#` and a zero byte stay where they stand inside of a value. -/
theorem readManifest_writeFile_render_odd_bytes :
    let text := lit "# shop\n\tproject  \r shop # 1\x00\r2 \t\r\nfeatures ./lib//a/../b\r\n" ++
      lit "routes-anchor x;\t[\n\r\npatch-mode best-effort"
    let host : Host :=
      { tree := (({} : Disk.Tree).put [lit "work"] .directory).put [manifestName, lit "work"]
          (.file text)
        here := [lit "work"] }
    let config : Config :=
      { name := lit "\r shop # 1\x00\r2"
        root := Path.dot
        anchors := { listToken := lit "x;\t[" }
        features := lit "./lib//a/../b"
        policy := .bestEffort }
    host.HasHere ∧ host.readFile manifestName = .ok text ∧ Manifest.Mentions text .project ∧
      readManifest host manifestName = .ok config ∧
      ∃ host', host.writeFile manifestName (Manifest.render config) = .ok host' ∧
        readManifest host' manifestName = .ok config := by
  intro text host config
  have hhost : host.HasHere := (Disk.Tree.reaches_nil _).cons (by decide)
  have htext : host.readFile manifestName = .ok text := by decide
  have hproject : Manifest.Mentions text .project :=
    ⟨lit "\tproject  \r shop # 1\x00\r2 \t\r", by decide,
      lit "\r shop # 1\x00\r2", by decide⟩
  have hread : readManifest host manifestName = .ok config := by decide
  exact ⟨hhost, htext, hproject, hread,
    readManifest_writeFile_render hhost htext hproject hread⟩

end FlutterScaffold.Project
