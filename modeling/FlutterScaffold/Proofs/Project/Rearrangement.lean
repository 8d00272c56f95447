import FlutterScaffold.Proofs.Project.Reading

/-!
# Manifests that say the same

The lines of a manifest can be put into another order, spaced in another way, and mixed with blank
lines and comments. A line that is spaced in another way says what it said before
(`Respaced.content_eq_or_setting?_eq`), so all of this leaves the settings that the lines make as
they were (`Rearranged.makes`).
-/

namespace FlutterScaffold.Project

open Byte (newline isBlank isMargin isLayout)
open Disk (Host)
open FlutterScaffold.Text (lines)

namespace Manifest

/-- A line spaced in another way: around its ends, or between a directive and what follows it. -/
inductive Respaced : Text → Text → Prop
  /-- Bytes of a margin are written at the ends of the line. -/
  | ends {before behind : Text} (hbefore : ∀ b ∈ before, isMargin b)
    (hbehind : ∀ b ∈ behind, isMargin b) (line : Text) :
    Respaced line (before ++ (line ++ behind))
  /-- Other blanks are written behind the directive. -/
  | gap {margin gap gap' : Text} (hmargin : ∀ b ∈ margin, isMargin b)
    (hgap : gap ≠ [] ∧ ∀ b ∈ gap, isBlank b) (hgap' : gap' ≠ [] ∧ ∀ b ∈ gap', isBlank b)
    (directive : Directive) (rest : Text) :
    Respaced (margin ++ (directive.word ++ (gap ++ rest)))
      (margin ++ (directive.word ++ (gap' ++ rest)))
  | trans {line line' line'' : Text} :
    Respaced line line' → Respaced line' line'' → Respaced line line''

/-- A line of blanks, or a comment. -/
inductive IsRemark : Text → Prop
  | blank {line : Text} : (∀ b ∈ line, isMargin b) → IsRemark line
  | comment {margin rest : Text} : (∀ b ∈ margin, isMargin b) → newline ∉ rest →
    IsRemark (margin ++ byte '#' :: rest)

/-- The same lines, each spaced in some way, with remarks among them and in any order. -/
def Rearranged (content content' : List Text) : Prop :=
  ∃ padded remarks, List.Forall₂ Respaced content padded ∧ (∀ line ∈ remarks, IsRemark line) ∧
    content'.Perm (padded ++ remarks)

variable {line line' : Text} {content content' : List Text} {progress : Progress}
  {config : Config}

/-! ## One line -/

/-- A margin in front of a line is no part of its content. -/
theorem content_margin_append {margin : Text} (h : ∀ b ∈ margin, isMargin b) (line : Text) :
    Manifest.content (margin ++ line) = Manifest.content line := by
  rw [Manifest.content, Text.trimStart, List.dropWhile_append_of_pos h]
  rfl

/-- A margin behind a line is no part of its content. -/
theorem content_append_margin {margin : Text} (h : ∀ b ∈ margin, isMargin b) (line : Text) :
    Manifest.content (line ++ margin) = Manifest.content line := by
  have hlayout : ∀ b ∈ margin, isLayout b = true := fun b hb => by simp [isLayout, h b hb]
  rw [Manifest.content, Manifest.content, Text.trimStart, Text.trimStart, List.dropWhile_append]
  split
  · rename_i hall
    rw [List.isEmpty_iff.mp hall, List.dropWhile_eq_nil_iff.mpr h]
  · exact Text.trimEnd_append_right hlayout _

/-- The content of a line starts at its directive. -/
theorem content_word_append (directive : Directive) (rest : Text) :
    Manifest.content (directive.word ++ rest) = Text.trimEnd isLayout (directive.word ++ rest) := by
  obtain ⟨-, b, more, hb, hmargin, -⟩ := word_bare directive
  rw [Manifest.content, Text.trimStart, hb, List.cons_append,
    List.dropWhile_cons_of_neg (by simp [hmargin])]

/-- A directive with blanks behind gives a setting, unless nothing more follows. -/
theorem content_or_setting?_of_gap {directive : Directive} (rest : Text) :
    (∀ gap, (∀ b ∈ gap, isBlank b) → Manifest.content (directive.word ++ (gap ++ rest)) =
      Manifest.content directive.word) ∨
    ∃ value, ∀ gap, gap ≠ [] → (∀ b ∈ gap, isBlank b) →
      setting? (directive.word ++ (gap ++ rest)) = some (directive, value) := by
  by_cases hrest : ∀ b ∈ rest, isLayout b
  · refine Or.inl fun gap hgap => ?_
    have hlayout : ∀ b ∈ gap ++ rest, isLayout b = true :=
      List.forall_mem_append.mpr ⟨fun b hb => Byte.isLayout_of_isBlank b (hgap b hb), hrest⟩
    have hword := content_word_append directive []
    rw [List.append_nil] at hword
    rw [content_word_append, hword, Text.trimEnd_append_right hlayout]
  · push Not at hrest
    obtain ⟨b, hb, hlayout⟩ := hrest
    refine Or.inr ⟨(Text.trimEnd isLayout rest).dropWhile isBlank, fun gap hne hgap => ?_⟩
    have hbare := (word_bare directive).1
    rw [setting?_eq_some_iff, content_word_append, ← List.append_assoc,
      Text.trimEnd_append_of_mem hb (by simpa using hlayout), List.append_assoc]
    exact halves?_append (fun b hb => (hbare b hb).1) hgap hne _

namespace Respaced

/-- A line that is spaced in another way keeps its content, or at least the setting that it
gives. -/
theorem content_eq_or_setting?_eq (h : Respaced line line') :
    Manifest.content line' = Manifest.content line ∨
      ∃ s, setting? line = some s ∧ setting? line' = some s := by
  induction h with
  | ends hbefore hbehind line =>
    rw [content_margin_append hbefore, content_append_margin hbehind]
    exact Or.inl rfl
  | gap hmargin hgap hgap' directive rest =>
    simp only [setting?, content_margin_append hmargin]
    rcases content_or_setting?_of_gap rest with hsame | ⟨value, hvalue⟩
    · exact Or.inl ((hsame _ hgap'.2).trans (hsame _ hgap.2).symm)
    · exact Or.inr ⟨_, hvalue _ hgap.1 hgap.2, hvalue _ hgap'.1 hgap'.2⟩
  | trans _ _ ih ih' =>
    rcases ih with hsame | ⟨s, hs, hs'⟩
    · rcases ih' with hsame' | ⟨s', hs', hs''⟩
      · exact Or.inl (hsame'.trans hsame)
      · refine Or.inr ⟨s', ?_, hs''⟩
        rwa [setting?, ← hsame]
    · rcases ih' with hsame' | ⟨s', hs₁, hs₂⟩
      · refine Or.inr ⟨s, hs, ?_⟩
        rwa [setting?, hsame']
      · obtain rfl := Option.some.inj (hs'.symm.trans hs₁)
        exact Or.inr ⟨s, hs, hs₂⟩

/-- A line that is spaced otherwise gives the same setting. -/
theorem setting?_eq (h : Respaced line line') : setting? line' = setting? line := by
  rcases h.content_eq_or_setting?_eq with hsame | ⟨s, hs, hs'⟩
  · rw [setting?, setting?, hsame]
  · rw [hs, hs']

/-- A line that is spaced otherwise is understood like before. -/
theorem understood (h : Respaced line line') (hline : Understood line) : Understood line' := by
  rcases h.content_eq_or_setting?_eq with hsame | ⟨s, hs, hs'⟩
  · simpa only [Understood, Silent, setting?, hsame] using hline
  · exact Or.inr (by rw [hs']; rfl)

theorem newline_not_mem (h : Respaced line line') (hline : newline ∉ line) : newline ∉ line' := by
  have hmargin {t : Text} (ht : ∀ b ∈ t, isMargin b) : newline ∉ t :=
    Text.newline_not_mem_of_isMargin ht
  induction h with
  | ends hbefore hbehind line =>
    exact List.not_mem_append (hmargin hbefore) (List.not_mem_append hline (hmargin hbehind))
  | gap _ _ hgap' directive rest =>
    simp only [List.mem_append, not_or] at hline ⊢
    exact ⟨hline.1, hline.2.1, hmargin fun b hb => Byte.isMargin_of_isBlank b (hgap'.2 b hb),
      hline.2.2.2⟩
  | trans _ _ ih ih' => exact ih' (ih hline)

end Respaced

/-- A remark says nothing. -/
theorem IsRemark.silent (h : IsRemark line) : Silent line := by
  cases h with
  | blank hmargin =>
    exact Or.inl (content_append_margin hmargin [])
  | comment hmargin =>
    rename_i margin rest _
    refine Or.inr ?_
    rw [content_margin_append hmargin, Manifest.content, Text.trimStart,
      List.dropWhile_cons_of_neg (by decide), Text.trimEnd, List.reverse_cons,
      List.dropWhile_append]
    split
    · decide
    · simp

theorem IsRemark.newline_not_mem (h : IsRemark line) : newline ∉ line := by
  cases h with
  | blank hmargin => exact Text.newline_not_mem_of_isMargin hmargin
  | comment hmargin hrest =>
    refine List.not_mem_append (Text.newline_not_mem_of_isMargin hmargin) ?_
    exact List.not_mem_cons_of_ne_of_not_mem (by decide) hrest

/-! ## All lines -/

/-- Settings are given line by line. -/
theorem settings_append (content content' : List Text) :
    settings (content ++ content') = settings content ++ settings content' :=
  List.filterMap_append

/-- Lines that say nothing give no settings. -/
theorem settings_eq_nil (h : ∀ line ∈ content, Silent line) : settings content = [] :=
  List.filterMap_eq_nil_iff.mpr fun line hline => setting?_of_silent (h line hline)

/-- Lines that are spaced otherwise give the same settings. -/
theorem settings_of_respaced (h : List.Forall₂ Respaced content content') :
    settings content' = settings content := by
  induction h with
  | nil => rfl
  | cons hline _ ih => rw [settings, settings, List.filterMap_cons, List.filterMap_cons,
      hline.setting?_eq, ← settings, ih, ← settings]

/-- What holds of lines holds of the rearranged ones, if spacing keeps it and remarks have it. -/
theorem Rearranged.forall_mem {P : Text → Prop} (h : Rearranged content content')
    (hspace : ∀ line line', Respaced line line' → P line → P line')
    (hremark : ∀ line, IsRemark line → P line) (hall : ∀ line ∈ content, P line) :
    ∀ line ∈ content', P line := by
  obtain ⟨padded, remarks, hpadded, hremarks, hperm⟩ := h
  have hpad : ∀ line ∈ padded, P line := by
    clear hperm
    induction hpadded with
    | nil => simp
    | cons hline _ ih =>
      obtain ⟨hfirst, hall⟩ := List.forall_mem_cons.mp hall
      exact List.forall_mem_cons.mpr ⟨hspace _ _ hline hfirst, ih hall⟩
  intro line hline
  rcases List.mem_append.mp (hperm.mem_iff.mp hline) with hline | hline
  · exact hpad line hline
  · exact hremark line (hremarks line hline)

/-- Rearranged lines make the same settings. -/
theorem Rearranged.makes (h : Rearranged content content')
    (hmakes : Makes progress content config) :
    Makes progress content' config := by
  have hunderstood : ∀ line ∈ content', Understood line :=
    h.forall_mem (fun _ _ hspace => hspace.understood) (fun _ hremark => Or.inl hremark.silent)
      hmakes.understood
  obtain ⟨padded, remarks, hpadded, hremarks, hperm⟩ := h
  refine hmakes.of_perm hunderstood ?_
  have hsettings : settings (padded ++ remarks) = settings content := by
    rw [settings_append, settings_of_respaced hpadded,
      settings_eq_nil fun line hline => (hremarks line hline).silent, List.append_nil]
  rw [← hsettings]
  exact hperm.filterMap _

end Manifest

/-- A manifest is accepted with the same settings when its lines are put into another order, spaced
in another way, and mixed with blank lines and comments. -/
theorem readManifest_rearranged {host host' : Host} {manifest : Path} {content content' : List Text}
    {text text' : Text} {config : Config} (hlines : ∀ line ∈ content, newline ∉ line)
    (htext : Manifest.IsTextOf content text) (hread : host.readFile manifest = .ok text)
    (hconfig : readManifest host manifest = .ok config)
    (hrearranged : Manifest.Rearranged content content')
    (htext' : Manifest.IsTextOf content' text') (hread' : host'.readFile manifest = .ok text')
    (hhere : host'.here = host.here) : readManifest host' manifest = .ok config := by
  obtain ⟨read, hread₁, hparse⟩ := parse_of_readManifest hconfig
  obtain rfl : read = text := Except.ok.inj (hread₁.symm.trans hread)
  have hlines' : ∀ line ∈ content', newline ∉ line :=
    hrearranged.forall_mem (fun _ _ hspace => hspace.newline_not_mem)
      (fun _ hremark => hremark.newline_not_mem) hlines
  have hdefaults (root : Path) : defaults host' root = defaults host root := by
    rw [defaults, defaults, Host.herePath, Host.herePath, hhere]
  refine readManifest_of_parse hread' ?_
  rw [hdefaults, Manifest.parse_eq_ok_iff, htext'.makes_iff hlines']
  rw [Manifest.parse_eq_ok_iff, htext.makes_iff hlines] at hparse
  exact hrearranged.makes hparse

/-- Lines in another order, with carriage returns and blanks at their ends and behind a directive,
a comment in front and a line of layout between them. -/
theorem readManifest_rearranged_settings :
    let host : Host :=
      { tree := (({} : Disk.Tree).put [lit "work"] .directory).put [manifestName, lit "work"]
          (.file (lit "project shop\nrouter lib/r.dart"))
        here := [lit "work"] }
    let host' : Host :=
      { tree := (({} : Disk.Tree).put [lit "work"] .directory).put [manifestName, lit "work"]
          (.file (lit "# moved\r\n\t\trouter \t lib/r.dart \r\n \r\nproject shop\n"))
        here := [lit "work"] }
    let config : Config :=
      { name := lit "shop", root := Path.dot, router := lit "lib/r.dart" }
    readManifest host manifestName = .ok config ∧ readManifest host' manifestName = .ok config := by
  intro host host' config
  have hconfig : readManifest host manifestName = .ok config := by decide
  refine ⟨hconfig, ?_⟩
  have hmargin (t : Text) (h : t.all isMargin = true) : ∀ b ∈ t, isMargin b := List.all_eq_true.mp h
  have hblank (t : Text) (h : t.all isBlank = true) : ∀ b ∈ t, isBlank b := List.all_eq_true.mp h
  have hrouter : Manifest.Respaced (lit "router lib/r.dart") (lit "\t\trouter \t lib/r.dart \r") :=
    (Manifest.Respaced.gap (hmargin [] rfl) ⟨by decide, hblank (lit " ") rfl⟩
      ⟨by decide, hblank (lit " \t ") rfl⟩ .router (lit "lib/r.dart")).trans
      (.ends (hmargin (lit "\t\t") rfl) (hmargin (lit " \r") rfl) _)
  have hproject : Manifest.Respaced (lit "project shop") (lit "project shop") :=
    .ends (hmargin [] rfl) (hmargin [] rfl) _
  have hcomment : Manifest.IsRemark (lit "# moved\r") :=
    .comment (hmargin [] rfl) (by decide)
  have hrearranged : Manifest.Rearranged [lit "project shop", lit "router lib/r.dart"]
      [lit "# moved\r", lit "\t\trouter \t lib/r.dart \r", lit " \r", lit "project shop"] := by
    refine ⟨_, [lit "# moved\r", lit " \r"], .cons hproject (.cons hrouter .nil), ?_, by decide⟩
    exact List.forall_mem_cons.mpr
      ⟨hcomment, List.forall_mem_singleton.mpr (.blank (hmargin (lit " \r") rfl))⟩
  have hread : host.readFile manifestName = .ok (lit "project shop\nrouter lib/r.dart") := by
    decide
  exact readManifest_rearranged (by decide) (Or.inr rfl) hread hconfig hrearranged (Or.inl rfl)
    (by decide) rfl

end FlutterScaffold.Project
