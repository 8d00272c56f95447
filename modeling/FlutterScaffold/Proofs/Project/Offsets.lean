import FlutterScaffold.Proofs.Project.Inside
import FlutterScaffold.Proofs.Project.Reading

/-!
# Reading a manifest by offsets

A line of a manifest can be cut up by searching for offsets and taking the bytes between them, and
then each cut has to lie within the line. Here every cut and every look at a last byte is checked.
No check ever fails, and what is read is the same (`parseByOffsets?_eq`): where a directive is
followed by a blank, something else stands behind the blanks, because the line was trimmed before.
The settings that come out of it are usable (`Config.usable_of_parse`).
-/

namespace FlutterScaffold

namespace Text

/-- Offset of the first byte of a class at or behind an offset. -/
def firstFrom? (p : Byte → Bool) (t : Text) (start : Nat) : Option Nat :=
  ((t.drop start).findIdx? p).map (start + ·)

/-- Offset of the last byte of a class. -/
def last? (p : Byte → Bool) (t : Text) : Option Nat :=
  (t.reverse.findIdx? p).map (t.length - 1 - ·)

/-- As many bytes from an offset on as there are, up to a number of them. None can be taken from an
offset past the end, or from one that was searched for and not found. -/
def substring? (t : Text) (offset : Option Nat) (count : Nat) : Option Text :=
  offset.bind fun n => if n ≤ t.length then some ((t.drop n).take count) else none

theorem substring?_zero (t : Text) (count : Nat) :
    substring? t (some 0) count = some (t.take count) := by
  simp [substring?]

theorem substring?_of_le {t : Text} {n : Nat} (h : n ≤ t.length) :
    substring? t (some n) t.length = some (t.drop n) := by
  simp [substring?, h]

section Search

variable {p : Byte → Bool} {t : Text} {start n : Nat}

theorem isSome_firstFrom? : (firstFrom? p t start).isSome = (t.drop start).any p := by
  rw [firstFrom?, Option.isSome_map, List.findIdx?_isSome]

/-- No byte is found behind an offset exactly when all of them are dropped. -/
theorem firstFrom?_eq_none_iff :
    firstFrom? (!p ·) t start = none ↔ (t.drop start).dropWhile p = [] := by
  simp [firstFrom?, List.findIdx?_eq_none_iff, List.dropWhile_eq_nil_iff]

/-- What stands in front of the offset that was found is of the class that was skipped, and what
stands behind it is the rest. -/
theorem drop_of_firstFrom? (h : firstFrom? (!p ·) t start = some n) :
    n < t.length ∧ t.drop n = (t.drop start).dropWhile p ∧
      t.take n = t.take start ++ (t.drop start).takeWhile p := by
  obtain ⟨i, hi, rfl⟩ := Option.map_eq_some_iff.mp h
  obtain ⟨hlt, hindex⟩ := List.findIdx?_eq_some_iff_findIdx_eq.mp hi
  rw [List.length_drop] at hlt
  rw [List.dropWhile_eq_drop_findIdx_not, List.takeWhile_eq_take_findIdx_not, hindex,
    List.drop_drop, List.take_add]
  exact ⟨by omega, rfl, rfl⟩

/-- No byte is found from behind exactly when all of them are trimmed. -/
theorem last?_eq_none_iff : last? (!p ·) t = none ↔ trimEnd p t = [] := by
  simp [last?, trimEnd, List.findIdx?_eq_none_iff, List.dropWhile_eq_nil_iff]

/-- The bytes up to the last one that is not of a class are what is left when the class is removed
from the end. -/
theorem take_of_last? (h : last? (!p ·) t = some n) : t.take (n + 1) = trimEnd p t := by
  obtain ⟨i, hi, rfl⟩ := Option.map_eq_some_iff.mp h
  obtain ⟨hlt, hindex⟩ := List.findIdx?_eq_some_iff_findIdx_eq.mp hi
  rw [List.length_reverse] at hlt
  have hlength : t.length - 1 - i + 1 = t.length - i := by omega
  rw [trimEnd, List.dropWhile_eq_drop_findIdx_not, hindex, List.drop_reverse, List.reverse_reverse,
    hlength]

end Search

end Text

namespace Project

open FlutterScaffold.Text (cut firstFrom? last? lines substring?)
open Byte (isBlank isIdentifierStart isLayout isMargin newline slash)

/-- A setting made like `assign` makes it, where the token of the list is tested by its last byte.
There has to be one. -/
def Config.assignByLast? (config : Config) (directive : Directive) (value : Text) :
    Option (Except LineFault Config) :=
  if directive = .routesAnchor then
    value.getLast?.map fun last =>
      if last = byte '[' then
        .ok { config with anchors := { config.anchors with listToken := value } }
      else .error (.badAnchor value)
  else some (config.assign directive value)

namespace Manifest

/-- The step over one line, by offsets. -/
def Progress.readByOffsets? (progress : Progress) (line : Text) :
    Option (Except LineFault Progress) :=
  match firstFrom? (!isMargin ·) line 0 with
  | none => some (.ok progress)
  | some start => do
    let line ← substring? line (some start) line.length
    let line ← match last? (!isLayout ·) line with
      | none => some line
      | some last => substring? line (some 0) (last + 1)
    if line.isEmpty || line.head? = some (byte '#') then some (.ok progress)
    else
      match firstFrom? isBlank line 0 with
      | none => some (.error (.noValue line))
      | some space => do
        let word ← substring? line (some 0) space
        let value ← substring? line (firstFrom? (!isBlank ·) line space) line.length
        match Directive.ofWord? word with
        | none => some (.error (.unknown word))
        | some directive =>
          if progress.seen.contains directive then some (.error (.duplicate directive))
          else
            (progress.config.assignByLast? directive value).map fun assigned =>
              assigned.map fun config => ⟨config, directive :: progress.seen⟩

/-- Reads numbered lines, by offsets. -/
def Progress.readAllByOffsets? (progress : Progress) (number : Nat) :
    List Text → Option (Except (Nat × LineFault) Progress)
  | [] => some (.ok progress)
  | line :: more =>
    (progress.readByOffsets? line).bind fun
      | .error fault => some (.error (number, fault))
      | .ok next => next.readAllByOffsets? (number + 1) more

/-- The settings that a manifest makes, read by offsets. -/
def parseByOffsets? (base : Config) (text : Text) : Option (Except (Nat × LineFault) Config) :=
  (Progress.readAllByOffsets? { config := base } 1 (lines text)).map fun read =>
    read.map (·.config)

/-! ## No cut and no look fails -/

section Line

variable {progress : Progress} {line : Text}

/-- A line without content has nothing but margins. -/
theorem content_eq_nil_iff (hline : newline ∉ line) :
    content line = [] ↔ Text.trimStart isMargin line = [] := by
  constructor
  · intro hnil
    by_contra hne
    obtain ⟨b, rest, hb⟩ := List.exists_cons_of_ne_nil hne
    have hmargin : isMargin b = false := by
      have hhead := List.head?_dropWhile_not isMargin line
      rw [← Text.trimStart, hb] at hhead
      exact hhead
    have hmem : b ∈ line := by
      have hsuffix := List.dropWhile_suffix (l := line) isMargin
      rw [← Text.trimStart, hb] at hsuffix
      exact hsuffix.mem (List.mem_cons_self ..)
    have hlayout : isLayout b := by
      rw [content, hb, Text.trimEnd, List.reverse_eq_nil_iff, List.dropWhile_eq_nil_iff] at hnil
      exact hnil b (by simp)
    have hback := Byte.isMargin_of_isLayout b hlayout fun heq => hline (heq ▸ hmem)
    exact absurd (hback.symm.trans hmargin) (by simp)
  · intro hnil
    rw [content, hnil]
    rfl

/-- A line with content is trimmed by offsets as it is by classes. -/
theorem trim_by_offsets {start : Nat} (hline : newline ∉ line)
    (h : firstFrom? (!isMargin ·) line 0 = some start) :
    ∃ last, substring? line (some start) line.length = some (line.drop start) ∧
      last? (!isLayout ·) (line.drop start) = some last ∧
      substring? (line.drop start) (some 0) (last + 1) = some (content line) := by
  obtain ⟨hlt, hdrop, -⟩ := Text.drop_of_firstFrom? h
  have hcontent : Text.trimEnd isLayout (line.drop start) = content line := by
    rw [hdrop]
    rfl
  have hne : content line ≠ [] := by
    have hstart : Text.trimStart isMargin line = line.drop start := hdrop.symm
    rw [Ne, content_eq_nil_iff hline, hstart]
    simpa using hlt
  cases hlast : last? (!isLayout ·) (line.drop start) with
  | none => exact absurd (hcontent.symm.trans (Text.last?_eq_none_iff.mp hlast)) hne
  | some last =>
    refine ⟨last, Text.substring?_of_le hlt.le, rfl, ?_⟩
    rw [Text.substring?_zero, Text.take_of_last? hlast, hcontent]

/-- A directive is cut off at the first blank, and its value behind the blanks that follow. -/
theorem halves_by_offsets {space : Nat} (hline : newline ∉ line)
    (h : firstFrom? isBlank (content line) 0 = some space) :
    ∃ value, halves? (content line) = some ((content line).take space, value) ∧ IsValue value ∧
      substring? (content line) (firstFrom? (!isBlank ·) (content line) space)
        (content line).length = some value := by
  have hany : (content line).any isBlank = true := by
    rw [← List.drop_zero (l := content line), ← Text.isSome_firstFrom?, h]
    rfl
  have hblank : isBlank = fun b => !!isBlank b := by simp
  rw [hblank] at h
  obtain ⟨-, hdrop, htake⟩ := Text.drop_of_firstFrom? h
  rw [List.drop_zero] at hdrop htake
  have hhalves : halves? (content line) =
      some ((content line).take space, ((content line).drop space).dropWhile isBlank) := by
    rw [halves?, if_pos hany, hdrop, htake]
    rfl
  have hvalue := isValue_of_halves? hline hhalves
  refine ⟨_, hhalves, hvalue, ?_⟩
  cases hvalueStart : firstFrom? (!isBlank ·) (content line) space with
  | none => exact absurd (Text.firstFrom?_eq_none_iff.mp hvalueStart) hvalue.ne_nil
  | some n =>
    obtain ⟨hn, hrest, -⟩ := Text.drop_of_firstFrom? hvalueStart
    rw [Text.substring?_of_le hn.le, hrest]

theorem halves?_eq_none_of_firstFrom? (h : firstFrom? isBlank (content line) 0 = none) :
    halves? (content line) = none := by
  have hany : (firstFrom? isBlank (content line) 0).isSome = ((content line).drop 0).any isBlank :=
    Text.isSome_firstFrom?
  rw [h, List.drop_zero] at hany
  rw [halves?, if_neg (by simp [← hany])]

/-- A value has a last byte to look at. -/
theorem assignByLast?_eq {value : Text} (h : IsValue value) (config : Config)
    (directive : Directive) :
    config.assignByLast? directive value = some (config.assign directive value) := by
  rw [Config.assignByLast?]
  split
  · rename_i hdirective
    subst hdirective
    rw [List.getLast?_eq_getLast_of_ne_nil h.ne_nil]
    simp [Config.assign, List.getLast?_eq_getLast_of_ne_nil h.ne_nil]
  · rfl

/-- The step over a line reads the same by offsets. -/
theorem Progress.readByOffsets?_eq (hline : newline ∉ line) (progress : Progress) :
    progress.readByOffsets? line = some (progress.read line) := by
  cases hstart : firstFrom? (!isMargin ·) line 0 with
  | none =>
    have hnil : content line = [] :=
      (content_eq_nil_iff hline).mpr (Text.firstFrom?_eq_none_iff.mp hstart)
    simp only [readByOffsets?, hstart]
    rw [read_of_silent (Or.inl hnil)]
  | some start =>
    obtain ⟨last, hcut, hlast, htrim⟩ := trim_by_offsets hline hstart
    simp only [readByOffsets?, hstart, hcut, hlast, htrim, Option.bind_eq_bind, Option.bind_some,
      read]
    split
    · rfl
    · cases hspace : firstFrom? isBlank (content line) 0 with
      | none => rw [halves?_eq_none_of_firstFrom? hspace]
      | some space =>
        obtain ⟨value, hhalves, hvalue, hsubstring⟩ := halves_by_offsets hline hspace
        simp only [hhalves, hsubstring, Text.substring?_zero, Option.bind_some]
        cases Directive.ofWord? ((content line).take space) with
        | none => rfl
        | some directive =>
          dsimp only
          split
          · rfl
          · rw [assignByLast?_eq hvalue]
            rfl

end Line

/-- All lines are read the same by offsets. -/
theorem Progress.readAllByOffsets?_eq {content : List Text} (h : ∀ line ∈ content, newline ∉ line)
    (progress : Progress) (number : Nat) :
    progress.readAllByOffsets? number content = some (progress.readAll number content) := by
  induction content generalizing progress number with
  | nil => rfl
  | cons line more ih =>
    obtain ⟨hline, hmore⟩ := List.forall_mem_cons.mp h
    rw [readAllByOffsets?, readByOffsets?_eq hline, Option.bind_some, readAll]
    cases progress.read line with
    | error fault => rfl
    | ok next => exact ih hmore next (number + 1)

/-- Every byte string can be read by offsets as a manifest, with the same outcome. -/
theorem parseByOffsets?_eq (base : Config) (text : Text) :
    parseByOffsets? base text = some (parse base text) := by
  have hlines : ∀ line ∈ lines text, newline ∉ line := fun _ hline => Text.not_mem_of_mem_cut hline
  rw [parseByOffsets?, Progress.readAllByOffsets?_eq hlines]
  rfl

end Manifest

/-! ## Usable settings -/

/-- What a project relies on in its settings: a class that is an identifier, a token in one line
that ends with the bracket of the list, and places that are named and do not leave the project. -/
structure Config.Usable (config : Config) : Prop where
  routerClass : ∃ b rest, config.anchors.routerClass = b :: rest ∧ isIdentifierStart b ∧
    ∀ c ∈ rest, Byte.isIdentifier c
  listToken : ∃ start, config.anchors.listToken = start ++ [byte '[']
  newline_not_mem : newline ∉ config.anchors.listToken
  places : ∀ p ∈ [config.router, config.features, config.widgets, config.providers],
    p ≠ [] ∧ p.head? ≠ some slash ∧ Path.NeverClimbs (cut slash p)

/-- Settings that a manifest can give, but perhaps for the name, are usable. -/
theorem Config.usable_of_spells {config : Config} (h : ∀ d, d ≠ .project → config.Spells d) :
    config.Usable where
  routerClass := by
    have hok := (h .routerClass (by simp)).isOk
    have hidentifier : isIdentifier config.anchors.routerClass = true := by
      by_contra hnot
      simp [assign, value, hnot, Except.isOk, Except.toBool] at hok
    cases hclass : config.anchors.routerClass with
    | nil => simp [hclass, isIdentifier] at hidentifier
    | cons b rest =>
      rw [hclass, isIdentifier, Bool.and_eq_true, List.all_eq_true] at hidentifier
      exact ⟨b, rest, rfl, hidentifier⟩
  listToken := by
    have hok := (h .routesAnchor (by simp)).isOk
    have hlast : config.anchors.listToken.getLast? = some (byte '[') := by
      by_contra hnot
      simp [assign, value, hnot, Except.isOk, Except.toBool] at hok
    exact List.getLast?_eq_some_iff.mp hlast
  newline_not_mem := (h .routesAnchor (by simp)).isValue.newline_not_mem
  places := by
    have hplace : ∀ d ∈ Directive.places, config.value d ≠ [] ∧
        (config.value d).head? ≠ some slash ∧ Path.NeverClimbs (cut slash (config.value d)) := by
      intro d hd
      have hspells := h d (by rintro rfl; simp [Directive.places] at hd)
      have hinside := hspells.isOk
      rw [isOk_assign_of_mem_places hd] at hinside
      exact ⟨hspells.isValue.ne_nil, (Path.isInside_iff_stays.trans Path.stays_iff).mp hinside⟩
    simpa [Directive.places, value] using hplace

/-- Whatever bytes a manifest holds, reading it by offsets stays in range, with the same outcome;
and settings that come out of it are usable. -/
theorem parse_in_range_and_usable (text : Text) :
    (∀ base, Manifest.parseByOffsets? base text = some (Manifest.parse base text)) ∧
      ∀ name root config, Manifest.parse { name := name, root := root } text = .ok config →
        config.Usable := by
  refine ⟨fun base => Manifest.parseByOffsets?_eq base text, fun name root config h => ?_⟩
  obtain ⟨-, hspells⟩ := Manifest.spells_of_parse h
  exact Config.usable_of_spells fun d hd => hspells d (Or.inl hd)

/-- Blanks and carriage returns around a value are cut off, and kept within it. -/
theorem parse_in_range_and_usable_odd_blanks :
    let text := lit " \r\n\rrouter-class\t $App_1\t\r\n" ++
      lit "routes-anchor x;\r\t[ \r\nfeatures \t./a/..//b"
    let config : Config :=
      { anchors := { routerClass := lit "$App_1", listToken := lit "x;\r\t[" }
        features := lit "./a/..//b" }
    Manifest.parse {} text = .ok config ∧ Manifest.parseByOffsets? {} text = some (.ok config) ∧
      config.Usable := by
  intro text config
  have hparse : Manifest.parse {} text = .ok config := by decide
  obtain ⟨hrange, husable⟩ := parse_in_range_and_usable text
  exact ⟨hparse, (hrange {}).trans (congrArg some hparse), husable [] [] config hparse⟩

end Project

end FlutterScaffold
