import FlutterScaffold.Shell.Quote
import FlutterScaffold.Shell.Expansion

/-!
# The words of a command line

The shell reads the command line of a program as it was put together: a change of directory, when
one is asked for, then the program and its arguments, each as one word that is quoted as a whole,
and the redirection of the complaints (`tokens_commandLine`). A quoted byte opens nothing, whatever
it is, so no expansion and no operator comes from an argument, and no session makes more or less of
its word than the argument itself.
-/

namespace FlutterScaffold.Shell

/-- A byte as it is written between double quotes. -/
def escaped (b : Byte) : Text := if isSpecial b then [Byte.backslash, b] else [b]

theorem quoted_eq (t : Text) :
    quoted t = Byte.doubleQuote :: (t.flatMap escaped ++ [Byte.doubleQuote]) := rfl

/-! ## Reading on -/

section Reading

variable {context : Context} {s s' : Reading} {b : Byte} {n : Nat} {rest : Text}
  {found : List Token}

/-- The reader goes on behind a byte where the step over the byte says. -/
theorem readFrom_cons (h : readByte context s b rest = some (found, s', n)) :
    readFrom context s 0 (b :: rest) = found ++ readFrom context s' n rest := by
  rw [readFrom, h]

theorem readFrom_cons_nil (h : readByte context s b rest = some ([], s', n)) :
    readFrom context s 0 (b :: rest) = readFrom context s' n rest := readFrom_cons h

theorem readFrom_skip : readFrom context s (n + 1) (b :: rest) = readFrom context s n rest := rfl

/-- The reader behind a text that was quoted as the start of a word. -/
def behindQuoted (quoting : Quoting) (t : Text) : Reading :=
  { quoting := quoting, word := some [.text t.reverse true] }

/-- One more quoted byte belongs to the word. -/
theorem byte_behindQuoted (quoting : Quoting) (t : Text) (b : Byte) :
    (behindQuoted quoting t).byte b true = behindQuoted quoting (t ++ [b]) := by
  simp [behindQuoted, Reading.byte]

/-- What is special between double quotes loses its meaning behind a backslash. -/
theorem escapesInDouble_of_isSpecial (h : isSpecial b = true) :
    escapesInDouble .command b = true ∧ b ≠ Byte.newline := by
  simp only [isSpecial, Bool.or_eq_true, beq_iff_eq] at h
  rcases h with ((rfl | rfl) | rfl) | rfl <;> decide

/-- Between double quotes an escaped byte is read as the byte itself. -/
theorem readFrom_escaped (hs : s.quoting = .double) (b : Byte) (rest : Text) :
    readFrom .command s 0 (escaped b ++ rest) = readFrom .command (s.byte b true) 0 rest := by
  rw [escaped]
  split
  · rename_i hspecial
    obtain ⟨hescapes, hnewline⟩ := escapesInDouble_of_isSpecial hspecial
    have hread : readByte .command s Byte.backslash (b :: rest) =
        some ([], s.byte b true, 1) := by
      have hquote : Byte.backslash ≠ Byte.doubleQuote := by decide
      simp [readByte, hs, hescapes, hnewline, hquote]
    exact readFrom_cons hread
  · rename_i hplain
    simp only [isSpecial, Bool.not_eq_true, Bool.or_eq_false_iff, beq_eq_false_iff_ne] at hplain
    obtain ⟨⟨⟨hbackslash, hquote⟩, hdollar⟩, hgrave⟩ := hplain
    have hfound : foundAt true b rest = .plain := by
      rw [foundAt, if_neg hdollar, if_neg hgrave]
    have hread : readByte .command s b rest = some ([], s.byte b true, 0) := by
      simp [readByte, hs, hbackslash, hquote, hfound]
    exact readFrom_cons hread

/-- Between double quotes the escaped bytes of a text are read as the text. -/
theorem readFrom_flatMap_escaped (before t rest : Text) :
    readFrom .command (behindQuoted .double before) 0 (t.flatMap escaped ++ rest) =
      readFrom .command (behindQuoted .double (before ++ t)) 0 rest := by
  induction t generalizing before with
  | nil => rw [List.flatMap_nil, List.nil_append, List.append_nil]
  | cons b t ih =>
    rw [List.flatMap_cons, List.append_assoc, readFrom_escaped rfl, byte_behindQuoted, ih,
      List.append_assoc, List.singleton_append]

/-- A quoted text is read as the start of a word, whatever its bytes are. The first byte that is
written is no quote, so the quotation does not close at once. -/
theorem readFrom_quoted (t rest : Text) :
    readFrom .command {} 0 (quoted t ++ rest) =
      readFrom .command (behindQuoted .none t) 0 rest := by
  have hclose (t : Text) : readFrom .command (behindQuoted .double t) 0
      (Byte.doubleQuote :: rest) = readFrom .command (behindQuoted .none t) 0 rest :=
    readFrom_cons_nil rfl
  rw [quoted_eq, List.cons_append, List.append_assoc, List.singleton_append]
  cases t with
  | nil =>
    have hopen : readByte .command {} Byte.doubleQuote (Byte.doubleQuote :: rest) =
        some ([], behindQuoted .double [], 0) := rfl
    exact (readFrom_cons hopen).trans (hclose [])
  | cons b t =>
    have hhead : (escaped b ++ (t.flatMap escaped ++ Byte.doubleQuote :: rest)).head? ≠
        some Byte.doubleQuote := by
      intro heq
      by_cases hspecial : isSpecial b = true
      · rw [escaped, if_pos hspecial] at heq
        exact absurd (Option.some.inj heq) (by decide)
      · rw [escaped, if_neg hspecial] at heq
        have hb : b = Byte.doubleQuote := Option.some.inj heq
        exact hspecial (hb ▸ rfl)
    have hopen : readByte .command {} Byte.doubleQuote
        (escaped b ++ (t.flatMap escaped ++ Byte.doubleQuote :: rest)) =
          some ([], { quoting := .double, word := some [] }, 0) := by
      have hquote : Byte.doubleQuote ≠ Byte.quote := by decide
      have hslash : Byte.doubleQuote ≠ Byte.backslash := by decide
      simp only [readByte, Reading.openQuote, hhead, hquote, hslash, if_true, if_false]
      rfl
    rw [List.flatMap_cons, List.append_assoc, readFrom_cons hopen, List.nil_append,
      readFrom_escaped rfl]
    exact (readFrom_flatMap_escaped [b] t _).trans (hclose _)

/-- A blank ends a quoted word. -/
theorem readFrom_space (t rest : Text) :
    readFrom .command (behindQuoted .none t) 0 (byte ' ' :: rest) =
      .word [.text t true] :: readFrom .command {} 0 rest := by
  have hclose : (behindQuoted .none t).close = ([.word [.text t true]], {}) := by
    simp [behindQuoted, Reading.close, Reading.wordParts]
  have hread : readByte .command (behindQuoted .none t) (byte ' ') rest =
      some ([.word [.text t true]], {}, 0) := by
    change some ((behindQuoted .none t).close.1, (behindQuoted .none t).close.2, 0) = _
    rw [hclose]
  rw [readFrom_cons hread, List.singleton_append]

/-- Quoted words with spaces between and behind them are read one by one. -/
theorem readFrom_intercalate (words : List Text) (rest : Text) :
    readFrom .command {} 0 (List.intercalate (lit " ") (words.map quoted) ++ byte ' ' :: rest) =
      words.map (fun word => .word [.text word true]) ++ readFrom .command {} 0 rest := by
  induction words with
  | nil => exact readFrom_cons_nil rfl
  | cons word words ih =>
    cases words with
    | nil =>
      rw [List.map_singleton, List.map_singleton, List.intercalate_singleton, readFrom_quoted,
        readFrom_space, List.singleton_append]
    | cons next words =>
      rw [List.map_cons, List.map_cons, List.intercalate_cons_cons, List.append_assoc,
        List.append_assoc, readFrom_quoted]
      exact (readFrom_space word _).trans (congrArg _ ih)

end Reading

/-! ## What becomes of a quoted word -/

/-- A quoted text stands for itself in every session. -/
theorem globbed_quoted (host : Disk.Host) (t : Text) :
    globbed host (Glyph.ofText true t) = [t] := by
  have hwild : Pattern.isWild (Glyph.ofText true t) = false := by
    simp [Pattern.isWild, Glyph.ofText, Glyph.isPlain]
  have htext : Glyph.toText (Glyph.ofText true t) = t := by
    simp [Glyph.toText, Glyph.ofText, Function.comp_def]
  simp [globbed, hwild, htext]

/-- Quoted words are expanded to themselves. A quoted word is one field even where it is empty, and
none of its bytes is a wildcard. -/
theorem expandWords_quoted (run : Substitute) (words : List Text) (s : Session) :
    expandWords run (words.map fun word => [.text word true]) s =
      (if s.goesOn then words else [], s) := by
  induction words with
  | nil => simp [expandWords]
  | cons word words ih =>
    have hexpand : expand run {} (withHome s false [.text word true]) ({}, s) =
        (if s.goesOn then ({} : Fields).add true word else {}, s) := by
      have hhome : withHome s false [.text word true] = [.text word true] := by
        rw [withHome]
        rintro home bytes more - heq
        simp at heq
      rw [hhome]
      simp only [expand, List.foldr_cons, List.foldr_nil]
      rw [show Part.size (.text word true) + 2 = word.length + 1 + 1 from rfl, expandWithin,
        List.foldl_cons, List.foldl_nil, expandPart]
      cases s.goesOn <;> rfl
    rw [List.map_cons, expandWords, hexpand]
    dsimp only
    rw [ih]
    cases s.goesOn with
    | false => cases s.options.noMatching <;> rfl
    | true =>
      have hfields : (({} : Fields).add true word).toList = [Glyph.ofText true word] := by
        simp [Fields.add, Fields.toList, Fields.close]
      have htext : Glyph.toText (Glyph.ofText true word) = word := by
        simp [Glyph.toText, Glyph.ofText, Function.comp_def]
      cases s.options.noMatching <;> simp [hfields, htext, globbed_quoted]

/-- The command line of a program is read as the change of directory that was asked for, the
arguments, each as one word that is quoted as a whole, and the redirection of the complaints. No
session expands a quoted word to anything but the text that was quoted. -/
theorem tokens_commandLine (arguments : List Text) (directory : Option Text) :
    tokens (commandLine arguments directory) =
        (match directory with
          | none => []
          | some directory =>
            [.word [.text (lit "cd") false], .word [.text directory true], .andThen]) ++
          arguments.map (fun argument => .word [.text argument true]) ++
          [.redirect 2 .duplicate, .word [.text (lit "1") false]] ∧
      ∀ (run : Substitute) (s : Session),
        expandWords run ((directory.toList ++ arguments).map fun word => [.text word true]) s =
          (if s.goesOn then directory.toList ++ arguments else [], s) := by
  refine ⟨?_, fun run s => expandWords_quoted run _ s⟩
  have hmerged : readFrom .command {} 0 (lit "2>&1") =
      [.redirect 2 .duplicate, .word [.text (lit "1") false]] := by decide
  have harguments := readFrom_intercalate arguments (lit "2>&1")
  rw [hmerged] at harguments
  cases directory with
  | none => exact harguments
  | some directory =>
    have hand (rest : Text) : readFrom .command (behindQuoted .none directory) 0
        (lit " && " ++ rest) =
          .word [.text directory true] :: .andThen :: readFrom .command {} 0 rest := by
      have hread : readByte .command {} (byte '&') (lit "& " ++ rest) = some ([.andThen], {}, 1) :=
        rfl
      refine (readFrom_space directory _).trans (congrArg _ ((readFrom_cons hread).trans ?_))
      exact congrArg _ (readFrom_skip.trans (readFrom_cons_nil rfl))
    have hcd (rest : Text) : readFrom .command {} 0 (lit "cd " ++ rest) =
        .word [.text (lit "cd") false] :: readFrom .command {} 0 rest := rfl
    rw [tokens, commandLine, List.append_assoc, List.append_assoc, List.append_assoc, hcd,
      readFrom_quoted, hand]
    exact congrArg _ (congrArg _ (congrArg _ harguments))

example : tokens (commandLine [lit "echo", lit "$(id) `id` \\"] (some (lit "a; b"))) =
    [.word [.text (lit "cd") false], .word [.text (lit "a; b") true], .andThen,
      .word [.text (lit "echo") true], .word [.text (lit "$(id) `id` \\") true],
      .redirect 2 .duplicate, .word [.text (lit "1") false]] := by
  decide

end FlutterScaffold.Shell
