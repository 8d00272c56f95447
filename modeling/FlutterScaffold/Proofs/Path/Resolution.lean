import FlutterScaffold.Proofs.Path.Descent
import FlutterScaffold.Proofs.Name.Distinct

/-!
# Where a relative path leads

A relative path is resolved against a directory name by name: `..` goes up and nothing leads above
the start. Where a path that never climbs leads from the start is read off its normal form
(`Stays.resolve?_names`), and the path that is counted out from one directory to another place leads
there, whatever beginning the two have in common (`resolve?_relativeTo`).
-/

namespace FlutterScaffold.Path

open FlutterScaffold.Text (cut cut_append_cons)
open Byte (slash)

/-- The names, outermost first, that further names lead to; nothing leads above the start. -/
def resolve? (here : List Text) : List Text → Option (List Text)
  | [] => some here
  | name :: rest =>
    if name = dot then resolve? here rest
    else if name = dotDot then
      if here.isEmpty then none else resolve? here.dropLast rest
    else resolve? (here ++ [name]) rest

/-- Names that each lead one directory down. -/
def Ordinary (names : List Text) : Prop := ∀ name ∈ names, isOrdinary name

/-- A name is ordinary when it is not empty and does not stand for a directory. -/
theorem isOrdinary_iff {name : Text} :
    isOrdinary name ↔ name ≠ [] ∧ name ≠ dot ∧ name ≠ dotDot := by
  simp [isOrdinary, and_assoc]

/-! ## Resolving names -/

/-- Names are followed one after the other. -/
theorem resolve?_append (here a b : List Text) :
    resolve? here (a ++ b) = (resolve? here a).bind (resolve? · b) := by
  induction a generalizing here with
  | nil => rfl
  | cons name a ih =>
    rw [List.cons_append, resolve?, resolve?]
    split
    · exact ih here
    · split
      · split
        · rfl
        · exact ih _
      · exact ih _

/-- Ordinary names go down one by one. -/
theorem resolve?_ordinary (here : List Text) {names : List Text} (h : Ordinary names) :
    resolve? here names = some (here ++ names) := by
  induction names generalizing here with
  | nil => rw [resolve?, List.append_nil]
  | cons name names ih =>
    obtain ⟨hname, hnames⟩ := List.forall_mem_cons.mp h
    obtain ⟨-, hdot, hdots⟩ := isOrdinary_iff.mp hname
    rw [resolve?, if_neg hdot, if_neg hdots, ih _ hnames, List.append_assoc]
    rfl

/-- Going up undoes going down. -/
theorem resolve?_replicate_dotDot (above below : List Text) :
    resolve? (above ++ below) (List.replicate below.length dotDot) = some above := by
  induction below using List.reverseRecOn with
  | nil => rw [List.append_nil]; rfl
  | append_singleton below name ih =>
    rw [List.length_append, List.length_singleton, List.replicate_succ, resolve?,
      if_neg (by decide), if_pos rfl, ← List.append_assoc, List.dropLast_concat]
    simpa using ih

/-- The stack of a normal form is where the names lead that were put on it, as long as they never
climb above the start. A dot changes nothing, two dots take from the stack, which the count says is
not empty, and any other name goes on top of it. -/
theorem resolve?_eq_foldl_pushName {names stack : List Text} (hstack : Ordinary stack)
    (hnames : ∀ name ∈ names, name ≠ [])
    (hclimb : ∀ walked, walked <+: names →
      walked.count dotDot ≤ walked.countP isOrdinary + stack.length) :
    resolve? stack.reverse names = some (names.foldl (pushName false) stack).reverse ∧
      Ordinary (names.foldl (pushName false) stack) := by
  induction names generalizing stack with
  | nil => exact ⟨rfl, hstack⟩
  | cons name names ih =>
    obtain ⟨hname, hlast⟩ := List.forall_mem_cons.mp hnames
    have hlater (walked : List Text) (h : walked <+: names) :=
      hclimb (name :: walked) (List.cons_prefix_cons.mpr ⟨rfl, h⟩)
    rw [List.foldl_cons, resolve?, pushName.eq_def]
    by_cases hdot : name = dot
    · subst hdot
      rw [if_pos rfl, if_pos rfl]
      refine ih hstack hlast fun walked h => ?_
      have hcount := hlater walked h
      rw [List.count_cons_of_ne (by decide), List.countP_cons_of_neg (by decide)] at hcount
      exact hcount
    · rw [if_neg hdot, if_neg hdot]
      by_cases hdots : name = dotDot
      · subst hdots
        rw [if_pos rfl, if_pos rfl]
        cases stack with
        | nil =>
          have hcount := hlater [] List.nil_prefix
          rw [List.count_cons_self, List.countP_cons_of_neg (by decide)] at hcount
          simp at hcount
        | cons top below =>
          obtain ⟨htop, hbelow⟩ := List.forall_mem_cons.mp hstack
          have hreverse : (top :: below).reverse.isEmpty = false := by simp
          rw [hreverse, if_neg (by simp), List.reverse_cons, List.dropLast_concat]
          simp only [if_neg (isOrdinary_iff.mp htop).2.2]
          refine ih hbelow hlast fun walked h => ?_
          have hcount := hlater walked h
          rw [List.count_cons_self, List.countP_cons_of_neg (by decide), List.length_cons] at hcount
          omega
      · rw [if_neg hdots, if_neg hdots, ← List.reverse_cons]
        have hordinary : isOrdinary name := isOrdinary_iff.mpr ⟨hname, hdot, hdots⟩
        refine ih (List.forall_mem_cons.mpr ⟨hordinary, hstack⟩) hlast fun walked h => ?_
        have hcount := hlater walked h
        rw [List.count_cons_of_ne hdots, List.countP_cons_of_pos hordinary] at hcount
        rw [List.length_cons]
        omega

/-! ## The names of a normal form -/

/-- No name holds a slash. -/
theorem slash_not_mem_of_mem_names {p : Path} {name : Text} (h : name ∈ names p) :
    slash ∉ name := by
  rw [names, List.mem_filter] at h
  exact Text.not_mem_of_mem_cut h.1

/-- A list of names is read back from the path that joins them. -/
theorem names_intercalate {l : List Text} (hne : ∀ name ∈ l, name ≠ [])
    (hslash : ∀ name ∈ l, slash ∉ name) : names (List.intercalate separator l) = l := by
  by_cases hnil : l = []
  · rw [hnil]
    rfl
  · rw [names, separator, Text.cut_intercalate hnil hslash, List.filter_eq_self]
    simpa using hne

/-- The normal names are among those of the path, or lead up. -/
theorem mem_of_mem_foldl_pushName {names stack : List Text} {name : Text}
    (h : name ∈ names.foldl (pushName false) stack) :
      name ∈ names ∨ name ∈ stack ∨ name = dotDot := by
  induction names generalizing stack with
  | nil => exact Or.inr (Or.inl h)
  | cons first names ih =>
    rcases ih h with hmem | hmem | hmem
    · exact Or.inl (List.mem_cons_of_mem _ hmem)
    · rw [pushName.eq_def] at hmem
      split at hmem
      · exact Or.inr (Or.inl hmem)
      · split at hmem
        · split at hmem
          · exact Or.inr (Or.inr (by simpa using hmem))
          · split at hmem
            · rcases List.mem_cons.mp hmem with rfl | hmem
              · exact Or.inr (Or.inr rfl)
              · exact Or.inr (Or.inl hmem)
            · exact Or.inr (Or.inl (List.mem_cons_of_mem _ hmem))
        · rcases List.mem_cons.mp hmem with rfl | hmem
          · exact Or.inl (List.mem_cons_self ..)
          · exact Or.inr (Or.inl hmem)
    · exact Or.inr (Or.inr hmem)

/-- No normal name holds a slash. -/
theorem slash_not_mem_of_mem_normalNames {p : Path} {name : Text}
    (h : name ∈ normalNames false p.names) : slash ∉ name := by
  rw [normalNames, List.mem_reverse] at h
  rcases mem_of_mem_foldl_pushName h with h | h | rfl
  · exact slash_not_mem_of_mem_names h
  · simp at h
  · decide

/-- An ordinary name at the end is kept by the normal form. -/
theorem normalNames_concat {names : List Text} {last : Text} (h : isOrdinary last)
    (absolute : Bool) :
    normalNames absolute (names ++ [last]) = normalNames absolute names ++ [last] := by
  obtain ⟨-, hdot, hdots⟩ := isOrdinary_iff.mp h
  rw [normalNames, List.foldl_append, List.foldl_cons, List.foldl_nil, pushName.eq_def,
    if_neg hdot, if_neg hdots, List.reverse_cons]
  rfl

/-- A path that never climbs leads to the names of its normal form, which are ordinary ones. -/
theorem Stays.resolve?_names {p : Path} (h : p.Stays) :
    resolve? [] p.names = some (normalNames false p.names) ∧
      Ordinary (normalNames false p.names) := by
  have hresolve := resolve?_eq_foldl_pushName (by simp [Ordinary] : Ordinary [])
    (fun _ hname => ne_nil_of_mem_names hname) (fun walked hwalked => h.names walked hwalked)
  refine ⟨hresolve.1, fun name hname => hresolve.2 name ?_⟩
  simpa [normalNames] using hname

/-- The normal form of a path that never climbs is relative, and holds exactly its names when there
are any. -/
theorem Stays.normal_spec {p : Path} (h : p.Stays) (hne : p ≠ []) :
    p.normal.isAbsolute = false ∧
      (normalNames false p.names ≠ [] → p.normal.names = normalNames false p.names) ∧
      (normalNames false p.names = [] → p.normal = dot) := by
  have hordinary := h.resolve?_names.2
  have hslash : ∀ name ∈ normalNames false p.names, slash ∉ name :=
    fun name hname => slash_not_mem_of_mem_normalNames hname
  rw [normal]
  simp only [h.relative, List.isEmpty_iff, if_neg hne, Bool.false_eq_true, if_false,
    List.nil_append]
  generalize normalNames false p.names = kept at hordinary hslash
  cases kept with
  | nil =>
    have hkeeps : keepsSlash p [] = false := by simp [keepsSlash]
    simpa [hkeeps, List.intercalate, isAbsolute, dot] using (by decide : byte '.' ≠ slash)
  | cons first more =>
    have hne' : ∀ name ∈ first :: more, name ≠ [] :=
      fun name hname => (isOrdinary_iff.mp (hordinary name hname)).1
    have hnames := names_intercalate hne' hslash
    obtain ⟨b, rest, rfl⟩ := List.exists_cons_of_ne_nil (hne' first (by simp))
    have hb : b ≠ slash := fun heq => hslash _ (List.mem_cons_self ..) (heq ▸ List.mem_cons_self ..)
    have hhead : ∃ t, List.intercalate separator ((b :: rest) :: more) = b :: t := by
      rw [Name.intercalate_cons]
      exact ⟨_, rfl⟩
    obtain ⟨t, ht⟩ := hhead
    have hslashes (c : Bool) : ∀ x ∈ (if c then separator else []), x = slash := by
      cases c <;> simp [separator]
    refine ⟨?_, fun _ => ?_, fun hnil => absurd hnil (by simp)⟩
    · simp [ht, isAbsolute, hb]
    · rw [if_neg (by simp [ht]), names_append_slashes (hslashes _), hnames]

/-! ## Counting out a path -/

/-- A relative path without a slash at its end, which has nothing but names as elements. -/
structure Bare (p : Path) : Prop where
  relative : p.isAbsolute = false
  unslashed : p.endsInSlash = false

/-- The elements of a bare path are its names. -/
theorem Bare.elements_eq {p : Path} (h : p.Bare) : p.elements = p.names := by
  simp [elements, h.relative, h.unslashed]

/-- What two paths have in common is dropped from both. -/
theorem exists_of_dropCommon {l m target source : List Text}
    (h : dropCommon l m = (target, source)) :
      ∃ common, l = common ++ target ∧ m = common ++ source := by
  induction l generalizing m with
  | nil =>
    obtain ⟨rfl, rfl⟩ := Prod.mk.inj h
    exact ⟨[], rfl, rfl⟩
  | cons a l ih =>
    cases m with
    | nil =>
      obtain ⟨rfl, rfl⟩ := Prod.mk.inj h
      exact ⟨[], rfl, rfl⟩
    | cons b m =>
      rw [dropCommon] at h
      split at h
      · rename_i hab
        obtain ⟨common, rfl, rfl⟩ := ih h
        exact ⟨a :: common, rfl, by rw [hab]; rfl⟩
      · obtain ⟨rfl, rfl⟩ := Prod.mk.inj h
        exact ⟨[], rfl, rfl⟩

/-- Ordinary names go as deep as there are. -/
theorem depth_ordinary {names : List Text} (h : Ordinary names) : depth names = names.length := by
  induction names using List.reverseRecOn with
  | nil => rfl
  | append_singleton names name ih =>
    obtain ⟨hnames, hname⟩ := List.forall_mem_append.mp h
    obtain ⟨hne, hdot, hdots⟩ := isOrdinary_iff.mp (hname name (List.mem_singleton_self name))
    have hdepth := ih hnames
    rw [depth] at hdepth ⊢
    rw [List.foldl_append, hdepth]
    simp [hne, hdot, hdots]

/-- Names that are joined to a relative path come behind its own. -/
theorem foldl_join_spec {p : Path} {l : List Text} (hp : p.isAbsolute = false)
    (hne : ∀ name ∈ l, name ≠ []) (hslash : ∀ name ∈ l, slash ∉ name) :
    (l.foldl join p).isAbsolute = false ∧ (l.foldl join p).names = p.names ++ l := by
  induction l generalizing p with
  | nil => exact ⟨hp, (List.append_nil _).symm⟩
  | cons name l ih =>
    obtain ⟨hname, hrest⟩ := List.forall_mem_cons.mp hne
    obtain ⟨hbare, hbares⟩ := List.forall_mem_cons.mp hslash
    have hrelative : isAbsolute name = false := by
      obtain ⟨b, t, rfl⟩ := List.exists_cons_of_ne_nil hname
      have hb : b ≠ slash := fun heq => hbare (heq ▸ List.mem_cons_self ..)
      simp [isAbsolute, hb]
    obtain ⟨habs, hnames⟩ := ih ((isAbsolute_join (p := p) hrelative).trans hp) hrest hbares
    refine ⟨habs, ?_⟩
    rw [List.foldl_cons, hnames, names_join hrelative, names_of_not_mem hbare hname,
      List.append_assoc, List.singleton_append]

/-! ## Normal forms without a slash -/

/-- The last of joined names is the last name of the path. -/
theorem fileName_intercalate {l : List Text} {last : Text} (hslash : slash ∉ last) :
    ∃ directory, List.intercalate separator (l ++ [last]) = directory ++ last ∧
      fileName (List.intercalate separator (l ++ [last])) = fileName directory ++ last := by
  obtain ⟨directory, hjoin⟩ : ∃ directory,
      List.intercalate separator (l ++ [last]) = directory ++ last := by
    cases l with
    | nil => exact ⟨[], by simp [List.intercalate]⟩
    | cons first more =>
      rw [List.cons_append, Name.intercalate_cons]
      exact ⟨first ++ more.flatMap (separator ++ ·) ++ separator, by simp⟩
  exact ⟨directory, hjoin, by rw [hjoin, fileName_append hslash]⟩

/-- A path whose file name is an ordinary one has a bare normal form. -/
theorem Stays.bare_normal {p : Path} (h : p.Stays) (hname : isOrdinary (fileName p))
    (hne : normalNames false p.names ≠ []) :
    p.normal.Bare ∧ p.normal.names = normalNames false p.names := by
  obtain ⟨hempty, hdot, hdots⟩ := isOrdinary_iff.mp hname
  have hp : p ≠ [] := by
    rintro rfl
    exact hempty rfl
  obtain ⟨habs, hnames, -⟩ := h.normal_spec hp
  refine ⟨⟨habs, ?_⟩, hnames hne⟩
  have hkeeps : keepsSlash p (normalNames false p.names) = false := by
    simp [keepsSlash, hempty, hdot, hdots]
  obtain ⟨l, last, hlast⟩ := (List.eq_nil_or_concat' _).resolve_left hne
  have hmem : last ∈ normalNames false p.names := hlast ▸ List.mem_concat_self
  have hlastne := (isOrdinary_iff.mp (h.resolve?_names.2 last hmem)).1
  obtain ⟨directory, hjoin, hfile⟩ :=
    fileName_intercalate (l := l) (slash_not_mem_of_mem_normalNames hmem)
  have hnormal : p.normal = List.intercalate separator (l ++ [last]) := by
    rw [hlast] at hkeeps
    rw [normal]
    simp only [h.relative, List.isEmpty_iff, if_neg hp, hlast]
    simp [hkeeps, hjoin, hlastne]
  rw [endsInSlash, hnormal, hfile]
  simp [hlastne]

/-- The parent of a relative path is a bare path of the first of its names. -/
theorem bare_parent {p : Path} (h : p.isAbsolute = false) :
    p.parent.Bare ∧ p.parent.names <+: p.names := by
  refine ⟨⟨(isAbsolute_parent p).trans h, endsInSlash_parent p⟩, ?_⟩
  obtain ⟨directory, hp, -, hend, -, hsame⟩ := exists_sameDirectory p
  rw [hsame.1, hp]
  rcases eq_nil_or_of_fileName_eq_nil hend with rfl | ⟨above, rfl⟩
  · exact List.nil_prefix
  · rw [List.append_assoc, List.singleton_append, names_append_slash, names_append_slash, names_nil,
      List.append_nil]
    exact List.prefix_append _ _

/-- The directory of a file that never climbs is named by ordinary names. -/
theorem Stays.directory_spec {p : Path} (h : p.Stays) :
    p.normal.parent.Bare ∧ Ordinary p.normal.parent.names := by
  by_cases hp : p = []
  · subst hp
    exact ⟨⟨rfl, rfl⟩, by rintro name ⟨⟩⟩
  · obtain ⟨habs, hnames, hdot⟩ := h.normal_spec hp
    refine ⟨(bare_parent habs).1, ?_⟩
    by_cases hkept : normalNames false p.names = []
    · rw [hdot hkept]
      rintro name ⟨⟩
    · intro name hname
      refine h.resolve?_names.2 name ?_
      rw [← hnames hkept]
      exact (bare_parent habs).2.subset hname

/-! ## Relative paths -/

/-- The path that is counted out from a directory to another place leads to that place. Where the
two places differ, there is a step up or a name to go down to. -/
theorem resolve?_relativeTo {p base : Path} (hp : p.Bare) (hbase : base.Bare)
    (hnames : Ordinary p.names) (hbelow : Ordinary base.names) :
    (p.relativeTo base).isAbsolute = false ∧
      resolve? base.names (p.relativeTo base).names = some p.names := by
  rw [relativeTo, hp.relative, hbase.relative, hp.elements_eq, hbase.elements_eq]
  rw [if_neg (by simp)]
  rcases hdrop : dropCommon p.names base.names with ⟨target, source⟩
  obtain ⟨common, hto, hfrom⟩ := exists_of_dropCommon hdrop
  have htarget : Ordinary target := fun name h => hnames name (hto ▸ List.mem_append_right _ h)
  have hsource : Ordinary source := fun name h => hbelow name (hfrom ▸ List.mem_append_right _ h)
  split
  · rename_i heq
    obtain ⟨rfl, rfl⟩ := Prod.mk.inj heq
    refine ⟨rfl, ?_⟩
    rw [hto, hfrom, List.append_nil]
    rfl
  · rename_i target' source' hsame heq
    obtain ⟨rfl, rfl⟩ := Prod.mk.inj heq
    have hmoves : ¬(depth source = 0 ∧ target.head?.all (·.isEmpty)) := by
      rintro ⟨hzero, hhead⟩
      rw [depth_ordinary hsource] at hzero
      have hnil : source = [] := List.length_eq_zero_iff.mp (by exact_mod_cast hzero)
      cases target with
      | nil => exact hsame rfl hnil
      | cons name rest =>
        exact (isOrdinary_iff.mp (htarget name (List.mem_cons_self ..))).1 (by simpa using hhead)
    rw [depth_ordinary hsource] at hmoves ⊢
    simp only [Bool.and_eq_true, decide_eq_true_eq, if_neg hmoves,
      if_pos (Int.natCast_nonneg _), Int.toNat_natCast]
    have hne : ∀ name ∈ List.replicate source.length dotDot ++ target, name ≠ [] := by
      refine List.forall_mem_append.mpr ⟨fun name h => ?_, fun name h =>
        (isOrdinary_iff.mp (htarget name h)).1⟩
      rw [List.eq_of_mem_replicate h]
      decide
    have hslash : ∀ name ∈ List.replicate source.length dotDot ++ target, slash ∉ name := by
      refine List.forall_mem_append.mpr ⟨fun name h => ?_, fun name h => ?_⟩
      · rw [List.eq_of_mem_replicate h]
        decide
      · exact slash_not_mem_of_mem_names (p := p) (hto ▸ List.mem_append_right _ h)
    obtain ⟨habs, hread⟩ := foldl_join_spec (p := []) rfl hne hslash
    refine ⟨habs, ?_⟩
    rw [hread, names_nil, List.nil_append, hfrom, resolve?_append, resolve?_replicate_dotDot,
      Option.bind_some, resolve?_ordinary _ htarget, hto]

/-! ## Paths written with single slashes -/

/-- The generic spelling of a path starts where the path starts. -/
theorem isAbsolute_generic (p : Path) : p.generic.isAbsolute = p.isAbsolute := by
  fun_induction generic p with
  | case1 => rfl
  | case2 => rfl
  | case3 b c rest h ih =>
    obtain ⟨rfl, rfl⟩ := h
    exact ih
  | case4 => rfl

/-- Runs of slashes hold no names. The two ways of cutting agree on the first piece; behind it they
differ in empty ones. -/
theorem names_generic (p : Path) : p.generic.names = p.names := by
  have hpieces : ∃ first more more', cut slash p = first :: more ∧
      cut slash p.generic = first :: more' ∧
        more'.filter (!·.isEmpty) = more.filter (!·.isEmpty) := by
    fun_induction generic p with
    | case1 => exact ⟨[], [], [], rfl, rfl, rfl⟩
    | case2 b => exact ⟨_, _, _, (List.cons_head_tail (Text.cut_ne_nil _ _)).symm,
        (List.cons_head_tail (Text.cut_ne_nil _ _)).symm, rfl⟩
    | case3 b c rest h ih =>
      obtain ⟨rfl, rfl⟩ := h
      obtain ⟨first, more, more', hp, hg, hsame⟩ := ih
      rw [cut, if_pos rfl] at hp
      obtain ⟨rfl, rfl⟩ := List.cons_eq_cons.mp hp
      refine ⟨[], [] :: cut slash rest, more', ?_, hg, by simpa using hsame⟩
      rw [cut, if_pos rfl, cut, if_pos rfl]
    | case4 b c rest h ih =>
      obtain ⟨first, more, more', hp, hg, hsame⟩ := ih
      by_cases hb : b = slash
      · refine ⟨[], first :: more, first :: more', ?_, ?_, ?_⟩
        · rw [cut, if_pos hb, hp]
        · rw [cut, if_pos hb, hg]
        · simp [List.filter_cons, hsame]
      · refine ⟨b :: first, more, more', ?_, ?_, hsame⟩
        · rw [cut, if_neg hb, hp]
        · rw [cut, if_neg hb, hg]
  obtain ⟨first, more, more', hp, hg, hsame⟩ := hpieces
  simp only [names, hp, hg, List.filter_cons, hsame]

end FlutterScaffold.Path
