import FlutterScaffold.Proofs.Registry.Idempotency

/-!
# A patch only adds

Whatever a route and its registry hold, a patch makes at most four single insertions: the block of
the import, the block of the constants, a comma, and the block of the entry, each at most once
(`patch_grows`). A block is rendered with the line break of the text it is inserted into: of the
document under the atomic policy, which takes all decisions at once, and of the text as it has
become under the best-effort policy. So every byte of the document is kept, in its order.
-/

namespace FlutterScaffold.Registry

open FlutterScaffold.Text (splice block lineBreak)
open Byte (isBlank)

/-- The texts that a patch inserts. -/
inductive Part where
  /-- The import of the page. -/
  | imports
  /-- The pair of constants. -/
  | constants
  /-- The comma that the last element of the list lacks. -/
  | comma
  /-- The entry of the list. -/
  | entry
  deriving DecidableEq, Repr

/-- How a part is written into the text `base`. -/
inductive Written (spec : AnchorSpec) (route : Route) (base : Text) : Part → Text → Prop where
  | imports {indent : Text} (h : ∀ b ∈ indent, isBlank b) :
      Written spec route base .imports (block (lineBreak base) indent (importLines route))
  | constants {indent : Text} (h : ∀ b ∈ indent, isBlank b) :
      Written spec route base .constants (block (lineBreak base) indent (constantLines route))
  | comma : Written spec route base .comma [byte ',']
  | entry {indent : Text} (h : ∀ b ∈ indent, isBlank b) :
      Written spec route base .entry (block (lineBreak base) indent (entryLines spec route))
  | entryLine {indent blanks : Text} (h : ∀ b ∈ indent, isBlank b) (h' : ∀ b ∈ blanks, isBlank b) :
      Written spec route base .entry
        (block (lineBreak base) indent (entryLines spec route) ++ (lineBreak base ++ blanks))

/-- A comma is written the same way everywhere. -/
theorem Written.of_comma {spec : AnchorSpec} {route : Route} {base base' text : Text}
    (h : Written spec route base .comma text) : Written spec route base' .comma text := by
  cases h
  exact .comma

/-- The text that a policy renders a part for which it inserts into `current`. -/
def Policy.base (policy : Policy) (doc current : Text) : Text :=
  match policy with
  | .atomic => doc
  | .bestEffort => current

/-- Single insertions into a document, the last one first, and the text they lead to. -/
inductive Grown (spec : AnchorSpec) (policy : Policy) (route : Route) (doc : Text) :
    List (Part × Insertion) → Text → Prop where
  | nil : Grown spec policy route doc [] doc
  | cons {edits : List (Part × Insertion)} {current : Text} {part : Part} {i : Insertion}
      (h : Grown spec policy route doc edits current) (hoffset : i.offset ≤ current.length)
      (hwritten : Written spec route (policy.base doc current) part i.text) :
      Grown spec policy route doc ((part, i) :: edits) (i.into current)

namespace Grown

variable {spec : AnchorSpec} {policy : Policy} {route : Route} {doc current : Text}
  {edits : List (Part × Insertion)}

/-- Insertions keep every byte of the document in its place among the others. -/
theorem sublist (h : Grown spec policy route doc edits current) : doc.Sublist current := by
  induction h with
  | nil => exact List.Sublist.refl doc
  | cons _ _ _ ih => exact ih.trans (Insertion.sublist_into _ _)

/-- Insertions add their lengths. -/
theorem length_eq (h : Grown spec policy route doc edits current) :
    current.length = doc.length + Insertion.added (edits.map Prod.snd) := by
  induction h with
  | nil => rfl
  | cons _ _ _ ih =>
    rw [Insertion.length_into, ih, List.map_cons, Insertion.added_cons, Nat.add_assoc,
      Nat.add_comm (Insertion.added _)]

/-- More insertions, each rendered for the text it is made into. -/
theorem append (h : Grown spec policy route doc edits current) {more : List (Part × Insertion)}
    (hoffset : ∀ edit ∈ more, edit.2.offset ≤ current.length)
    (hwritten : ∀ edit earlier, edit :: earlier <:+ more → Written spec route
      (policy.base doc ((earlier.map Prod.snd).foldr Insertion.into current)) edit.1 edit.2.text) :
    Grown spec policy route doc (more ++ edits)
      ((more.map Prod.snd).foldr Insertion.into current) := by
  induction more with
  | nil => exact h
  | cons edit more ih =>
    obtain ⟨hfirst, hrest⟩ := List.forall_mem_cons.mp hoffset
    have hmore := ih hrest fun edit earlier hsuffix =>
      hwritten edit earlier (hsuffix.trans (List.suffix_cons _ _))
    exact hmore.cons (hfirst.trans (Insertion.length_le_length_foldr_into _ _))
      (hwritten edit more List.suffix_rfl)

end Grown

/-! ## The parts of each merge -/

/-- Insertions into a text that write some of the given parts. -/
structure Writes (spec : AnchorSpec) (route : Route) (doc : Text) (parts : List Part)
    (edits : List (Part × Insertion)) (insertions : List Insertion) : Prop where
  map_snd : edits.map Prod.snd = insertions
  sublist : (edits.map Prod.fst).Sublist parts
  written : ∀ edit ∈ edits, Written spec route doc edit.1 edit.2.text
  offset_le : ∀ edit ∈ edits, edit.2.offset ≤ doc.length

/-- The insertions of a single decision: only the last of them renders a block. -/
structure WritesBlock (spec : AnchorSpec) (route : Route) (doc : Text) (parts : List Part)
    (edits : List (Part × Insertion)) (insertions : List Insertion) : Prop
    extends Writes spec route doc parts edits insertions where
  sorted : insertions.Pairwise (·.offset ≤ ·.offset)
  eq_comma : ∀ edit ∈ edits.dropLast, edit.1 = .comma

namespace Writes

variable {spec : AnchorSpec} {route : Route} {doc : Text}

theorem nil (parts : List Part) : Writes spec route doc parts [] [] :=
  ⟨rfl, List.nil_sublist _, by simp, by simp⟩

/-- What two lists of insertions write is written by both together. -/
theorem append {parts parts' : List Part} {edits edits' : List (Part × Insertion)}
    {l l' : List Insertion} (h : Writes spec route doc parts edits l)
    (h' : Writes spec route doc parts' edits' l') :
    Writes spec route doc (parts ++ parts') (edits ++ edits') (l ++ l') where
  map_snd := by rw [List.map_append, h.map_snd, h'.map_snd]
  sublist := by
    rw [List.map_append]
    exact h.sublist.append h'.sublist
  written := fun edit hmem => (List.mem_append.mp hmem).elim (h.written edit) (h'.written edit)
  offset_le := fun edit hmem => (List.mem_append.mp hmem).elim (h.offset_le edit)
    (h'.offset_le edit)

/-- Everything is written inside the document. -/
theorem offset_le_of_mem {parts : List Part} {edits : List (Part × Insertion)} {l : List Insertion}
    (h : Writes spec route doc parts edits l) : ∀ i ∈ l, i.offset ≤ doc.length := by
  rw [← h.map_snd]
  exact List.forall_mem_map.mpr h.offset_le

/-- The insertions of all decisions, taken on one document, are made into it in the order of their
offsets. -/
theorem exists_grown_atomic {parts : List Part} {edits : List (Part × Insertion)}
    {l : List Insertion} (h : Writes spec route doc parts edits l) :
    ∃ edits', edits'.Perm edits ∧ Grown spec .atomic route doc edits' (splice doc l) := by
  have htagged : List.Forall₂ (fun i (edit : Part × Insertion) => i = edit.2) l edits := by
    rw [← h.map_snd, List.forall₂_map_left_iff]
    exact List.forall₂_same.mpr fun _ _ => rfl
  obtain ⟨edits', hsort, hperm⟩ := List.perm_comp_forall₂ (Insertion.perm_sort l) htagged
  have hmap : Insertion.sort l = edits'.map Prod.snd := by
    rwa [← List.forall₂_eq_eq_eq, List.forall₂_map_right_iff]
  refine ⟨edits', hperm, ?_⟩
  have hmem (edit : Part × Insertion) : edit ∈ edits' → edit ∈ edits := hperm.mem_iff.mp
  have hgrown := (Grown.nil : Grown spec .atomic route doc [] doc).append
    (fun edit hedit => h.offset_le edit (hmem edit hedit))
    fun edit rest hsuffix => h.written edit (hmem edit (hsuffix.subset (List.mem_cons_self ..)))
  rwa [List.append_nil, ← hmap, ← Text.splice_eq_foldr h.offset_le_of_mem] at hgrown

end Writes

/-- The insertions of a decision are made one by one into the text that it was taken on. -/
theorem WritesBlock.grown {spec : AnchorSpec} {route : Route} {doc start : Text} {parts : List Part}
    {edits earlier : List (Part × Insertion)} {l : List Insertion}
    (h : WritesBlock spec route doc parts edits l)
    (hgrown : Grown spec .bestEffort route start earlier doc) :
    Grown spec .bestEffort route start (edits ++ earlier) (splice doc l) := by
  rw [Text.splice_eq_foldr h.toWrites.offset_le_of_mem, Insertion.sort_eq_self h.sorted,
    ← h.map_snd]
  refine hgrown.append h.offset_le fun edit rest hsuffix => ?_
  have hwritten := h.written edit (hsuffix.subset (List.mem_cons_self ..))
  cases rest with
  | nil => exact hwritten
  | cons next rest =>
    obtain ⟨init, rfl⟩ := hsuffix
    have hcomma : edit.1 = .comma := h.eq_comma edit (by simp [List.dropLast_append_of_ne_nil])
    rw [hcomma] at hwritten ⊢
    exact hwritten.of_comma

namespace WritesBlock

variable {spec : AnchorSpec} {route : Route} {doc : Text}

theorem nil (parts : List Part) : WritesBlock spec route doc parts [] [] :=
  ⟨.nil parts, List.Pairwise.nil, by simp⟩

/-- A single insertion of a part is a block. -/
theorem singleton {parts : List Part} {part : Part} {i : Insertion} (hpart : part ∈ parts)
    (hwritten : Written spec route doc part i.text) (hoffset : i.offset ≤ doc.length) :
    WritesBlock spec route doc parts [(part, i)] [i] where
  map_snd := rfl
  sublist := List.singleton_sublist.mpr hpart
  written := List.forall_mem_singleton.mpr hwritten
  offset_le := List.forall_mem_singleton.mpr hoffset
  sorted := List.pairwise_singleton _ _
  eq_comma := by simp

end WritesBlock

section Merges

variable (spec : AnchorSpec) (route : Route) (doc : Text)

/-- An import is written as one block. -/
theorem exists_writesBlock_mergeImport : ∃ edits, WritesBlock spec route doc [.imports] edits
    (mergeImport doc (spec.scan doc) route).insertions := by
  by_cases hnil : (mergeImport doc (spec.scan doc) route).insertions = []
  · exact ⟨[], hnil ▸ .nil _⟩
  · obtain ⟨e, he, heq⟩ := mergeImport_eq_insert hnil
    obtain ⟨a, m, b, rfl, -, -, -, rfl, -⟩ := importEnd?_eq_some_iff.mp he
    rw [heq]
    exact ⟨_, .singleton (List.mem_cons_self ..) (.imports fun x => Text.isBlank_of_mem_lineIndent)
      (by simp [blockBelow])⟩

/-- A pair of constants is written as one block. -/
theorem exists_writesBlock_mergeConstants : ∃ edits, WritesBlock spec route doc [.constants] edits
    (mergeConstants doc (spec.scan doc) route).insertions := by
  by_cases hnil : (mergeConstants doc (spec.scan doc) route).insertions = []
  · exact ⟨[], hnil ▸ .nil _⟩
  · obtain ⟨c, hc, heq⟩ := mergeConstants_eq_insert hnil
    obtain ⟨a, m, b, rfl, rfl, -⟩ := exists_of_constantEnd? hc
    rw [heq]
    exact ⟨_, .singleton (List.mem_cons_self ..)
      (.constants fun x => Text.isBlank_of_mem_lineIndent) (by simp [blockBelow])⟩

/-- An entry is written as one block, and in front of it the comma where one is lacking. The comma
goes behind code, and the entry behind all content, so the comma comes first. -/
theorem exists_writesBlock_mergeEntry : ∃ edits, WritesBlock spec route doc [.comma, .entry] edits
    (mergeEntry spec doc (spec.scan doc) route).insertions := by
  by_cases hnil : (mergeEntry spec doc (spec.scan doc) route).insertions = []
  · exact ⟨[], hnil ▸ .nil _⟩
  · obtain ⟨o, closer, -, hclose, heq⟩ := exists_of_mergeEntry hnil
    obtain ⟨hstart, hcloser⟩ := listStart_le_of_listClose? hclose
    have htail : contentEnd doc (spec.listStart o) closer ≤ doc.length :=
      (contentEnd_bounds doc hstart).2.trans hcloser.le
    have hentry : Written spec route doc .entry
        (entryInsertion spec doc (spec.listStart o) closer route).text := by
      rw [entryInsertion]
      dsimp only
      split
      · rw [List.append_nil]
        exact .entry isBlank_of_mem_entryIndent
      · exact .entryLine isBlank_of_mem_entryIndent fun x => Text.isBlank_of_mem_lineIndent
    rw [heq]
    rcases appendEntry_insertions spec doc (spec.listStart o) closer with
      ⟨-, hone⟩ | ⟨last, hlast, -, htwo⟩
    · rw [hone]
      exact ⟨_, .singleton (by simp) hentry htail⟩
    · obtain ⟨hlt, b, hb, hbare⟩ := lastCode?_lt_of_listClose? hclose last hlast
      have hle : last + 1 ≤ (entryInsertion spec doc (spec.listStart o) closer route).offset :=
        lt_contentEnd hstart hcloser.le hlt hb hbare
      have hfirst : WritesBlock spec route doc [.comma] _ [⟨last + 1, [byte ',']⟩] :=
        .singleton (by simp) .comma (hle.trans htail)
      have hsecond : WritesBlock spec route doc [.entry] _
          [entryInsertion spec doc (spec.listStart o) closer route] :=
        .singleton (by simp) hentry htail
      rw [htwo]
      exact ⟨_, hfirst.toWrites.append hsecond.toWrites, by simpa using hle, by simp⟩

end Merges

/-! ## Whole patches -/

section Patches

variable {spec : AnchorSpec} {route : Route} {doc : Text}

/-- The atomic policy makes the insertions of all its decisions, or none. -/
theorem exists_writes_patchAtomic (spec : AnchorSpec) (route : Route) (doc : Text) :
    (patchAtomic spec doc route).text = doc ∨
      ∃ edits, Writes spec route doc [.imports, .constants, .comma, .entry] edits
          ((mergeImport doc (spec.scan doc) route).insertions ++
            (mergeConstants doc (spec.scan doc) route).insertions ++
            (mergeEntry spec doc (spec.scan doc) route).insertions) ∧
        (patchAtomic spec doc route).text =
          splice doc ((mergeImport doc (spec.scan doc) route).insertions ++
            (mergeConstants doc (spec.scan doc) route).insertions ++
            (mergeEntry spec doc (spec.scan doc) route).insertions) := by
  rcases text_patchAtomic spec doc route with htext | htext
  · exact Or.inl htext
  · obtain ⟨imports, himports⟩ := exists_writesBlock_mergeImport spec route doc
    obtain ⟨constants, hconstants⟩ := exists_writesBlock_mergeConstants spec route doc
    obtain ⟨entry, hentry⟩ := exists_writesBlock_mergeEntry spec route doc
    exact Or.inr ⟨_, (himports.toWrites.append hconstants.toWrites).append hentry.toWrites, htext⟩

/-- The atomic policy makes a document grow by parts of the route, each of them once. -/
private theorem patchAtomic_grown : ∃ edits,
    Grown spec .atomic route doc edits (patchAtomic spec doc route).text ∧
      (edits.map Prod.fst).Nodup := by
  rcases exists_writes_patchAtomic spec route doc with htext | ⟨_, hall, htext⟩
  · rw [htext]
    exact ⟨[], .nil, List.nodup_nil⟩
  · obtain ⟨edits, hperm, hgrown⟩ := hall.exists_grown_atomic
    rw [htext]
    exact ⟨edits, hgrown, (hperm.map Prod.fst).nodup_iff.mpr (hall.sublist.nodup (by decide))⟩

/-- The best-effort policy makes a document grow by parts of the route, each of them once. -/
private theorem patchBestEffort_grown : ∃ edits,
    Grown spec .bestEffort route doc edits (patchBestEffort spec doc route).text ∧
      (edits.map Prod.fst).Nodup := by
  obtain ⟨seen, done, hseen, hdone, htext⟩ := text_patchBestEffort spec doc route
  obtain ⟨imports, himports⟩ := exists_writesBlock_mergeImport spec route doc
  have hgrown := himports.grown .nil
  rw [hseen] at hgrown
  rcases htext with htext | htext | htext <;> rw [htext]
  · exact ⟨[], .nil, List.nodup_nil⟩
  · refine ⟨_, hgrown, ?_⟩
    rw [List.append_nil]
    exact himports.sublist.nodup (by decide)
  · obtain ⟨constants, hconstants⟩ := exists_writesBlock_mergeConstants spec route seen
    obtain ⟨entry, hentry⟩ := exists_writesBlock_mergeEntry spec route done
    have hgrown' := hconstants.grown hgrown
    rw [hdone] at hgrown'
    have hparts := hentry.sublist.append (hconstants.sublist.append himports.sublist)
    refine ⟨_, hentry.grown hgrown', ?_⟩
    simp only [List.map_append, List.append_nil]
    exact hparts.nodup (by decide)

end Patches

/-- Under either policy and whatever the texts of the route and the spelling of the registry are, a
patch makes at most four single insertions, each of another part and rendered for the text it is
made into. So the document is a subsequence of the result, which is longer by what is inserted. -/
theorem patch_grows (spec : AnchorSpec) (policy : Policy) (doc : Text) (route : Route) :
    ∃ edits : List (Part × Insertion),
      Grown spec policy route doc edits (patch spec policy doc route).text ∧
      (edits.map Prod.fst).Nodup ∧ edits.length ≤ 4 ∧
      doc.Sublist (patch spec policy doc route).text ∧
      (patch spec policy doc route).text.length =
        doc.length + Insertion.added (edits.map Prod.snd) := by
  obtain ⟨edits, hgrown, hnodup⟩ : ∃ edits : List (Part × Insertion),
      Grown spec policy route doc edits (patch spec policy doc route).text ∧
      (edits.map Prod.fst).Nodup := by
    cases policy with
    | atomic => exact patchAtomic_grown
    | bestEffort => exact patchBestEffort_grown
  refine ⟨edits, hgrown, hnodup, ?_, hgrown.sublist, hgrown.length_eq⟩
  have hsub : edits.map Prod.fst ⊆ [.imports, .constants, .comma, .entry] := by
    intro part _
    cases part <;> simp
  have hle := (hnodup.subperm hsub).length_le
  simpa using hle

end FlutterScaffold.Registry
