import FlutterScaffold.Proofs.Registry.Constants
import FlutterScaffold.Proofs.Registry.Filling
import FlutterScaffold.Template.Application

/-!
# Runs on a clean registry

A patch of a clean registry is always full, and under either policy it fills the gaps of the frame
with what the registry lacks of the route (`Framing.patch`). So a run leaves a clean registry with
the new declarations of each kind in the order of the run, and every route of the run stays
registered, unless its constants stood in the line that the list's comma falls into
(`registerAll_keeps`).
-/

namespace FlutterScaffold.Registry

open FlutterScaffold.Text (block splice)

/-- A declaration that a document lacks. -/
def lacking (doc : Text) (declaration : List Text) : List (List Text) :=
  if declares doc declaration then [] else [declaration]

/-- What a document lacks of a route. -/
def missing (spec : AnchorSpec) (doc : Text) (route : Route) : Additions where
  imports := lacking doc (importLines route)
  constants := lacking doc (constantLines route)
  entries := lacking doc (entryLines spec route)

/-- The outcome of a patch that finds everything in place. -/
def Outcome.settled (doc : Text) : Outcome where
  applied := true
  detail := .full
  importStatus := some .present
  constantsStatus := some .present
  entryStatus := some .present
  text := doc

section Missing

variable {spec : AnchorSpec} {doc : Text} {route : Route} {d x : List Text}

/-- A declaration is lacking exactly when the document does not declare it. -/
theorem mem_lacking : x ∈ lacking doc d ↔ x = d ∧ declares doc d = false := by
  rw [lacking]
  split <;> simp_all

theorem plain_missing (spec : AnchorSpec) (doc : Text) (hr : route.Plain) :
    (missing spec doc route).Plain spec where
  imports _ hd := ⟨route, hr, (mem_lacking.mp hd).1⟩
  constants _ hd := ⟨route, hr, (mem_lacking.mp hd).1⟩
  entries _ hd := ⟨route, hr, (mem_lacking.mp hd).1⟩

/-- What a route misses are its declarations that the document does not declare. -/
theorem mem_all_missing :
    x ∈ (missing spec doc route).all ↔ x ∈ declarations spec route ∧ declares doc x = false := by
  simp only [missing, Additions.all, List.mem_append, mem_lacking, declarations, List.mem_cons,
    List.not_mem_nil, or_false]
  constructor
  · rintro ((⟨rfl, h⟩ | ⟨rfl, h⟩) | ⟨rfl, h⟩) <;> simp [h]
  · rintro ⟨rfl | rfl | rfl, h⟩ <;> simp [h]

end Missing

/-! ## A patch -/

/-- Insertions at the end of a piece, if any, and others behind it. -/
theorem splice_append_of_eq {a b t : Text} {first l : List Insertion}
    (h : (first = [] ∧ t = []) ∨ first = [{ offset := a.length, text := t }]) :
    splice (a ++ b) (first ++ l.map (Insertion.ahead a.length)) = a ++ (t ++ splice b l) := by
  rcases h with ⟨rfl, rfl⟩ | rfl
  · rw [List.nil_append, List.nil_append, Text.splice_append_ahead]
  · rw [List.singleton_append, Text.splice_cons_ahead]

namespace Framing

variable {spec : AnchorSpec} {f : Frame} {p : Places} (h : Framing spec f p)

include h

/-- The import that the registry lacks goes into the first gap. -/
theorem mergeImport_insertions (route : Route) :
    ((mergeImport f.text (spec.scan f.text) route).insertions = [] ∧
        block f.lineBreak f.importIndent (lacking f.text (importLines route)).flatten = []) ∨
      (mergeImport f.text (spec.scan f.text) route).insertions = [{
        offset := f.front.length
        text := block f.lineBreak f.importIndent (lacking f.text (importLines route)).flatten
          }] := by
  rw [mergeImport, lacking, h.clean.scan_eq]
  split
  · exact Or.inl ⟨rfl, rfl⟩
  · refine Or.inr ?_
    rw [List.flatten_singleton, Places.anchors, ← h.importIndent_eq, ← h.lineBreak_eq,
      ← h.importEnd_eq]
    rfl

/-- The constants that the registry lacks go into the second gap. -/
theorem mergeConstants_insertions (route : Route) :
    ((mergeConstants f.text (spec.scan f.text) route).insertions = [] ∧
        block f.lineBreak f.constantIndent (lacking f.text (constantLines route)).flatten = []) ∨
      (mergeConstants f.text (spec.scan f.text) route).insertions = [{
        offset := f.front.length + f.middle.length
        text := block f.lineBreak f.constantIndent
          (lacking f.text (constantLines route)).flatten }] := by
  rw [mergeConstants, lacking, h.clean.scan_eq]
  split
  · exact Or.inl ⟨rfl, rfl⟩
  · refine Or.inr ?_
    rw [List.flatten_singleton, Places.anchors, ← h.constantIndent_eq, ← h.lineBreak_eq,
      ← List.length_append, ← h.constantEnd_eq]
    rfl

/-- An entry goes behind the anchors of the statements. -/
theorem le_offset_of_mem_mergeEntry (hs : spec.Accepted) (route : Route) :
    ∀ i ∈ (mergeEntry spec f.text (spec.scan f.text) route).insertions,
      f.front.length + f.middle.length ≤ i.offset := by
  intro i hi
  obtain ⟨o, ho, hle⟩ := exists_of_mem_mergeEntry hs hi
  obtain rfl := Option.some.inj (ho.symm.trans h.clean.listOpen_eq)
  have hbounds := h.clean.constantEnd_bounds
  have hlt := h.clean.closer_lt
  have hlen := h.constantEnd_eq
  rw [List.length_append] at hlen
  omega

/-- With the entry that it lacks, the registry is the one whose third gap holds it. -/
theorem splice_mergeEntry (route : Route) :
    splice f.text (mergeEntry spec f.text (spec.scan f.text) route).insertions =
      (f.add { entries := lacking f.text (entryLines spec route) }).text := by
  by_cases hdeclares : declares f.text (entryLines spec route) = true
  · rw [mergeEntry_of_declares hdeclares, Step.insertions, Text.splice_nil, lacking,
      if_pos hdeclares]
    exact congrArg Frame.text (Frame.add_nil f).symm
  · have hne : (mergeEntry spec f.text (spec.scan f.text) route).insertions ≠ [] := fun hnil =>
      hdeclares (mergeEntry_insertions_eq_nil_iff.mp ⟨hnil, (h.clean.status_ne_missing route).2.2⟩)
    obtain ⟨o, closer, hopen, hclose, site, hsite⟩ := exists_site_of_mergeEntry hne
    obtain rfl := Option.some.inj (hopen.symm.trans h.clean.listOpen_eq)
    obtain rfl := Option.some.inj (hclose.symm.trans h.clean.listClose_eq)
    obtain ⟨own, hcuts⟩ := h.exists_site
    obtain rfl := Subsingleton.elim own site
    have hadded : (f.add { entries := [entryLines spec route] }).text = f.front ++ (f.middle ++
        (f.code ++ (f.comma ++ (f.content ++
          (block f.lineBreak f.entryIndent (entryLines spec route) ++
          (f.closing ++ f.rest)))))) := by
      simp [Frame.add_of_entries_ne_nil, Frame.text]
    rw [hsite, lacking, if_neg hdeclares, hadded, EntrySite.entered, hcuts.code_eq,
      hcuts.comma_eq, hcuts.content_eq, hcuts.closing_eq, hcuts.rest_eq, hcuts.indent_eq,
      h.lineBreak_eq]
    simp only [List.append_assoc]

/-- The entry that the registry lacks goes into the third gap. Both ways of adding the entry leave
the two pieces in front of it, so the rest is the same. -/
theorem mergeEntry_insertions (hs : spec.Accepted) (route : Route) : ∃ l : List Insertion,
    (mergeEntry spec f.text (spec.scan f.text) route).insertions =
        (l.map (Insertion.ahead f.middle.length)).map (Insertion.ahead f.front.length) ∧
      f.list (lacking f.text (entryLines spec route)) =
        splice (f.code ++ (f.content ++ f.rest)) l := by
  obtain ⟨i, hi⟩ : ∃ i, i = (mergeEntry spec f.text (spec.scan f.text) route).insertions := ⟨_, rfl⟩
  have hbehind : ∀ j ∈ i, f.front.length + f.middle.length ≤ j.offset :=
    hi ▸ h.le_offset_of_mem_mergeEntry hs route
  have hmoved : ((i.map (Insertion.behind (f.front.length + f.middle.length))).map
      (Insertion.ahead f.middle.length)).map (Insertion.ahead f.front.length) = i := by
    refine Eq.trans ?_ (Insertion.map_behind_ahead hbehind)
    rw [List.map_map]
    refine List.map_congr_left fun j _ => ?_
    simp only [Function.comp_apply, Insertion.ahead, Nat.add_assoc]
  refine ⟨i.map (Insertion.behind (f.front.length + f.middle.length)), by rw [hmoved, hi], ?_⟩
  have hsplice : splice f.text i =
      f.front ++ (f.middle ++ splice (f.code ++ (f.content ++ f.rest))
        (i.map (Insertion.behind (f.front.length + f.middle.length)))) := by
    conv_lhs => rw [← hmoved]
    rw [Frame.text, Text.splice_append_ahead, Text.splice_append_ahead]
  have hadded := h.splice_mergeEntry route
  rw [← hi, hsplice, Frame.text_add] at hadded
  simpa using hadded.symm

/-- The merges of a route fill the gaps of a clean registry with what it lacks of the route. -/
theorem splice_steps (hs : spec.Accepted) (route : Route) :
    splice f.text ((steps spec f.text route).flatMap Step.insertions) =
      (f.add (missing spec f.text route)).text := by
  obtain ⟨l, hl, hlist⟩ := h.mergeEntry_insertions hs route
  obtain ⟨c, hc, hone⟩ : ∃ c : List Insertion,
      (mergeConstants f.text (spec.scan f.text) route).insertions =
        c.map (Insertion.ahead f.front.length) ∧
      ((c = [] ∧ block f.lineBreak f.constantIndent
          (missing spec f.text route).constants.flatten = []) ∨
        c = [{
          offset := f.middle.length
          text := block f.lineBreak f.constantIndent
            (missing spec f.text route).constants.flatten }]) := by
    rcases h.mergeConstants_insertions route with ⟨hnil, hempty⟩ | hone
    · exact ⟨[], hnil, Or.inl ⟨rfl, hempty⟩⟩
    · exact ⟨[⟨f.middle.length, _⟩], hone, Or.inr rfl⟩
  have hsteps : (steps spec f.text route).flatMap Step.insertions =
      (mergeImport f.text (spec.scan f.text) route).insertions ++
        (c ++ l.map (Insertion.ahead f.middle.length)).map (Insertion.ahead f.front.length) := by
    rw [List.map_append, ← hc, ← hl]
    simp [steps]
  rw [hsteps, Frame.text_add]
  refine (splice_append_of_eq (h.mergeImport_insertions route)).trans ?_
  rw [splice_append_of_eq hone, ← hlist]
  rfl

end Framing

/-- A patch of a clean registry carries all three merges out, under either policy. -/
theorem CleanAt.patch_eq {spec : AnchorSpec} {doc : Text} {p : Places} {route : Route}
    (h : CleanAt spec doc p) (hs : spec.Plain) (hr : route.Plain) (policy : Policy) :
    patch spec policy doc route =
        { applied := true
          detail := .full
          modified := (patch spec policy doc route).modified
          importStatus := some (mergeImport doc (spec.scan doc) route).status
          constantsStatus := some (mergeConstants doc (spec.scan doc) route).status
          entryStatus := some (mergeEntry spec doc (spec.scan doc) route).status
          text := splice doc ((steps spec doc route).flatMap Step.insertions) } ∧
      ((steps spec doc route).flatMap Step.insertions = [] →
        (patch spec policy doc route).modified = false) := by
  obtain ⟨hi, hc, he⟩ := h.status_ne_missing route
  have hmissing : ∀ step ∈ steps spec doc route, step.status ≠ .missing := by
    simp only [steps, List.forall_mem_cons, List.not_mem_nil, false_implies, implies_true, and_true]
    exact ⟨hi, hc, he⟩
  have hsteps : (steps spec doc route).flatMap Step.insertions =
      (mergeImport doc (spec.scan doc) route).insertions ++
        (mergeConstants doc (spec.scan doc) route).insertions ++
        (mergeEntry spec doc (spec.scan doc) route).insertions := by
    simp [steps]
  rw [hsteps]
  cases policy with
  | atomic =>
    simp only [patch, patchAtomic, hi, hc, he, decide_false, Bool.or_self, Bool.false_eq_true,
      if_false, true_and]
    intro hnil
    rw [hnil]
    rfl
  | bestEffort =>
    simp only [patch, patchBestEffort_of_ordered hs hr h.ordered hmissing, patchAtomic, hi, hc, he,
      decide_false, Bool.or_self, Bool.false_eq_true, if_false, true_and]
    intro hnil
    rw [hnil, Text.splice_nil]
    simp

/-- A patch finds all in place where the registry has all declarations of the route. -/
theorem CleanAt.patch_of_declares {spec : AnchorSpec} {doc : Text} {p : Places} {route : Route}
    (h : CleanAt spec doc p) (hs : spec.Plain) (hr : route.Plain) (policy : Policy)
    (hall : ∀ d ∈ declarations spec route, declares doc d = true) :
    patch spec policy doc route = Outcome.settled doc := by
  simp only [declarations, List.forall_mem_cons, List.not_mem_nil, false_implies, implies_true,
    and_true] at hall
  obtain ⟨himport, hconstants, hentry⟩ := hall
  obtain ⟨heq, hmodified⟩ := h.patch_eq hs hr policy
  have hnil : (steps spec doc route).flatMap Step.insertions = [] := by
    simp [steps, mergeImport_of_declares himport, mergeConstants_of_declares hconstants,
      mergeEntry_of_declares hentry, Step.insertions]
  rw [heq, hmodified hnil, hnil, Text.splice_nil, mergeImport_of_declares himport,
    mergeConstants_of_declares hconstants, mergeEntry_of_declares hentry]
  rfl

/-! ## A run -/

/-- The additions that a run of routes makes to a frame: what is lacking of each, behind the
additions of the earlier ones. -/
def Frame.additions (spec : AnchorSpec) (f : Frame) (routes : List Route) : Additions :=
  routes.foldl (fun A route => A ++ missing spec (f.add A).text route) {}

section Run

variable {spec : AnchorSpec} {f : Frame} {p : Places} {routes : List Route}

/-- A further route adds what the frame with the other routes' additions misses. -/
theorem Frame.additions_concat (spec : AnchorSpec) (f : Frame) (routes : List Route)
    (route : Route) :
    f.additions spec (routes ++ [route]) =
      f.additions spec routes ++ missing spec (f.add (f.additions spec routes)).text route := by
  simp [Frame.additions]

/-- What a run of plain routes adds is plain. -/
theorem plain_additions (spec : AnchorSpec) (f : Frame) (h : ∀ r ∈ routes, r.Plain) :
    (f.additions spec routes).Plain spec := by
  induction routes using List.reverseRecOn with
  | nil => exact ⟨by simp [Frame.additions], by simp [Frame.additions], by simp [Frame.additions]⟩
  | append_singleton routes route ih =>
    obtain ⟨hroutes, hroute⟩ := List.forall_mem_append.mp h
    rw [Frame.additions_concat]
    exact (ih hroutes).append (plain_missing spec _ (hroute route (List.mem_singleton_self _)))

/-- A run on a clean registry fills its gaps in order, whatever policies it is under. -/
theorem Framing.registerAll (h : Framing spec f p) (hs : spec.Plain)
    (registrations : List (Policy × Route)) (hr : ∀ r ∈ registrations, r.2.Plain) :
    registerAll spec f.text registrations =
      (f.add (f.additions spec (registrations.map Prod.snd))).text := by
  induction registrations using List.reverseRecOn with
  | nil => simp [Registry.registerAll, Frame.additions, Frame.add_nil]
  | append_singleton registrations r ih =>
    obtain ⟨hrun, hlast⟩ := List.forall_mem_append.mp hr
    have hplain : (f.additions spec (registrations.map Prod.snd)).Plain spec :=
      plain_additions spec f fun route hroute => by
        obtain ⟨r, hmem, rfl⟩ := List.mem_map.mp hroute
        exact hrun r hmem
    obtain ⟨⟨p', hframing⟩, -⟩ := h.add hs hplain
    have ih := ih hrun
    rw [Registry.registerAll] at ih ⊢
    rw [List.foldl_append, ih, List.map_append, List.map_singleton, Frame.additions_concat,
      Frame.add_append, List.foldl_cons, List.foldl_nil,
      (hframing.clean.patch_eq hs (hlast r (List.mem_singleton_self _)) r.1).1]
    exact hframing.splice_steps hs.toAccepted r.2

/-- A longer run makes the additions of a shorter one first. -/
theorem Frame.exists_additions_append (spec : AnchorSpec) (f : Frame) (routes more : List Route) :
    ∃ B, f.additions spec (routes ++ more) = f.additions spec routes ++ B := by
  induction more using List.reverseRecOn with
  | nil => exact ⟨{}, by rw [List.append_nil]; exact Additions.ext (by simp) (by simp) (by simp)⟩
  | append_singleton more route ih =>
    obtain ⟨B, hB⟩ := ih
    refine ⟨B ++ missing spec (f.add (f.additions spec (routes ++ more))).text route, ?_⟩
    rw [← List.append_assoc, Frame.additions_concat, hB]
    exact Additions.ext (by simp) (by simp) (by simp)

theorem Additions.mem_all_append_left {A : Additions} {d : List Text} (h : d ∈ A.all)
    (B : Additions) : d ∈ (A ++ B).all := by
  simp only [Additions.all, Additions.imports_append, Additions.constants_append,
    Additions.entries_append, List.mem_append] at h ⊢
  tauto

/-- Where a run has made no entry yet, the document has all its entries. -/
theorem Framing.declares_entryLines_of_additions (h : Framing spec f p) (hs : spec.Plain)
    (hr : ∀ r ∈ routes, r.Plain) (hnil : (f.additions spec routes).entries = []) :
    ∀ r ∈ routes, declares f.text (entryLines spec r) = true := by
  induction routes using List.reverseRecOn with
  | nil => exact fun r hr => absurd hr List.not_mem_nil
  | append_singleton routes route ih =>
    obtain ⟨hroutes, hroute⟩ := List.forall_mem_append.mp hr
    have hplain := hroute route (List.mem_singleton_self _)
    rw [Frame.additions_concat, Additions.entries_append, List.append_eq_nil_iff] at hnil
    refine List.forall_mem_append.mpr ⟨ih hroutes hnil.1, List.forall_mem_singleton.mpr ?_⟩
    have hnow : declares (f.add (f.additions spec routes)).text (entryLines spec route) = true := by
      by_contra hnot
      have hmem : entryLines spec route ∈
          (missing spec (f.add (f.additions spec routes)).text route).entries :=
        mem_lacking.mpr ⟨rfl, Bool.not_eq_true _ ▸ hnot⟩
      rw [hnil.2] at hmem
      exact absurd hmem List.not_mem_nil
    have hA := plain_additions spec f hroutes
    rcases ((h.add hs hA).2 _ (IsDeclaration.entryLines spec hplain)).mp hnow with hold | hmem
    · rwa [hnil.1] at hold
    · rw [Additions.all, hnil.1, List.append_nil] at hmem
      have hlines {n : Nat} {d : List Text} (hd : entryLines spec route = d) (hlen : d.length = n) :
          n = 5 := by rw [← hlen, ← hd]; rfl
      rcases List.mem_append.mp hmem with hmem | hmem
      · obtain ⟨other, -, heq⟩ := hA.imports _ hmem
        exact absurd (hlines (n := 1) heq rfl) (by decide)
      · obtain ⟨other, -, heq⟩ := hA.constants _ hmem
        exact absurd (hlines (n := 2) heq rfl) (by decide)

/-- A route keeps its constants while the list is settled: the constants that count as present when
it is registered, before any entry was made, are still there when the list has its comma. -/
def Frame.Spares (spec : AnchorSpec) (f : Frame) (earlier : List Route) (route : Route) : Prop :=
  (∀ r ∈ earlier, declares f.text (entryLines spec r) = true) →
    declares f.text (constantLines route) = true →
      declares f.settled.text (constantLines route) = true

/-- A route that is registered in a run is registered at its end. -/
theorem Framing.declares_additions (h : Framing spec f p) (hs : spec.Plain) (earlier : List Route)
    {later : List Route} {route : Route} (hroutes : routes = earlier ++ route :: later)
    (hr : ∀ r ∈ routes, r.Plain) (hspares : f.Spares spec earlier route) :
    ∀ d ∈ declarations spec route, declares (f.add (f.additions spec routes)).text d = true := by
  intro d hd
  have hplain : route.Plain := hr route (by simp [hroutes])
  have hearlier : ∀ r ∈ earlier, r.Plain := fun r hmem => hr r (by simp [hroutes, hmem])
  have hdecl : IsDeclaration spec d := ⟨route, hplain, hd⟩
  obtain ⟨A, hA⟩ : ∃ A, A = f.additions spec earlier := ⟨_, rfl⟩
  obtain ⟨B, hB⟩ : ∃ B,
      f.additions spec routes = (A ++ missing spec (f.add A).text route) ++ B := by
    obtain ⟨B, hB⟩ := Frame.exists_additions_append spec f (earlier ++ [route]) later
    rw [Frame.additions_concat, ← hA, List.append_assoc, List.singleton_append, ← hroutes] at hB
    exact ⟨B, hB⟩
  refine ((h.add hs (plain_additions spec f hr)).2 d hdecl).mpr ?_
  rw [hB]
  by_cases hnow : declares (f.add A).text d = true
  · rcases ((h.add hs (hA ▸ plain_additions spec f hearlier)).2 d hdecl).mp hnow with hold | hmem
    · left
      by_cases hnone : A.entries = []
      · rw [hnone] at hold
        rw [Frame.ready]
        split
        · exact hold
        · refine h.declares_settled hs.toAccepted hplain hd (fun heq => ?_) hold
          rw [heq] at hold ⊢
          refine hspares (h.declares_entryLines_of_additions hs hearlier (hA ▸ hnone)) hold
      · rw [Frame.ready_of_ne_nil hnone] at hold
        rwa [Frame.ready_of_ne_nil (by simp [hnone])]
    · exact Or.inr (Additions.mem_all_append_left (Additions.mem_all_append_left hmem _) _)
  · refine Or.inr (Additions.mem_all_append_left ?_ _)
    have hmem := mem_all_missing.mpr ⟨hd, Bool.not_eq_true _ ▸ hnow⟩
    simp only [Additions.all, Additions.imports_append, Additions.constants_append,
      Additions.entries_append, List.mem_append] at hmem ⊢
    tauto

end Run

/-- The route to the page of a feature with a usable name, imported by a plain path. -/
def IsPlainFeature (route : Route) : Prop :=
  ∃ text name importPath, Name.validate text = .ok name ∧ importPath ≠ [] ∧
    (∀ b ∈ importPath, Route.isPlainByte b) ∧ route = Route.ofFeature name importPath

/-- The route of a feature with a plain path is plain. -/
theorem IsPlainFeature.plain {route : Route} (h : IsPlainFeature route) : route.Plain := by
  obtain ⟨text, name, importPath, hname, hne, hplain, rfl⟩ := h
  exact ⟨Route.regular_ofFeature hname importPath, hne, hplain⟩

/-- A run on a clean registry leaves a clean one, with what it added in the order of the run, and
every patch of it is full. A route of the run stays registered, and registering it again changes
nothing, provided that its constants do not stand where the list gets its comma. -/
theorem registerAll_keeps {spec : AnchorSpec} (hs : spec.Plain) {doc : Text} {p : Places}
    (h : CleanAt spec doc p) :
    ∃ f : Frame, f.text = doc ∧ Framing spec f p ∧
      ∀ registrations : List (Policy × Route), (∀ r ∈ registrations, IsPlainFeature r.2) →
        let routes := registrations.map Prod.snd
        let text := registerAll spec doc registrations
        (∃ p', CleanAt spec text p') ∧ text = (f.add (f.additions spec routes)).text ∧
        (∀ policy route, IsPlainFeature route → (patch spec policy text route).detail = .full) ∧
        ∀ earlier route later, routes = earlier ++ route :: later → f.Spares spec earlier route →
          (∀ d ∈ declarations spec route, declares text d = true) ∧
            ∀ policy, patch spec policy text route = Outcome.settled text := by
  obtain ⟨f, rfl, hf⟩ := h.exists_framing
  refine ⟨f, rfl, hf, ?_⟩
  intro registrations hfeatures routes text
  have hplain : ∀ r ∈ routes, r.Plain := fun route hroute => by
    obtain ⟨r, hmem, rfl⟩ := List.mem_map.mp hroute
    exact (hfeatures r hmem).plain
  have htext : text = (f.add (f.additions spec routes)).text :=
    hf.registerAll hs registrations fun r hr => (hfeatures r hr).plain
  obtain ⟨⟨p', hframing⟩, -⟩ := hf.add hs (plain_additions spec f hplain)
  have hclean : CleanAt spec text p' := htext ▸ hframing.clean
  refine ⟨⟨p', hclean⟩, htext, fun policy route hroute => ?_, ?_⟩
  · rw [(hclean.patch_eq hs hroute.plain policy).1]
  · intro earlier route later hroutes hspares
    have hall : ∀ d ∈ declarations spec route, declares text d = true := by
      rw [htext]
      exact hf.declares_additions hs earlier hroutes hplain hspares
    exact ⟨hall, fun policy =>
      hclean.patch_of_declares hs (hplain route (by simp [hroutes])) policy hall⟩

/-- The registry of a new project is clean. -/
theorem cleanAt_registry :
    CleanAt {} (Template.expand [(lit "router", lit "Router")] Template.Application.registry)
      ⟨228, 230, 243, 407, 406, 518, 809⟩ := by
  simp only [Template.Application.registry, Template.sketch, List.flatMap_cons, List.flatMap_nil]
  repeat rw [Template.sketchLine_ofList]
  exact {
    scan_eq := by decide +kernel
    braces_eq := by decide +kernel
    importEnd_le := by decide
    closer_lt := by decide
    import_margin := by decide +kernel
    constant_margin := by decide +kernel
    constant_code := by decide +kernel }

/-- Two features registered in a new project stay registered under any mix of policies. -/
theorem registerAll_keeps_new_project :
    let user := Route.ofFeature ⟨[lit "user"]⟩ (lit "../../features/user/user_page.dart")
    let profile := Route.ofFeature ⟨[lit "my", lit "profile"]⟩ (lit "../my-profile.dart")
    let doc := Template.expand [(lit "router", lit "Router")] Template.Application.registry
    let text := registerAll {} doc [(.atomic, user), (.bestEffort, profile), (.bestEffort, user)]
    (∃ p, CleanAt {} text p) ∧ (∀ d ∈ declarations {} user, declares text d = true) ∧
      patch {} .atomic text profile = Outcome.settled text := by
  intro user profile doc text
  have hs : AnchorSpec.Plain {} :=
    ⟨⟨by decide, by decide, by decide⟩, by decide⟩
  have huser : IsPlainFeature user :=
    ⟨lit "user", _, _, rfl, by decide, List.all_eq_true.mp rfl, rfl⟩
  have hprofile : IsPlainFeature profile :=
    ⟨lit "my_profile", _, _, rfl, by decide, List.all_eq_true.mp rfl, rfl⟩
  have hnew : declares doc (constantLines user) = false ∧
      declares doc (constantLines profile) = false := by
    simp only [doc, Template.Application.registry, Template.sketch, List.flatMap_cons,
      List.flatMap_nil]
    repeat rw [Template.sketchLine_ofList]
    decide
  obtain ⟨f, hf, -, hrun⟩ := registerAll_keeps hs cleanAt_registry
  obtain ⟨hclean, -, -, hkeeps⟩ :=
    hrun [(.atomic, user), (.bestEffort, profile), (.bestEffort, user)]
      (List.forall_mem_cons.mpr ⟨huser, List.forall_mem_cons.mpr ⟨hprofile,
        List.forall_mem_singleton.mpr huser⟩⟩)
  have hspares {route : Route} (h : declares doc (constantLines route) = false)
      (earlier : List Route) : f.Spares {} earlier route := fun _ hold => by
    rw [hf] at hold
    exact absurd (hold.symm.trans h) (by decide)
  exact ⟨hclean, (hkeeps [] user _ rfl (hspares hnew.1 _)).1,
    (hkeeps [user] profile _ rfl (hspares hnew.2 _)).2 .atomic⟩

/-- A pair of constants in the list counts as present until the list gets a comma: the registry of
one route loses its constants with its entry, and registering the route again writes them. -/
theorem registerAll_spoils_constants :
    let name : Name := ⟨[lit "x"]⟩
    let route := Route.ofFeature name (lit "x.dart")
    let doc := lit "import 'a';\nclass Router \x7b\n  static const String aName = 'a';\n\x7d\n" ++
      lit "routes: [\n  static const String x = '/x';\n  static const String xName = 'x';\n]\n"
    let text := registerAll {} doc [(.atomic, route)]
    Name.validate (lit "x") = .ok name ∧ CleanAt {} doc ⟨11, 12, 25, 62, 61, 64, 141⟩ ∧
      (patch {} .atomic doc route).detail = .full ∧ declares text (constantLines route) = false ∧
      (patch {} .atomic text route).modified = true := by
  repeat rw [lit_ofList]
  intro name route doc text
  refine ⟨by rfl, ⟨?_, ?_, ?_, ?_, ?_, ?_, ?_⟩, ?_⟩ <;> decide +kernel

end FlutterScaffold.Registry
