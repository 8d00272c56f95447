import FlutterScaffold.Proofs.Registry.Recognition
import FlutterScaffold.Proofs.Registry.Sharing

/-!
# Declarations do not overlap

The lines of a declaration tell where in it they stand: an import has one line, the first constant
of a pair has a slash that the second one lacks, and the lines of an entry start with different
bytes. So where a declaration is written between two lines, a declaration that is looked for stands
in front of it, behind it, or is the one that was written (`infix_insert_iff`).
-/

namespace FlutterScaffold.Registry

open FlutterScaffold.Text (trim)
open Byte (isMargin)

/-! ## Runs of lines -/

section Runs

variable {α : Type} {w v x y : List α}

/-- Two runs that overlap nowhere: neither starts within the other, and they have the same length if
they start with the same line. -/
def Separate (w v : List α) : Prop :=
  ∃ a t b u, w = a :: t ∧ v = b :: u ∧ b ∉ t ∧ a ∉ u ∧ (a = b → t.length = u.length)

/-- A place between two lines that no occurrence of a run goes over. -/
def Uncut (w x y : List α) : Prop := w <:+: x ++ y → w <:+: x ∨ w <:+: y

/-- A run lies on one side of an item that it has at its head at most. -/
theorem infix_append_cons_of_not_mem_tail {a b : α} {t : List α} (hb : b ∉ t) :
    a :: t <:+: x ++ b :: y ↔ a :: t <:+: x ∨ a :: t <:+: b :: y := by
  induction x with
  | nil => simp
  | cons c x ih =>
    have hcons : a :: t <:+: c :: x ↔ a :: t <+: c :: x ∨ a :: t <:+: x := List.infix_cons_iff
    rw [List.cons_append, List.infix_cons_iff, ih, hcons, List.cons_prefix_cons,
      List.cons_prefix_cons, Text.prefix_append_cons_iff hb, or_assoc]

/-- A run does not go over a place whose next item it has at its head at most. -/
theorem uncut_of_head? (hy : ∀ b ∈ y.head?, b ∉ w.tail) : Uncut w x y := by
  intro h
  cases y with
  | nil =>
    rw [List.append_nil] at h
    exact Or.inl h
  | cons b y =>
    cases w with
    | nil => exact Or.inl List.nil_infix
    | cons a t => exact (infix_append_cons_of_not_mem_tail (hy b rfl)).mp h

/-- A run does not go over a place in front of which stands an item that it has nowhere. -/
theorem uncut_of_getLast? (hx : ∀ a ∈ x.getLast?, a ∉ w) : Uncut w x y := by
  intro h
  rcases List.eq_nil_or_concat x with rfl | ⟨x, a, rfl⟩
  · exact Or.inr h
  · rw [List.concat_eq_append] at hx h ⊢
    rw [List.append_assoc, List.singleton_append,
      Text.infix_append_cons_iff (hx a (by simp))] at h
    exact h.imp_left fun h => h.trans (List.prefix_append _ _).isInfix

/-- A run that is looked for where another is inserted stands on one side of it or is the inserted
one. -/
theorem Separate.infix_insert_iff (h : Separate w v) :
    w <:+: x ++ (v ++ y) ↔ w <:+: x ∨ w = v ∨ w <:+: y := by
  obtain ⟨a, t, b, u, rfl, rfl, hb, ha, hlen⟩ := h
  have hbehind : a :: t <:+: u ++ y ↔ a :: t <:+: y := by
    clear hlen hb
    induction u with
    | nil => rfl
    | cons c u ih =>
      obtain ⟨hc, hu⟩ := not_or.mp (mt List.mem_cons.mpr ha)
      rw [List.cons_append, List.infix_cons_iff, ih hu, List.cons_prefix_cons]
      simp [hc]
  have hhead : a :: t <+: b :: (u ++ y) ↔ a :: t = b :: u := by
    rw [List.cons_prefix_cons, List.cons.injEq]
    refine and_congr_right fun hab => ⟨fun hp => ?_, fun hu => hu ▸ List.prefix_append _ _⟩
    exact (List.prefix_of_prefix_length_le hp (List.prefix_append u y) (hlen hab).le).eq_of_length
      (hlen hab)
  have hcons : a :: t <:+: b :: (u ++ y) ↔ a :: t <+: b :: (u ++ y) ∨ a :: t <:+: u ++ y :=
    List.infix_cons_iff
  rw [List.cons_append, infix_append_cons_of_not_mem_tail hb, hcons, hhead, hbehind]

/-- Where the place cuts no occurrence, only the inserted run comes into being. -/
theorem Separate.infix_insert_iff_of_uncut (h : Separate w v) (hcut : Uncut w x y) :
    w <:+: x ++ (v ++ y) ↔ w <:+: x ++ y ∨ w = v := by
  rw [h.infix_insert_iff]
  constructor
  · rintro (hx | hv | hy)
    · exact Or.inl (List.infix_append_of_infix_left hx)
    · exact Or.inr hv
    · exact Or.inl (List.infix_append_of_infix_right hy)
  · rintro (hxy | hv)
    · exact (hcut hxy).imp_right Or.inr
    · exact Or.inr (Or.inl hv)

end Runs

/-! ## Declarations -/

/-- The declarations of a route. -/
def declarations (spec : AnchorSpec) (route : Route) : List (List Text) :=
  [importLines route, constantLines route, entryLines spec route]

section Declarations

variable {spec : AnchorSpec} {route route' : Route} {d d' : List Text}

/-- An import is looked for as it is written. -/
theorem wanted_importLines (route : Route) : wanted (importLines route) = importLines route := by
  obtain ⟨line, hline⟩ : ∃ line, importLines route = [line] := ⟨_, rfl⟩
  rw [hline, wanted, List.map_singleton, trim_importLine hline]

theorem wanted_entryLines (spec : AnchorSpec) (route : Route) : wanted (entryLines spec route) =
    [lit "GoRoute(",
      lit "path: " ++ (spec.routerClass ++ (lit "." ++ (route.symbol ++ lit ","))),
      lit "name: " ++ (spec.routerClass ++ (lit "." ++ (route.symbol ++ lit "Name,"))),
      lit "builder: (context, state) => const " ++ (route.widget ++ lit "(),"),
      lit "),"] := by
  have htrim {b : Byte} {u v w : Text} (hw : w = [byte ' ', byte ' '] ++ (u ++ v))
      (hfirst : (u ++ v).head? = some b) (hb : isMargin b = false)
      (hlast : v.getLast? = some (byte ',')) : trim isMargin w = u ++ v := by
    rw [hw, Text.trim_append_left (List.all_eq_true.mp rfl)]
    refine Text.trim_eq_self (List.eq_cons_of_mem_head? hfirst) ?_ hb
      (show isMargin (byte ',') = false by decide)
    rw [List.getLast?_append, hlast]
    rfl
  have hend (u v : Text) (hv : v.getLast? = some (byte ',')) :
      (u ++ v).getLast? = some (byte ',') := by
    rw [List.getLast?_append, hv]
    rfl
  simp only [wanted, entryLines, List.map_cons, List.map_nil, List.append_assoc, List.cons.injEq,
    and_true]
  refine ⟨by rfl, ?_, ?_, ?_, by rfl⟩
  · exact htrim rfl rfl (by decide) (hend _ _ (hend _ _ (hend _ _ rfl)))
  · exact htrim rfl rfl (by decide) (hend _ _ (hend _ _ (hend _ _ rfl)))
  · exact htrim rfl rfl (by decide) (hend _ _ rfl)

/-- The first bytes of the lines by which the declarations of a route are looked for. -/
theorem head?_wanted (spec : AnchorSpec) (route : Route) :
    (wanted (importLines route)).map List.head? = [some (byte 'i')] ∧
      (wanted (constantLines route)).map List.head? = [some (byte 's'), some (byte 's')] ∧
      (wanted (entryLines spec route)).map List.head? = [some (byte 'G'), some (byte 'p'),
        some (byte 'n'), some (byte 'b'), some (byte ')')] := by
  rw [wanted_importLines, wanted_constantLines, wanted_entryLines]
  exact ⟨rfl, rfl, rfl⟩

/-- The slash of its path tells a path constant from a name constant. -/
theorem pathLine_ne_nameLine (hr : route.Regular) (hr' : route'.Regular) :
    constantLine route.symbol route.path ≠
      constantLine (route'.symbol ++ lit "Name") route'.name := by
  intro h
  have hslash : Byte.slash ∈ constantLine route.symbol route.path := by
    rw [constantLine, stringLiteral_of_plain (hr.path_eq ▸ List.forall_mem_cons.mpr ⟨by decide,
      fun b hb => isPlainByte_of_isSnakeByte b (hr.name_snake b hb)⟩), hr.path_eq]
    simp
  have hname : ∀ b ∈ route'.name, b ≠ Byte.slash := by
    have hsnake : ∀ b, Name.isSnakeByte b → b ≠ Byte.slash := by decide +kernel
    exact fun b hb => hsnake b (hr'.name_snake b hb)
  have hsymbol : ∀ b ∈ route'.symbol, b ≠ Byte.slash := by
    have halnum : ∀ b, Byte.isAlnum b → b ≠ Byte.slash := by decide +kernel
    exact fun b hb => halnum b (hr'.symbol_alnum b hb)
  rw [h, constantLine, stringLiteral_of_plain fun b hb =>
    isPlainByte_of_isSnakeByte b (hr'.name_snake b hb)] at hslash
  simp only [List.mem_append, List.mem_cons, List.not_mem_nil, or_false] at hslash
  rcases hslash with (((h | h | h) | h) | h | h | h) | h
  · exact absurd h (by decide)
  · exact hsymbol _ h rfl
  · exact absurd h (by decide)
  · exact absurd h (by decide)
  · exact absurd h (by decide)
  · exact hname _ h rfl
  · exact absurd h (by decide)
  · exact absurd h (by decide)

/-- Declarations are separate when the first bytes of their lines are. -/
theorem separate_of_head? {w v : List Text} {b c : Option Byte} {bs cs : List (Option Byte)}
    (hw : w.map List.head? = b :: bs) (hv : v.map List.head? = c :: cs) (hc : c ∉ bs) (hb : b ∉ cs)
    (hlen : b = c → bs.length = cs.length) : Separate w v := by
  obtain ⟨x, t, rfl, rfl, rfl⟩ := List.map_eq_cons_iff.mp hw
  obtain ⟨y, u, rfl, rfl, rfl⟩ := List.map_eq_cons_iff.mp hv
  refine ⟨x, t, y, u, rfl, rfl, fun hy => hc (List.mem_map_of_mem hy),
    fun hx => hb (List.mem_map_of_mem hx), fun hxy => ?_⟩
  simpa using hlen (congrArg List.head? hxy)

/-- The declarations of two routes overlap nowhere. -/
theorem separate_declarations (hr : route.Regular) (hr' : route'.Regular)
    (hd : d ∈ declarations spec route) (hd' : d' ∈ declarations spec route') :
    Separate (wanted d) (wanted d') := by
  obtain ⟨himport, hconstants, hentry⟩ := head?_wanted spec route
  obtain ⟨himport', hconstants', hentry'⟩ := head?_wanted spec route'
  simp only [declarations, List.mem_cons, List.not_mem_nil, or_false] at hd hd'
  rcases hd with rfl | rfl | rfl <;> rcases hd' with rfl | rfl | rfl
  · exact separate_of_head? himport himport' (by decide) (by decide) (by decide)
  · exact separate_of_head? himport hconstants' (by decide) (by decide) (by decide)
  · exact separate_of_head? himport hentry' (by decide) (by decide) (by decide)
  · exact separate_of_head? hconstants himport' (by decide) (by decide) (by decide)
  · rw [wanted_constantLines, wanted_constantLines]
    refine ⟨_, _, _, _, rfl, rfl, ?_, ?_, fun _ => rfl⟩
    · exact fun h => pathLine_ne_nameLine hr' hr (List.mem_singleton.mp h)
    · exact fun h => pathLine_ne_nameLine hr hr' (List.mem_singleton.mp h)
  · exact separate_of_head? hconstants hentry' (by decide) (by decide) (by decide)
  · exact separate_of_head? hentry himport' (by decide) (by decide) (by decide)
  · exact separate_of_head? hentry hconstants' (by decide) (by decide) (by decide)
  · exact separate_of_head? hentry hentry' (by decide) (by decide) (by decide)

/-- A declaration is told by the lines that it is looked for by. -/
theorem wanted_inj (hd : d ∈ declarations spec route) (hd' : d' ∈ declarations spec route') :
    wanted d = wanted d' ↔ d = d' := by
  refine ⟨fun h => ?_, fun h => h ▸ rfl⟩
  obtain ⟨himport, hconstants, hentry⟩ := head?_wanted spec route
  obtain ⟨himport', hconstants', hentry'⟩ := head?_wanted spec route'
  have hheads := congrArg (List.map List.head?) h
  simp only [declarations, List.mem_cons, List.not_mem_nil, or_false] at hd hd'
  rcases hd with rfl | rfl | rfl <;> rcases hd' with rfl | rfl | rfl
  · rwa [wanted_importLines, wanted_importLines] at h
  · exact absurd (himport.symm.trans (hheads.trans hconstants')) (by decide)
  · exact absurd (himport.symm.trans (hheads.trans hentry')) (by decide)
  · exact absurd (hconstants.symm.trans (hheads.trans himport')) (by decide)
  · rwa [wanted_constantLines, wanted_constantLines] at h
  · exact absurd (hconstants.symm.trans (hheads.trans hentry')) (by decide)
  · exact absurd (hentry.symm.trans (hheads.trans himport')) (by decide)
  · exact absurd (hentry.symm.trans (hheads.trans hconstants')) (by decide)
  · simp only [wanted_entryLines, List.cons.injEq, List.append_cancel_left_eq,
      List.append_cancel_right_eq, and_true, true_and] at h
    exact entryLines_inj.mpr ⟨h.1, h.2.2⟩

end Declarations

end FlutterScaffold.Registry
