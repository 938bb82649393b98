import Mathlib.Data.List.Basic
import Mathlib.Logic.Relation
import TreeProver.Files.Artifacts

/-!
# Where paths lead

Where a path leads depends on the current directory alone, as long as it leads anywhere. So places
can be compared without a file tree: the staging path of a target leads next to the target, to a
place that no other target has its staging path lead to.
-/

namespace TreeProver

/-- What a list is split at is in none of its parts. -/
theorem List.not_mem_of_mem_splitOn {α : Type} [DecidableEq α] {x : α} {l part : List α}
    (h : part ∈ l.splitOn x) : x ∉ part := by
  induction l generalizing part with
  | nil => simp_all
  | cons a l ih =>
    rw [List.splitOn_eq_splitOnP, List.splitOnP_cons_eq_if_modifyHead,
      ← List.splitOn_eq_splitOnP] at h
    split at h
    · rcases List.mem_cons.1 h with rfl | h
      · exact List.not_mem_nil
      · exact ih h
    · next ha =>
      cases hs : l.splitOn x with
      | nil => exact absurd hs (List.splitOn_ne_nil x l)
      | cons first rest =>
        rw [hs, List.modifyHead_cons] at h
        rcases List.mem_cons.1 h with rfl | h
        · have hf : x ∉ first := ih (by rw [hs]; exact List.mem_cons_self)
          exact List.not_mem_cons_of_ne_of_not_mem (Ne.symm fun he ↦ ha (by simp [he])) hf
        · exact ih (by rw [hs]; exact List.mem_cons_of_mem first h)

namespace Path

/-! ### Segments -/

/-- A path has segments. -/
theorem segments_ne_nil (p : Path) : p.segments ≠ [] := by
  simp [segments]

/-- There are no slashes in segments. -/
theorem slash_not_mem {p : Path} {s : String} (h : s ∈ p.segments) : '/' ∉ s.toList := by
  obtain ⟨part, hp, rfl⟩ := List.mem_map.1 h
  rw [String.toList_ofList]
  exact List.not_mem_of_mem_splitOn hp

/-- The characters of a slash. -/
theorem toList_slash : ("/" : String).toList = ['/'] := by decide +kernel

/-- Names with slashes between them have the names as segments. -/
theorem segments_intercalate {names : List String} (h : ∀ s ∈ names, '/' ∉ s.toList)
    (hne : names ≠ []) : segments ("/".intercalate names) = names := by
  rw [segments, String.toList_intercalate, toList_slash, List.splitOn_intercalate]
  · simp
  · intro l hl
    obtain ⟨s, hs, rfl⟩ := List.mem_map.1 hl
    exact h s hs
  · simpa using hne

/-- A name is its only segment. -/
theorem segments_name {s : String} (h : '/' ∉ s.toList) : segments s = [s] := by
  rw [segments, List.splitOn_eq_singleton h, List.map_singleton, String.ofList_toList]

/-- A path is split at a slash in it. -/
theorem segments_append_slash (p q : String) :
    segments (p ++ "/" ++ q) = segments p ++ segments q := by
  have hsplit : ∀ l l' : List Char,
      (l ++ '/' :: l').splitOn '/' = l.splitOn '/' ++ l'.splitOn '/' :=
    fun l l' ↦ List.splitOnP_append_cons l l' (by decide)
  rw [segments, segments, segments, String.toList_append, String.toList_append, toList_slash,
    List.append_assoc, List.singleton_append, hsplit, List.map_append]

/-- A path that ends in a slash is one with a slash behind it. -/
theorem endsWith_slash_iff {p : String} : p.endsWith "/" = true ↔ ∃ q, p = q ++ "/" := by
  rw [String.endsWith_eq_endsWith_toSlice, String.Slice.endsWith_string_iff]
  simp only [String.copy_toSlice]
  constructor
  · rintro ⟨t, ht⟩
    refine ⟨String.ofList t, ?_⟩
    apply String.toList_injective
    rw [String.toList_append, String.toList_ofList, ht]
  · rintro ⟨q, rfl⟩
    exact ⟨q.toList, (String.toList_append ..).symm⟩

/-- A path is put together from its segments. -/
theorem intercalate_segments (p : Path) : "/".intercalate p.segments = p := by
  apply String.toList_injective
  have hid : (p.segments).map String.toList = p.toList.splitOn '/' := by
    rw [segments, List.map_map]
    simp [Function.comp_def]
  rw [String.toList_intercalate, toList_slash, hid, List.intercalate_splitOn]

/-- A path starts from the root exactly when it has an empty segment in front of others. -/
theorem isAbsolute_iff {p : Path} :
    p.isAbsolute = true ↔ ∃ rest, rest ≠ [] ∧ p.segments = "" :: rest := by
  rw [isAbsolute, String.startsWith_string_iff, toList_slash]
  constructor
  · rintro ⟨t, ht⟩
    have hp : p = "" ++ "/" ++ String.ofList t := by
      apply String.toList_injective
      simpa [toList_slash] using ht.symm
    refine ⟨segments (String.ofList t), segments_ne_nil _, ?_⟩
    rw [hp, segments_append_slash, segments_name (by simp), List.singleton_append]
  · rintro ⟨rest, hne, h⟩
    rw [← intercalate_segments p, h, String.toList_intercalate, toList_slash]
    cases rest with
    | nil => exact absurd rfl hne
    | cons s rest => simp

/-- A name is no path from the root. -/
theorem isAbsolute_name {s : String} (h : '/' ∉ s.toList) : isAbsolute s = false := by
  rw [Bool.eq_false_iff, Ne, isAbsolute_iff]
  rintro ⟨rest, hne, hs⟩
  rw [segments_name h, List.cons.injEq] at hs
  exact hne hs.2.symm

/-! ### Places -/

/-- The place one segment further, whatever is there. -/
def advance (place : Place) (segment : String) : Place :=
  if isIdle segment then place
  else if segment = ".." then place.dropLast
  else place ++ [segment]

/-- The place that a path starts from. -/
def start (current : Place) (p : Path) : Place := if p.isAbsolute then [] else current

/-- The place that a path leads to if it leads anywhere. -/
def place (current : Place) (p : Path) : Place := p.segments.foldl advance (p.start current)

/-- A segment that leads nowhere keeps the place. -/
theorem advance_idle {place : Place} {s : String} (h : isIdle s = true) :
    advance place s = place := if_pos h

/-- A name leads below. -/
theorem advance_name {place : Place} {s : String} (h : isIdle s = false) (hs : s ≠ "..") :
    advance place s = place ++ [s] := by
  rw [advance, if_neg (by simp [h]), if_neg hs]

/-- What is cut off the end of segments is idle, and what is left does not end in an idle one. -/
theorem trimEnd_spec (fixed : Nat) (segments : List String) :
    ∃ kept cut, trimEnd fixed segments = segments.take fixed ++ kept ∧
      segments.drop fixed = kept ++ cut ∧ (∀ s ∈ cut, isIdle s = true) ∧
      ∀ s, kept.getLast? = some s → isIdle s = false := by
  refine ⟨_, ((segments.drop fixed).reverse.takeWhile isIdle).reverse, rfl, ?_, ?_, ?_⟩
  · rw [← List.reverse_append, List.takeWhile_append_dropWhile, List.reverse_reverse]
  · intro s hs
    exact List.all_eq_true.1 (List.all_takeWhile (l := (segments.drop fixed).reverse)) s
      (List.mem_reverse.1 hs)
  · intro s hs
    rw [List.getLast?_reverse] at hs
    have h := List.head?_dropWhile_not isIdle (segments.drop fixed).reverse
    rwa [hs] at h

/-- Segments without idle ones at their end start the segments. -/
theorem trimEnd_isPrefix (fixed : Nat) (segments : List String) :
    trimEnd fixed segments <+: segments := by
  obtain ⟨kept, cut, ht, hd, -⟩ := trimEnd_spec fixed segments
  refine ⟨cut, ?_⟩
  rw [ht, List.append_assoc, ← hd, List.take_append_drop]

/-- Idle segments lead nowhere. -/
theorem foldl_advance_idle {segments : List String} (h : ∀ s ∈ segments, isIdle s = true)
    (place : Place) : segments.foldl advance place = place := by
  induction segments with
  | nil => rfl
  | cons s rest ih =>
    rw [List.forall_mem_cons] at h
    rw [List.foldl_cons, advance_idle h.1, ih h.2]

/-- Segments without idle ones at their end lead to the same place. -/
theorem foldl_trimEnd (fixed : Nat) (segments : List String) (place : Place) :
    (trimEnd fixed segments).foldl advance place = segments.foldl advance place := by
  obtain ⟨kept, cut, ht, hd, hcut, -⟩ := trimEnd_spec fixed segments
  have hs : segments = trimEnd fixed segments ++ cut := by
    rw [ht, List.append_assoc, ← hd, List.take_append_drop]
  conv_rhs => rw [hs, List.foldl_append, foldl_advance_idle hcut]

/-- The text of segments that a path starts with starts where the path does and has these segments,
unless the text and they lead nowhere. -/
theorem segments_ofSegments {p : Path} {names : List String} (h : names <+: p.segments)
    (hne : p.isAbsolute = true → names ≠ []) :
    (∀ current, (ofSegments p names).start current = p.start current) ∧
      ((ofSegments p names).segments = names ∨
        (∀ s ∈ (ofSegments p names).segments, isIdle s = true) ∧ ∀ s ∈ names, isIdle s = true) := by
  have hslash : ∀ s ∈ names, '/' ∉ s.toList := fun s hs ↦ slash_not_mem (h.subset hs)
  -- Behind a first segment, the text starts from the root exactly when the path does.
  have hsame : ∀ s t rest, names = s :: t :: rest →
      isAbsolute ("/".intercalate names) = p.isAbsolute := by
    rintro s t rest rfl
    obtain ⟨more, hp⟩ := h
    rw [Bool.eq_iff_iff, isAbsolute_iff, isAbsolute_iff, segments_intercalate hslash (by simp),
      ← hp]
    simp
  by_cases ha : p.isAbsolute = true
  · obtain ⟨all, -, hp⟩ := isAbsolute_iff.1 ha
    match names, hne ha, h with
    | [s], _, h =>
      rw [hp, List.prefix_cons_iff] at h
      obtain rfl : s = "" := by simpa using h
      have htext : ofSegments p [""] = "/" := if_pos ⟨ha, rfl⟩
      have hroot : isAbsolute "/" = true := by decide +kernel
      have hsegments : segments "/" = ["", ""] := by decide +kernel
      rw [htext, hsegments]
      refine ⟨fun current ↦ ?_, .inr (by decide)⟩
      rw [start, start, hroot, ha]
    | s :: t :: rest, _, _ =>
      have htext : ofSegments p (s :: t :: rest) = "/".intercalate (s :: t :: rest) :=
        if_neg (by simp)
      rw [htext]
      refine ⟨fun current ↦ ?_, .inl (segments_intercalate hslash (by simp))⟩
      rw [start, start, hsame s t rest rfl]
  · have htext : ofSegments p names = "/".intercalate names := if_neg fun hc ↦ ha hc.1
    have hstart : ∀ current, p.start current = current := fun _ ↦ if_neg ha
    rw [htext]
    match names with
    | [] =>
      have hempty : ∀ current, start current "" = current := fun _ ↦ if_neg (by decide +kernel)
      have hsegments : segments "" = [""] := by decide +kernel
      rw [String.intercalate_nil, hsegments]
      exact ⟨fun current ↦ (hempty current).trans (hstart current).symm, .inr (by decide)⟩
    | [s] =>
      have hs : '/' ∉ s.toList := hslash s List.mem_cons_self
      rw [String.intercalate_singleton]
      refine ⟨fun current ↦ ?_, .inl (segments_name hs)⟩
      rw [hstart, start, isAbsolute_name hs]
      rfl
    | s :: t :: rest =>
      refine ⟨fun current ↦ ?_, .inl (segments_intercalate hslash (by simp))⟩
      rw [start, start, hsame s t rest rfl]

/-- The text of segments that a path starts with leads where they lead from its start. -/
theorem place_ofSegments (current : Place) {p : Path} {names : List String}
    (h : names <+: p.segments) (hne : p.isAbsolute = true → names ≠ []) :
    (ofSegments p names).place current = names.foldl advance (p.start current) := by
  obtain ⟨hstart, hsegments | ⟨hidle, hnames⟩⟩ := segments_ofSegments h hne
  · rw [place, hstart, hsegments]
  · rw [place, hstart, foldl_advance_idle hidle, foldl_advance_idle hnames]

/-- What is behind other segments does not matter for whether a path starts from the root. -/
theorem isAbsolute_append {p q : Path} {names : List String} {s t : String} (hne : names ≠ [])
    (hp : p.segments = names ++ [s]) (hq : q.segments = names ++ [t]) :
    p.isAbsolute = q.isAbsolute := by
  obtain ⟨first, rest, rfl⟩ := List.exists_cons_of_ne_nil hne
  rw [Bool.eq_iff_iff, isAbsolute_iff, isAbsolute_iff, hp, hq]
  simp

/-- A name is put behind segments that lead where the path leads, and the path starts where it
did. -/
theorem exists_segments_join (p : Path) : ∃ front : List String,
    (∀ current, front.foldl advance (p.start current) = p.place current) ∧
      ∀ name : String, '/' ∉ name.toList → (p.join name).segments = front ++ [name] ∧
        ∀ current, (p.join name).start current = p.start current := by
  have hjoin : ∀ name : String, '/' ∉ name.toList →
      p.join name = if p = "" ∨ p.endsWith "/" then p ++ name else p ++ "/" ++ name := by
    intro name h
    rw [join, if_neg (by simp [isAbsolute_name h])]
  by_cases hempty : p = ""
  · subst hempty
    have hstart : ∀ current, start current "" = current := fun _ ↦ if_neg (by decide +kernel)
    have hsegments : segments "" = [""] := by decide +kernel
    refine ⟨[], fun current ↦ ?_, fun name h ↦ ?_⟩
    · rw [place, hsegments]
      rfl
    · rw [hjoin name h, if_pos (.inl rfl), String.empty_append, segments_name h]
      refine ⟨rfl, fun current ↦ ?_⟩
      rw [hstart, start, isAbsolute_name h]
      rfl
  · by_cases hslash : p.endsWith "/" = true
    · obtain ⟨q, rfl⟩ := endsWith_slash_iff.1 hslash
      have hp : segments (q ++ "/") = segments q ++ [""] := by
        rw [← segments_name (s := "") (by simp), ← segments_append_slash, String.append_empty]
      refine ⟨segments q, fun current ↦ ?_, fun name h ↦ ?_⟩
      · rw [place, hp, List.foldl_append]
        rfl
      · have hj : segments (q ++ "/" ++ name) = segments q ++ [name] := by
          rw [segments_append_slash, segments_name h]
        rw [hjoin name h, if_pos (.inr hslash)]
        refine ⟨hj, fun current ↦ ?_⟩
        rw [start, start, isAbsolute_append (segments_ne_nil q) hj hp]
    · refine ⟨segments p, fun current ↦ rfl, fun name h ↦ ?_⟩
      have hj : segments (p ++ "/" ++ name) = segments p ++ [name] := by
        rw [segments_append_slash, segments_name h]
      have ha : isAbsolute (p ++ "/" ++ name) = p.isAbsolute := by
        rw [Bool.eq_iff_iff, isAbsolute_iff, isAbsolute_iff, hj]
        constructor
        · rintro ⟨rest, -, hs⟩
          obtain ⟨first, more, hp⟩ := List.exists_cons_of_ne_nil (segments_ne_nil p)
          rw [hp, List.cons_append, List.cons.injEq] at hs
          refine ⟨more, ?_, by rw [hp, hs.1]⟩
          rintro rfl
          apply hempty
          rw [← intercalate_segments p, hp, hs.1]
          decide +kernel
        · rintro ⟨rest, -, hs⟩
          exact ⟨rest ++ [name], by simp, by rw [hs, List.cons_append]⟩
      rw [hjoin name h, if_neg (by simp [hempty, hslash])]
      refine ⟨hj, fun current ↦ ?_⟩
      rw [start, start, ha]

/-- A name behind a path leads one segment further. -/
theorem place_join (current : Place) (p : Path) {name : String} (h : '/' ∉ name.toList) :
    (p.join name).place current = advance (p.place current) name := by
  obtain ⟨front, hfront, hjoin⟩ := exists_segments_join p
  obtain ⟨hsegments, hstart⟩ := hjoin name h
  rw [place, hsegments, hstart, List.foldl_append, hfront]
  rfl

/-- The segments that are kept in front are there. -/
theorem fixedSegments_le (p : Path) : p.fixedSegments ≤ p.segments.length := by
  rw [fixedSegments]
  split
  · next h => rw [h]; exact Nat.le_add_left 1 _
  · next h => rw [h]; exact Nat.le_add_left 1 _
  · exact Nat.zero_le _

/-- The root is kept in front of a path from the root. -/
theorem fixedSegments_of_isAbsolute {p : Path} (h : p.isAbsolute = true) : p.fixedSegments = 1 := by
  obtain ⟨rest, hne, hs⟩ := isAbsolute_iff.1 h
  obtain ⟨s, more, rfl⟩ := List.exists_cons_of_ne_nil hne
  simp [fixedSegments, hs]

/-- The root is kept when the end of a path from the root is cut off. -/
theorem trimEnd_ne_nil {p : Path} (h : p.isAbsolute = true) (segments : List String) :
    trimEnd p.fixedSegments (p.segments.take p.fixedSegments ++ segments) ≠ [] := by
  obtain ⟨kept, -, htrim, -⟩ := trimEnd_spec p.fixedSegments
    (p.segments.take p.fixedSegments ++ segments)
  have hle := fixedSegments_le p
  intro hnil
  rw [hnil] at htrim
  have hz := congrArg List.length htrim
  rw [List.length_append, List.length_take, List.length_append, List.length_take,
    List.length_nil, fixedSegments_of_isAbsolute h] at hz
  rw [fixedSegments_of_isAbsolute h] at hle
  omega

/-- The place of a path that ends in a name is below that of the path above. -/
theorem place_of_fileName {p : Path} {name : String} (h : p.fileName? = some name) :
    ∃ above, p.parent? = some above ∧ isIdle name = false ∧ '/' ∉ name.toList ∧
      ∀ current, p.place current = above.place current ++ [name] := by
  obtain ⟨kept, cut, ht, hd, -, hlast⟩ := trimEnd_spec p.fixedSegments p.segments
  have hprefix := trimEnd_isPrefix p.fixedSegments p.segments
  have hfold := foldl_trimEnd p.fixedSegments p.segments
  rw [fileName?] at h
  rw [parent?]
  generalize trimEnd p.fixedSegments p.segments = trimmed at *
  have hlen : (p.segments.take p.fixedSegments).length = p.fixedSegments :=
    List.length_take_of_le (fixedSegments_le p)
  split at h
  · contradiction
  · next hne =>
    rcases List.eq_nil_or_concat kept with rfl | ⟨init, last, rfl⟩
    · exact absurd (by rw [ht, List.append_nil, hlen]) hne
    · rw [List.concat_eq_append] at ht hlast
      rw [← List.append_assoc] at ht
      have hidle : isIdle last = false := hlast last List.getLast?_concat
      rw [if_neg hne]
      subst ht
      rw [List.getLast?_concat] at h
      obtain ⟨rfl, hup⟩ : last = name ∧ last ≠ ".." := by
        split at h
        · contradiction
        · contradiction
        · next hup he =>
          obtain rfl := Option.some.inj he
          exact ⟨Option.some.inj h, hup⟩
      rw [List.dropLast_concat]
      have hmem : last ∈ p.segments :=
        hprefix.subset (List.mem_append_right _ List.mem_cons_self)
      refine ⟨_, rfl, hidle, slash_not_mem hmem, fun current ↦ ?_⟩
      rw [place_ofSegments, foldl_trimEnd, place, ← hfold, List.foldl_append, List.foldl_cons,
        List.foldl_nil, advance_name hidle hup]
      · exact (trimEnd_isPrefix _ _).trans ((List.prefix_append _ _).trans hprefix)
      · exact fun ha ↦ trimEnd_ne_nil ha init

/-- Names of which one is not empty have a text. -/
theorem length_intercalate_pos {names : List String} (h : ∃ s ∈ names, s ≠ "") :
    0 < ("/".intercalate names).length := by
  obtain ⟨s, hs, hne⟩ := h
  have hpos : 0 < s.length := Nat.pos_of_ne_zero fun h ↦ hne (String.length_eq_zero_iff.1 h)
  match names, hs with
  | [_], hs =>
    obtain rfl := List.mem_singleton.1 hs
    rwa [String.intercalate_singleton]
  | first :: t :: rest, _ =>
    rw [String.intercalate_cons_cons, String.length_append, String.length_append]
    exact Nat.add_pos_left (Nat.add_pos_right _ (by decide +kernel)) _

/-- More names have a longer text, if one of them is not empty. -/
theorem length_intercalate_lt {names rest : List String} (h : ∃ s ∈ rest, s ≠ "") :
    ("/".intercalate names).length < ("/".intercalate (names ++ rest)).length := by
  have hpos := length_intercalate_pos h
  obtain ⟨s, hs, -⟩ := h
  rcases List.eq_nil_or_concat names with rfl | ⟨_, _, rfl⟩
  · rwa [List.nil_append, String.intercalate_nil, String.length_empty]
  · rw [String.intercalate_append_of_ne_nil (by simp) (List.ne_nil_of_mem hs),
      String.length_append, String.length_append, Nat.add_assoc]
    exact Nat.lt_add_of_pos_right (Nat.add_pos_right _ hpos)

/-- The path above another one is the text of segments that the path starts with. Behind them there
is one that is not idle, or else there is only a dot in front. -/
theorem exists_segments_parent {p r : Path} (h : p.parent? = some r) :
    ∃ names rest, r = ofSegments p names ∧ p.segments = names ++ rest ∧
      (p.isAbsolute = true → names ≠ []) ∧
      ((∃ s ∈ rest, isIdle s = false) ∨ names = [] ∧ p ≠ "") := by
  have hprefix := trimEnd_isPrefix p.fixedSegments p.segments
  obtain ⟨kept, cut, htrim, -, -, hlast⟩ := trimEnd_spec p.fixedSegments p.segments
  have hfixed : (p.segments.take p.fixedSegments).length = p.fixedSegments :=
    List.length_take_of_le (fixedSegments_le p)
  rw [parent?] at h
  generalize trimEnd p.fixedSegments p.segments = trimmed at *
  split at h
  · -- Only the dot in front is left, and above it is the directory itself.
    split at h
    · cases h
    · next hrelative =>
      have habsolute : ¬ p.isAbsolute = true := fun ha ↦ hrelative (.inr ha)
      refine ⟨[], p.segments, ?_, rfl, fun ha ↦ absurd ha habsolute, .inr ⟨rfl, ?_⟩⟩
      · rw [ofSegments, if_neg fun hc ↦ habsolute hc.1]
        exact (Option.some.inj h).symm
      · rintro rfl
        exact hrelative (.inl (by decide +kernel))
  · next hne =>
    obtain rfl := Option.some.inj h
    rcases List.eq_nil_or_concat kept with rfl | ⟨init, last, rfl⟩
    · exact absurd (by rw [htrim, List.append_nil, hfixed]) hne
    · rw [List.concat_eq_append] at htrim hlast
      rw [← List.append_assoc] at htrim
      subst htrim
      rw [List.dropLast_concat]
      obtain ⟨more, hmore⟩ := hprefix
      obtain ⟨above, habove⟩ := trimEnd_isPrefix p.fixedSegments
        (p.segments.take p.fixedSegments ++ init)
      refine ⟨_, above ++ [last] ++ more, rfl, ?_, fun ha ↦ trimEnd_ne_nil ha init,
        .inl ⟨last, by simp, hlast last List.getLast?_concat⟩⟩
      rw [← List.append_assoc, ← List.append_assoc, habove, hmore]

/-- The path above another one is shorter. -/
theorem length_lt_of_parent? {p r : Path} (h : p.parent? = some r) : r.length < p.length := by
  obtain ⟨names, rest, rfl, hsegments, habsolute, hrest⟩ := exists_segments_parent h
  rcases hrest with ⟨s, hs, hidle⟩ | ⟨rfl, hne⟩
  · have hmore : ∃ s ∈ rest, s ≠ "" := by
      refine ⟨s, hs, ?_⟩
      rintro rfl
      simp [isIdle] at hidle
    have hp : p = "/".intercalate (names ++ rest) := by rw [← hsegments, intercalate_segments]
    rw [ofSegments]
    split
    · next hroot =>
      -- The root is left of a path from the root, and there is something behind it.
      obtain ⟨first, rfl⟩ := List.length_eq_one_iff.1 hroot.2
      rw [hp, String.intercalate_append_of_ne_nil (List.cons_ne_nil _ _) (List.ne_nil_of_mem hs),
        String.length_append, String.length_append]
      have hpos := length_intercalate_pos hmore
      omega
    · rw [hp]
      exact length_intercalate_lt hmore
  · have hrelative : ¬ p.isAbsolute = true := fun ha ↦ habsolute ha rfl
    rw [ofSegments, if_neg fun hc ↦ hrelative hc.1, String.intercalate_nil, String.length_empty]
    exact Nat.pos_of_ne_zero fun h ↦ hne (String.length_eq_zero_iff.1 h)

/-- Above a path: the paths that are reached from it by taking the one above, once or more. -/
def IsAbove (q p : Path) : Prop := Relation.TransGen (fun a b ↦ a.parent? = some b) p q

/-- What is above a path is its parent and what is above that. -/
theorem isAbove_iff {q p : Path} :
    q.IsAbove p ↔ ∃ parent : Path, p.parent? = some parent ∧ (q = parent ∨ q.IsAbove parent) := by
  rw [IsAbove, Relation.TransGen.head'_iff]
  constructor
  · rintro ⟨parent, hp, h⟩
    exact ⟨parent, hp, Relation.reflTransGen_iff_eq_or_transGen.1 h⟩
  · rintro ⟨parent, hp, h⟩
    exact ⟨parent, hp, Relation.reflTransGen_iff_eq_or_transGen.2 h⟩

/-! ### The way along a path -/

/-- Whether a path passes a place on the way to its own. -/
def Passes (current : Place) (p : Path) (q : Place) : Prop :=
  ∃ names, names <+: p.segments ∧ names.length < p.segments.length ∧
    q = names.foldl advance (p.start current)

/-- A path passes the place that it starts from. -/
theorem passes_start (current : Place) (p : Path) : p.Passes current (p.start current) :=
  ⟨[], List.nil_prefix, List.length_pos_iff.2 (segments_ne_nil p), rfl⟩

/-- The text of segments that a path starts with, but not of all, leads to a place that the path
passes, and it passes no other places on the way there. -/
theorem passes_ofSegments {current : Place} {p : Path} {names : List String}
    (h : names <+: p.segments)
    (hlt : names.length < p.segments.length) (hne : p.isAbsolute = true → names ≠ []) :
    p.Passes current ((ofSegments p names).place current) ∧
      ∀ q, (ofSegments p names).Passes current q → p.Passes current q := by
  refine ⟨⟨names, h, hlt, place_ofSegments current h hne⟩, ?_⟩
  rintro q ⟨front, hfront, hlen, rfl⟩
  obtain ⟨hstart, hsegments | ⟨hidle, -⟩⟩ := segments_ofSegments h hne
  · rw [hsegments] at hfront hlen
    exact ⟨front, hfront.trans h, Nat.lt_trans hlen hlt, by rw [hstart]⟩
  · rw [foldl_advance_idle fun s hs ↦ hidle s (hfront.subset hs), hstart]
    exact passes_start current p

/-- A path passes the place of its parent, and the parent passes no other places. -/
theorem passes_parent (current : Place) {p r : Path} (h : p.parent? = some r) :
    p.Passes current (r.place current) ∧ ∀ q, r.Passes current q → p.Passes current q := by
  obtain ⟨names, rest, rfl, hsegments, habsolute, hrest⟩ := exists_segments_parent h
  have hne : rest ≠ [] := by
    rcases hrest with ⟨_, hs, -⟩ | ⟨rfl, -⟩
    · exact List.ne_nil_of_mem hs
    · rw [List.nil_append] at hsegments
      exact hsegments ▸ segments_ne_nil p
  refine passes_ofSegments ⟨rest, hsegments.symm⟩ ?_ habsolute
  rw [hsegments, List.length_append]
  exact Nat.lt_add_of_pos_right (List.length_pos_iff.2 hne)

/-- A path passes the places of everything above it. -/
theorem passes_of_isAbove (current : Place) {p r : Path} (h : r.IsAbove p) :
    p.Passes current (r.place current) := by
  induction h using Relation.TransGen.head_induction_on with
  | single h => exact (passes_parent current h).1
  | head h _ ih => exact (passes_parent current h).2 _ ih

/-- Whatever name is behind a path, the same places are passed on the way to it. -/
theorem passes_join {current q : Place} {p : Path} {name name' : String} (h : '/' ∉ name.toList)
    (h' : '/' ∉ name'.toList) (hq : (p.join name).Passes current q) :
    (p.join name').Passes current q := by
  obtain ⟨front, -, hjoin⟩ := exists_segments_join p
  obtain ⟨hsegments, hstart⟩ := hjoin name h
  obtain ⟨hsegments', hstart'⟩ := hjoin name' h'
  obtain ⟨names, hnames, hlt, rfl⟩ := hq
  rw [hsegments] at hnames hlt
  rw [List.length_append, List.length_singleton] at hlt
  have hfront : names <+: front :=
    List.prefix_of_prefix_length_le hnames (List.prefix_append _ _) (Nat.le_of_lt_succ hlt)
  refine ⟨names, ?_, ?_, by rw [hstart, hstart']⟩
  · rw [hsegments']
    exact hfront.trans (List.prefix_append _ _)
  · rwa [hsegments', List.length_append, List.length_singleton]

end Path

namespace ArtifactFile

open TreeProver.Path

/-- A staging name is a name of its own. -/
theorem staging_name {name : String} (h : '/' ∉ name.toList) :
    '/' ∉ (name ++ ".tmp").toList ∧ isIdle (name ++ ".tmp") = false ∧ name ++ ".tmp" ≠ ".." := by
  have htmp : (".tmp" : String).toList = ['.', 't', 'm', 'p'] := by decide +kernel
  have hlen : 4 ≤ (name ++ ".tmp").toList.length := by
    rw [String.toList_append, htmp, List.length_append]
    exact Nat.le_add_left 4 _
  have hshort : ∀ s : String, s.toList.length < 4 → name ++ ".tmp" ≠ s := by
    rintro s hs rfl
    omega
  refine ⟨?_, ?_, hshort ".." (by decide +kernel)⟩
  · rw [String.toList_append, htmp, List.mem_append]
    simp [h]
  · rw [isIdle, decide_eq_false (hshort "" (by decide +kernel)),
      decide_eq_false (hshort "." (by decide +kernel))]
    rfl

/-- The staging path of a path leads to its name with an ending, or below it if it ends in no
name. -/
theorem place_staging (p : Path) : ∃ (above : Path) (name : String), ∀ current,
    (staging p).place current = above.place current ++ [name ++ ".tmp"] ∧
    p.place current
      = if name = "" then above.place current else above.place current ++ [name] := by
  cases hn : p.fileName? with
  | some name =>
    obtain ⟨above, habove, hidle, hslash, hplace⟩ := place_of_fileName hn
    obtain ⟨hs, hi, hup⟩ := staging_name hslash
    have hne : name ≠ "" := by
      rintro rfl
      exact absurd hidle (by decide)
    refine ⟨above, name, fun current ↦ ⟨?_, by rw [if_neg hne, hplace]⟩⟩
    rw [staging, withFileName, hn, habove, Option.getD_some]
    rw [place_join current above hs, advance_name hi hup]
  | none =>
    have hslash : '/' ∉ ("" : String).toList := by simp
    obtain ⟨hs, hi, hup⟩ := staging_name hslash
    refine ⟨p, "", fun current ↦ ⟨?_, by rw [if_pos rfl]⟩⟩
    rw [staging, withFileName, hn, Option.getD_none]
    rw [place_join current p hs, advance_name hi hup]

/-- A staging path leads elsewhere than its target. -/
theorem place_staging_ne (p : Path) (current : Place) :
    (staging p).place current ≠ p.place current := by
  obtain ⟨above, name, h⟩ := place_staging p
  rw [(h current).1, (h current).2]
  split
  · simp
  · intro he
    simp at he

/-- Targets at different places have their staging paths lead to different places. -/
theorem place_staging_inj {p q : Path} {current : Place}
    (h : (staging p).place current = (staging q).place current) :
    p.place current = q.place current := by
  obtain ⟨above, name, hp⟩ := place_staging p
  obtain ⟨above', name', hq⟩ := place_staging q
  rw [(hp current).1, (hq current).1] at h
  obtain ⟨ha, hn⟩ := List.append_inj' h rfl
  have hname : name = name' := by simpa using hn
  rw [(hp current).2, (hq current).2, ha, hname]

end ArtifactFile

namespace FileTree

/-- Segments that lead anywhere lead where they say. -/
theorem follow_ok {t : FileTree} {place place' : Place} {names : List String}
    (h : t.follow place names = .ok place') : place' = names.foldl Path.advance place := by
  induction names generalizing place with
  | nil => exact (Except.ok.inj h).symm
  | cons name rest ih =>
    rw [follow] at h
    split at h
    · contradiction
    · contradiction
    · rw [List.foldl_cons, Path.advance]
      split at h
      · next hidle => rw [if_pos hidle]; exact ih h
      · next hidle =>
        rw [if_neg hidle]
        split at h
        · next hup => rw [if_pos hup]; exact ih h
        · next hup =>
          rw [if_neg hup]
          split at h
          · contradiction
          · exact ih h

/-- A path that leads anywhere leads to its place. -/
theorem locate_ok {t : FileTree} {p : Path} {place : Place} (h : t.locate p = .ok place) :
    place = p.place t.current := by
  rw [locate] at h
  split at h
  · contradiction
  · split at h
    · contradiction
    · exact follow_ok h

/-- Segments that lead somewhere still lead there when no directory is gone. -/
theorem follow_of_directories {t t' : FileTree}
    (hd : ∀ q, t.get? q = some .directory → t'.get? q = some .directory) {place place' : Place}
    {names : List String} (h : t.follow place names = .ok place') :
    t'.follow place names = .ok place' := by
  induction names generalizing place with
  | nil => exact h
  | cons name rest ih =>
    rw [follow] at h ⊢
    split at h
    · contradiction
    · contradiction
    · next hdir =>
      simp only [hd _ hdir]
      split at h
      · next hidle => rw [if_pos hidle]; exact ih h
      · next hidle =>
        rw [if_neg hidle]
        split at h
        · next hup => rw [if_pos hup]; exact ih h
        · next hup =>
          rw [if_neg hup]
          split at h
          · contradiction
          · next hshort => rw [if_neg hshort]; exact ih h

/-- A path that leads somewhere still leads there when no directory is gone. -/
theorem locate_of_directories {t t' : FileTree} (hc : t'.current = t.current)
    (hd : ∀ q, t.get? q = some .directory → t'.get? q = some .directory) {p : Path}
    {place : Place} (h : t.locate p = .ok place) : t'.locate p = .ok place := by
  rw [locate] at h ⊢
  split at h
  · contradiction
  · next hnul =>
    rw [if_neg hnul]
    split at h
    · contradiction
    · next hempty =>
      rw [if_neg hempty, hc]
      exact follow_of_directories hd h

/-- Segments that lead anywhere lead from one directory to the next. -/
theorem get?_of_follow {t : FileTree} {place place' : Place} {names : List String} {s : String}
    {rest : List String} (h : t.follow place (names ++ s :: rest) = .ok place') :
    t.get? (names.foldl Path.advance place) = some .directory := by
  induction names generalizing place with
  | nil =>
    rw [List.nil_append, follow] at h
    split at h
    · cases h
    · cases h
    · next hdir => exact hdir
  | cons name names ih =>
    rw [List.cons_append, follow] at h
    split at h
    · cases h
    · cases h
    · rw [List.foldl_cons, Path.advance]
      split at h
      · next hidle => rw [if_pos hidle]; exact ih h
      · next hidle =>
        rw [if_neg hidle]
        split at h
        · next hup => rw [if_pos hup]; exact ih h
        · next hup =>
          rw [if_neg hup]
          split at h
          · cases h
          · exact ih h

/-- The places that a path passes are directories if it leads anywhere. -/
theorem get?_of_passes {t : FileTree} {p : Path} {place q : Place} (h : t.locate p = .ok place)
    (hq : p.Passes t.current q) : t.get? q = some .directory := by
  obtain ⟨names, ⟨more, hmore⟩, hlt, rfl⟩ := hq
  rw [locate] at h
  split at h
  · cases h
  · split at h
    · cases h
    · rw [← hmore] at h hlt
      cases more with
      | nil => simp at hlt
      | cons s rest => exact get?_of_follow h

/-- Behind a path that leads somewhere with one name, everything above what another name leads to is
there. -/
theorem get?_of_isAbove_join {t : FileTree} {p r : Path} {name name' : String} {place : Place}
    (hname : '/' ∉ name.toList) (hname' : '/' ∉ name'.toList)
    (h : t.locate (p.join name) = .ok place)
    (hr : r.IsAbove (p.join name')) : t.get? (r.place t.current) = some .directory :=
  get?_of_passes h (Path.passes_join hname' hname (Path.passes_of_isAbove t.current hr))

end FileTree

end TreeProver
